import ShiftReduce.Proofs.Machine.Completeness
import ShiftReduce.Proofs.Table.Conflicts

/-!
What a viable prefix calls for. `Calls` says it by symbols and productions alone, with the numbers
of states and of productions left out, so two machines for different grammars can be compared. A
state offers an entry for each call of a string that leads to it (`exists_call`, `exists_offers`),
and different entries for different calls; so competing calls are conflicts (`conflict_iff`), and a
table is free of these if no string has two calls on one terminal (`isSLR1_iff_calls`).
-/

namespace ShiftReduce

inductive Call where
  | shift
  | reduce (p : Production)
  | accept
deriving DecidableEq

namespace Construction

open Config (topState)

variable {c : Construction} {start s t : Nat} {st : List Frame} {γ : List Symbol}
  {e f : Action} {o r : Call}

/-- What the valid items of a string call for on a terminal. -/
inductive Calls (c : Construction) (γ : List Symbol) (t : Nat) : Call → Prop
  | shift {i : Item} (valid : Valid c.grammar γ i)
      (next : i.next? c.grammar = some (.terminal t)) : Calls c γ t .shift
  | reduce {n : Nat} {p : Production} (positive : n ≠ 0) (found : c.grammar.prod? n = some p)
      (valid : Valid c.grammar γ ⟨n, p.rhs.length⟩) (follow : t ∈ c.sets.follow p.head) :
      Calls c γ t (.reduce p)
  | accept (valid : Valid c.grammar γ ⟨0, 1⟩) (eof : t = c.grammar.eof) : Calls c γ t .accept

inductive Answers (c : Construction) (s t : Nat) : Call → Action → Prop
  | shift {j : Nat} (target : c.automaton.transition s (.terminal t) = some j) :
      Answers c s t .shift (.shift j)
  | reduce {n : Nat} {p : Production} (found : c.grammar.prod? n = some p) :
      Answers c s t (.reduce p) (.reduce n)
  | accept : Answers c s t .accept .accept

theorem Answers.call_eq (first : c.Answers s t o e) (second : c.Answers s t r e) : o = r := by
  cases first with
  | shift _ =>
      cases second
      rfl
  | reduce found =>
      cases second with
      | reduce found' => rw [Option.some.inj (found.symm.trans found')]
  | accept =>
      cases second
      rfl

theorem Answers.entry_eq (distinct : c.grammar.prods.toList.Nodup) (first : c.Answers s t o e)
    (second : c.Answers s t o f) : e = f := by
  cases first with
  | shift target =>
      cases second with
      | shift target' => rw [Option.some.inj (target.symm.trans target')]
  | @reduce n p found =>
      cases second with
      | @reduce m _ found' => rw [Grammar.eq_of_prod? distinct found found']
  | accept =>
      cases second
      rfl

theorem exists_stacked_of_walk (walk : c.automaton.walk 0 γ = some s) :
    ∃ st, c.Stacked st γ ∧ topState st = s := by
  induction γ using List.reverseRecOn generalizing s with
  | nil =>
      cases walk
      exact ⟨[], .nil, rfl⟩
  | append_singleton γ x ih =>
      rw [Automaton.walk_concat, Option.bind_eq_some_iff] at walk
      obtain ⟨r, before, target⟩ := walk
      obtain ⟨st, below, rfl⟩ := ih before
      exact ⟨_, below.push target, rfl⟩

namespace Built

variable (built : c.Built start)

include built

theorem exists_call (stacked : c.Stacked st γ) (offers : c.Offers (topState st) t e) :
    ∃ o, c.Calls γ t o ∧ c.Answers (topState st) t o e := by
  cases offers with
  | shift target =>
      obtain ⟨items, state, i, hi, next⟩ := built.exists_next_of_transition target
      exact ⟨.shift, .shift (built.valid_of_stacked stacked state hi) next, .shift target⟩
  | reduce positive found state complete follow =>
      have valid := built.valid_of_stacked stacked state complete
      exact ⟨_, .reduce positive found valid follow, .reduce found⟩
  | accept state complete eof =>
      exact ⟨.accept, .accept (built.valid_of_stacked stacked state complete) eof, .accept⟩

theorem exists_offers (stacked : c.Stacked st γ) (calls : c.Calls γ t o) :
    ∃ e, c.Offers (topState st) t e ∧ c.Answers (topState st) t o e := by
  cases calls with
  | shift valid next =>
      obtain ⟨j, target⟩ := built.transition_of_valid stacked valid next
      exact ⟨.shift j, .shift target, .shift target⟩
  | reduce positive found valid follow =>
      obtain ⟨items, state, complete⟩ := built.state_of_valid stacked valid
      exact ⟨_, .reduce positive found state complete follow, .reduce found⟩
  | accept valid eof =>
      obtain ⟨items, state, complete⟩ := built.state_of_valid stacked valid
      exact ⟨.accept, .accept state complete eof, .accept⟩

theorem exists_stacked_of_calls (calls : c.Calls γ t o) : ∃ st, c.Stacked st γ := by
  have valid : ∃ i, Valid c.grammar γ i := by
    cases calls with
    | shift valid _ => exact ⟨_, valid⟩
    | reduce _ _ valid _ => exact ⟨_, valid⟩
    | accept valid _ => exact ⟨_, valid⟩
  obtain ⟨i, valid⟩ := valid
  obtain ⟨p, first⟩ := built.exists_first
  obtain ⟨s, _, walk, _⟩ :=
    Automaton.reached_of_valid first built.augmented.toWellFormed valid
  rw [← built.automaton_eq] at walk
  obtain ⟨st, stacked, _⟩ := exists_stacked_of_walk walk
  exact ⟨st, stacked⟩

variable (distinct : c.grammar.prods.toList.Nodup)

include distinct

theorem offers_two_iff (stacked : c.Stacked st γ) :
    (∃ e f, e ≠ f ∧ c.Offers (topState st) t e ∧ c.Offers (topState st) t f) ↔
      ∃ o r, o ≠ r ∧ c.Calls γ t o ∧ c.Calls γ t r := by
  apply Iff.intro
  · intro ⟨e, f, apart, first, second⟩
    obtain ⟨o, calls, answers⟩ := built.exists_call stacked first
    obtain ⟨r, calls', answers'⟩ := built.exists_call stacked second
    refine ⟨o, r, fun same => apart ?_, calls, calls'⟩
    exact answers.entry_eq distinct (same ▸ answers')
  · intro ⟨o, r, apart, first, second⟩
    obtain ⟨e, offers, answers⟩ := built.exists_offers stacked first
    obtain ⟨f, offers', answers'⟩ := built.exists_offers stacked second
    refine ⟨e, f, fun same => apart ?_, offers, offers'⟩
    exact answers.call_eq (same ▸ answers')

theorem conflict_iff (stacked : c.Stacked st γ) :
    (∃ es, c.table.action (topState st) t = some (.conflict es)) ↔
      ∃ o r, o ≠ r ∧ c.Calls γ t o ∧ c.Calls γ t r := by
  rw [← built.offers_two_iff distinct stacked]
  exact built.exists_conflict_iff

theorem isSLR1_iff_calls :
    c.isSLR1 ↔ ∀ γ t o r, c.Calls γ t o → c.Calls γ t r → o = r := by
  rw [built.isSLR1_iff_offers]
  apply Iff.intro
  · intro single γ t o r first second
    by_contra apart
    obtain ⟨st, stacked⟩ := built.exists_stacked_of_calls first
    obtain ⟨e, f, differ, offers, offers'⟩ :=
      (built.offers_two_iff distinct stacked).2 ⟨o, r, apart, first, second⟩
    exact differ (single _ t e f offers offers')
  · intro single s t e f offers offers'
    by_contra differ
    obtain ⟨items, state⟩ := built.state_of_offers offers
    obtain ⟨p, first⟩ := built.exists_first
    rw [built.automaton_eq] at state
    obtain ⟨γ, walk⟩ := Automaton.exists_walk first state
    rw [← built.automaton_eq] at walk
    obtain ⟨st, stacked, rfl⟩ := exists_stacked_of_walk walk
    obtain ⟨o, r, apart, calls, calls'⟩ :=
      (built.offers_two_iff distinct stacked).1 ⟨e, f, differ, offers, offers'⟩
    exact apart (single γ t o r calls calls')

end Built

end Construction

end ShiftReduce
