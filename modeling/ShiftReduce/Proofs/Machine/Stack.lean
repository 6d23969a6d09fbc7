import ShiftReduce.Proofs.Machine.Path
import ShiftReduce.Proofs.Table.Entries

/-!
The stack of the machine is a path of the automaton. `Stacked` gives the symbols that its frames
spell; the items of the top state are valid for them, so a reduction finds its right-hand side on
top and a state with a goto under it (`pop_of_reduce`), and the machine accepts with the start
symbol alone (`eq_start_of_accept`).
-/

namespace ShiftReduce.Construction

open Config (topState)

variable {c : Construction} {start : Nat} {st : List Frame} {γ δ : List Symbol}

/-- The frames lead from state 0 along the symbols `γ`. -/
inductive Stacked (c : Construction) : List Frame → List Symbol → Prop
  | nil : Stacked c [] []
  | push {st : List Frame} {γ : List Symbol} {x : Symbol} {s : Nat} (below : Stacked c st γ)
      (target : c.automaton.transition (topState st) x = some s) :
      Stacked c (⟨s, c.grammar.symbolName x⟩ :: st) (γ ++ [x])

namespace Stacked

theorem length_eq (h : c.Stacked st γ) : st.length = γ.length := by
  induction h with
  | nil => rfl
  | push _ _ ih => simp [ih]

theorem symbols_eq (h : c.Stacked st γ) :
    (st.map Frame.symbol).reverse = γ.map c.grammar.symbolName := by
  induction h with
  | nil => rfl
  | push _ _ ih => simp [ih]

theorem walk_eq (h : c.Stacked st γ) : c.automaton.walk 0 γ = some (topState st) := by
  induction h with
  | nil => rfl
  | push _ target ih => rw [Automaton.walk_concat, ih, Option.bind_some, target, topState]

theorem of_concat {x : Symbol} (h : c.Stacked st (γ ++ [x])) :
    ∃ s below, st = ⟨s, c.grammar.symbolName x⟩ :: below ∧ c.Stacked below γ ∧
      c.automaton.transition (topState below) x = some s := by
  generalize whole : γ ++ [x] = form at h
  cases h with
  | nil => simp at whole
  | @push st δ y s below target =>
      obtain ⟨rfl, same⟩ := List.append_inj' whole rfl
      cases same
      exact ⟨s, st, rfl, below, target⟩

theorem drop (h : c.Stacked st (γ ++ δ)) : c.Stacked (st.drop δ.length) γ := by
  induction δ using List.reverseRecOn generalizing st with
  | nil => simpa using h
  | append_singleton δ x ih =>
      rw [← List.append_assoc] at h
      obtain ⟨s, below, rfl, inside, _⟩ := h.of_concat
      simpa using ih inside

end Stacked

theorem lookaheadTerm?_nil {k : Config} (h : k.rest = []) :
    c.lookaheadTerm? k = some c.grammar.eof := by
  simp [lookaheadTerm?, h]

theorem lookaheadTerm?_cons {k : Config} {token : String} {rest : List String}
    (h : k.rest = token :: rest) : c.lookaheadTerm? k = c.grammar.terms.index? token := by
  simp [lookaheadTerm?, h]

theorem lt_eof_of_index? {token : String} {t : Nat} (h : c.grammar.terms.index? token = some t) :
    t < c.grammar.eof :=
  (List.getElem?_eq_some_iff.1 (Alphabet.index?_eq_some_iff.1 h)).1

theorem termName_of_index? {token : String} {t : Nat} (h : c.grammar.terms.index? token = some t) :
    c.grammar.termName t = token := by
  rw [Grammar.termName, if_neg (Nat.ne_of_lt (lt_eof_of_index? h)), Alphabet.index?_eq_some_iff.1 h]
  rfl

theorem rest_eq_nil_of_eof {k : Config} (look : c.lookaheadTerm? k = some c.grammar.eof) :
    k.rest = [] := by
  cases rest : k.rest with
  | nil => rfl
  | cons token tokens =>
      rw [lookaheadTerm?_cons rest] at look
      exact absurd (lt_eof_of_index? look) (Nat.lt_irrefl _)

theorem exists_token_of_lt {k : Config} {t : Nat} (look : c.lookaheadTerm? k = some t)
    (lt : t < c.grammar.eof) : ∃ token rest, k.rest = token :: rest := by
  cases ahead : k.rest with
  | nil =>
      rw [lookaheadTerm?_nil ahead, Option.some.injEq] at look
      exact absurd look (Nat.ne_of_gt lt)
  | cons token rest => exact ⟨token, rest, rfl⟩

namespace Built

variable (built : c.Built start)

include built

theorem transition_of_shift {s t j : Nat} (action : c.table.action s t = some (.shift j)) :
    c.automaton.transition s (.terminal t) = some j := by
  cases built.offers_of_action action (by simp) with
  | shift target => exact target

theorem valid_of_stacked (stacked : c.Stacked st γ) {items : ItemSet}
    (state : c.automaton.states[topState st]? = some items) {i : Item} (hi : i ∈ items) :
    Valid c.grammar γ i := by
  obtain ⟨p, first⟩ := built.exists_first
  have walk := stacked.walk_eq
  rw [built.automaton_eq] at walk state
  exact Automaton.valid_of_mem first walk state hi

theorem state_of_valid (stacked : c.Stacked st γ) {i : Item} (valid : Valid c.grammar γ i) :
    ∃ items, c.automaton.states[topState st]? = some items ∧ i ∈ items := by
  obtain ⟨p, first⟩ := built.exists_first
  have walk := stacked.walk_eq
  rw [built.automaton_eq] at walk ⊢
  obtain ⟨s, items, walk', state, hi⟩ :=
    Automaton.reached_of_valid first built.augmented.toWellFormed valid
  obtain rfl : topState st = s := Option.some.inj (walk.symm.trans walk')
  exact ⟨items, state, hi⟩

theorem transition_of_valid (stacked : c.Stacked st γ) {i : Item} (valid : Valid c.grammar γ i)
    {x : Symbol} (next : i.next? c.grammar = some x) :
    ∃ s, c.automaton.transition (topState st) x = some s := by
  obtain ⟨items, state, hi⟩ := built.state_of_valid stacked valid
  exact built.exists_transition_of_next state hi next

theorem not_faults (k : Config) (f : Fault) : ¬ c.Faults k f := by
  intro faults
  cases faults with
  | shiftedEnd look action none_ahead =>
      have shiftable := built.lt_eof_of_transition (built.transition_of_shift action)
      obtain ⟨token, rest, ahead⟩ := exists_token_of_lt look shiftable
      rw [none_ahead] at ahead
      cases ahead
  | unknownProduction look action unknown =>
      cases built.offers_of_action action (by simp) with
      | reduce _ found _ _ _ =>
          rw [unknown] at found
          cases found

theorem moves_or_halts (k : Config) :
    (∃ move k', c.Moves k move k') ∨ ∃ move, c.Halts k move :=
  moves_or_halts_of_not_faults (built.not_faults k)

theorem pop_of_reduce {t n : Nat} {p : Production} (stacked : c.Stacked st γ)
    (offers : c.Offers (topState st) t (.reduce n)) (found : c.grammar.prod? n = some p) :
    ∃ δ s, γ = δ ++ p.rhs ∧ c.Stacked (st.drop p.rhs.length) δ ∧
      c.automaton.transition (topState (st.drop p.rhs.length)) (.nonterminal p.head) = some s := by
  cases offers with
  | @reduce n q items positive found' state complete follow =>
      obtain rfl : p = q := Option.some.inj (found.symm.trans found')
      have valid := built.valid_of_stacked stacked state complete
      obtain ⟨_, δ, split, before⟩ := valid.eq_append_take found
      rw [List.take_length] at split
      subst split
      have below := stacked.drop
      obtain ⟨i, valid_i, await⟩ := before.awaited found positive
      obtain ⟨s, target⟩ := built.transition_of_valid below valid_i await
      exact ⟨δ, s, rfl, below, target⟩

theorem eq_start_of_accept {t : Nat} (stacked : c.Stacked st γ)
    (offers : c.Offers (topState st) t .accept) :
    γ = [.nonterminal start] ∧ t = c.grammar.eof := by
  cases offers with
  | @accept items state complete eof =>
      have valid := built.valid_of_stacked stacked state complete
      exact ⟨(Valid.accepting_iff built.augmented).1 valid, eof⟩

end Built

end ShiftReduce.Construction
