import Mathlib.Data.List.Induction
import ShiftReduce.Proofs.Automaton.Collection
import ShiftReduce.Proofs.Grammar.Augmentation

/-!
Viable prefixes. `Valid` says which items can be met once a string of symbols has been recognized,
without the automaton; following the automaton along the string leads to exactly these
(`valid_of_mem`, `reached_of_valid`). The dot of a valid item says which symbols the string ends
with (`Valid.eq_append_take`), and an item with its dot in front stands where its head was awaited
(`Valid.awaited`).
-/

namespace ShiftReduce

open ItemSet (closure moved)

variable {g : Grammar} {γ δ : List Symbol} {i : Item} {x : Symbol}

theorem Grammar.Augmented.next?_ne_start {s : Nat} (augmented : g.Augmented s) :
    i.next? g ≠ some (.nonterminal 0) := by
  intro await
  obtain ⟨q, found, here⟩ := Item.next?_eq_some_iff.1 await
  have mem := Grammar.mem_body_of_mem_rhs (List.mem_of_getElem? here)
  exact augmented.start_not_mem q (Grammar.mem_of_prod? found) mem

/-- The item can be met where `γ` has been recognized. -/
inductive Valid (g : Grammar) : List Symbol → Item → Prop
  | start : Valid g [] ⟨0, 0⟩
  | advance {γ : List Symbol} {i : Item} {x : Symbol} (valid : Valid g γ i)
      (here : i.next? g = some x) : Valid g (γ ++ [x]) i.advance
  | predict {γ : List Symbol} {i : Item} {n : Nat} {p : Production} (valid : Valid g γ i)
      (await : i.next? g = some (.nonterminal p.head)) (found : g.prod? n = some p) :
      Valid g γ ⟨n, 0⟩

namespace Valid

theorem advance_all {n : Nat} {p : Production} (valid : Valid g γ ⟨n, 0⟩)
    (found : g.prod? n = some p) {front behind : List Symbol} (split : p.rhs = front ++ behind) :
    Valid g (γ ++ front) ⟨n, front.length⟩ := by
  induction front using List.reverseRecOn generalizing behind with
  | nil => simpa using valid
  | append_singleton front x ih =>
      have here : (⟨n, front.length⟩ : Item).next? g = some x :=
        Item.next?_eq_some_iff.2 ⟨p, found, by simp [split]⟩
      have before : Valid g (γ ++ front) ⟨n, front.length⟩ := ih (by simpa using split)
      simpa [Item.advance] using before.advance here

theorem eq_append_take (valid : Valid g γ i) {p : Production} (found : g.prod? i.prod = some p) :
    i.dot ≤ p.rhs.length ∧ ∃ δ, γ = δ ++ p.rhs.take i.dot ∧ Valid g δ ⟨i.prod, 0⟩ := by
  induction valid with
  | start => exact ⟨Nat.zero_le _, [], by simp, .start⟩
  | @advance γ i x _ here ih =>
      obtain ⟨_, δ, rfl, before⟩ := ih found
      obtain ⟨q, found', at_dot⟩ := Item.next?_eq_some_iff.1 here
      obtain rfl : q = p := Option.some.inj (found'.symm.trans found)
      refine ⟨(List.getElem?_eq_some_iff.1 at_dot).1, δ, ?_, before⟩
      simp [Item.advance, List.take_add_one, at_dot]
  | predict valid await found' _ =>
      exact ⟨Nat.zero_le _, _, by simp, .predict valid await found'⟩

theorem awaited {n : Nat} {p : Production} (valid : Valid g γ ⟨n, 0⟩)
    (found : g.prod? n = some p) (positive : n ≠ 0) :
    ∃ i, Valid g γ i ∧ i.next? g = some (.nonterminal p.head) := by
  generalize same : (⟨n, 0⟩ : Item) = i at valid
  cases valid with
  | start => exact absurd (congrArg Item.prod same) positive
  | advance _ _ => exact absurd (congrArg Item.dot same).symm (Nat.succ_ne_zero _)
  | @predict _ i m q valid await found' =>
      cases same
      obtain rfl : q = p := Option.some.inj (found'.symm.trans found)
      exact ⟨i, valid, await⟩

theorem exists_next (valid : Valid g γ i) {left right : List Symbol}
    (split : γ = left ++ x :: right) : ∃ j, Valid g left j ∧ j.next? g = some x := by
  induction valid generalizing right with
  | start => simp at split
  | @advance γ i y valid here ih =>
      cases List.eq_nil_or_concat right with
      | inl last =>
          rw [last] at split
          obtain ⟨rfl, same⟩ := List.append_inj' split rfl
          cases same
          exact ⟨i, valid, here⟩
      | inr longer =>
          obtain ⟨right, z, rfl⟩ := longer
          have inside : γ ++ [y] = (left ++ x :: right) ++ [z] := by simpa using split
          exact ih (List.append_inj' inside rfl).1
  | predict _ _ _ ih => exact ih split

theorem eq_nil_of_first {s : Nat} (augmented : g.Augmented s) (valid : Valid g γ ⟨0, 0⟩) :
    γ = [] := by
  generalize same : (⟨0, 0⟩ : Item) = i at valid
  cases valid with
  | start => rfl
  | advance _ _ => exact absurd (congrArg Item.dot same).symm (Nat.succ_ne_zero _)
  | @predict _ i n p _ await found =>
      cases same
      rw [augmented.first] at found
      cases found
      exact absurd await augmented.next?_ne_start

theorem accepting_iff {s : Nat} (augmented : g.Augmented s) :
    Valid g γ ⟨0, 1⟩ ↔ γ = [.nonterminal s] := by
  apply Iff.intro
  · intro valid
    obtain ⟨_, δ, split, before⟩ := valid.eq_append_take augmented.first
    rw [before.eq_nil_of_first augmented] at split
    exact split
  · intro here
    rw [here]
    exact Valid.start.advance (Item.next?_eq_some_iff.2 ⟨_, augmented.first, rfl⟩)

end Valid

namespace Automaton

def walk (a : Automaton) (s : Nat) (γ : List Symbol) : Option Nat := γ.foldlM a.transition s

theorem walk_singleton {a : Automaton} {s : Nat} : a.walk s [x] = a.transition s x := by
  simp [walk]

theorem walk_concat {a : Automaton} {s : Nat} :
    a.walk s (γ ++ [x]) = (a.walk s γ).bind fun t => a.transition t x := by
  simp only [walk, List.foldlM_append, List.foldlM_cons, List.foldlM_nil, bind_pure]
  rfl

theorem valid_of_mem_closure {items : ItemSet} (h : ∀ i ∈ items, Valid g γ i) :
    ∀ i ∈ closure g items, Valid g γ i :=
  ItemSet.closure_induction h fun _ _ _ valid await found => valid.predict await found

variable {p : Production} (first : g.prod? 0 = some p)

include first

theorem exists_state_of_walk {s : Nat} (h : (ofGrammar g).walk 0 γ = some s) :
    ∃ items, (ofGrammar g).states[s]? = some items ∧ ∀ i ∈ items, Valid g γ i := by
  induction γ using List.reverseRecOn generalizing s with
  | nil =>
      cases h
      refine ⟨_, states_zero first, valid_of_mem_closure fun i hi => ?_⟩
      rw [OrderedSet.mem_singleton.1 hi]
      exact .start
  | append_singleton γ x ih =>
      rw [walk_concat, Option.bind_eq_some_iff] at h
      obtain ⟨t, before, last⟩ := h
      obtain ⟨items, state, valid⟩ := ih before
      obtain ⟨items', state', _, target⟩ := state_of_transition first last
      obtain rfl : items = items' := Option.some.inj (state.symm.trans state')
      refine ⟨_, target, valid_of_mem_closure fun i hi => ?_⟩
      obtain ⟨j, hj, here, rfl⟩ := ItemSet.mem_moved.1 hi
      exact (valid j hj).advance here

theorem valid_of_mem {s : Nat} (h : (ofGrammar g).walk 0 γ = some s) {items : ItemSet}
    (state : (ofGrammar g).states[s]? = some items) (hi : i ∈ items) : Valid g γ i := by
  obtain ⟨items', state', valid⟩ := exists_state_of_walk first h
  obtain rfl : items' = items := Option.some.inj (state'.symm.trans state)
  exact valid i hi

theorem exists_valid_of_walk {s : Nat} (h : (ofGrammar g).walk 0 γ = some s) :
    ∃ i, Valid g γ i := by
  cases List.eq_nil_or_concat' γ with
  | inl none_read =>
      rw [none_read]
      exact ⟨_, .start⟩
  | inr some_read =>
      obtain ⟨δ, x, rfl⟩ := some_read
      rw [walk_concat, Option.bind_eq_some_iff] at h
      obtain ⟨t, before, last⟩ := h
      obtain ⟨items, state, ⟨i, hi, here⟩, _⟩ := state_of_transition first last
      exact ⟨_, (valid_of_mem first before state hi).advance here⟩

theorem reached_of_valid (wf : g.WellFormed) (valid : Valid g γ i) :
    ∃ s items, (ofGrammar g).walk 0 γ = some s ∧ (ofGrammar g).states[s]? = some items ∧
      i ∈ items := by
  induction valid with
  | start =>
      refine ⟨0, _, rfl, states_zero first, ItemSet.subset_closure ?_⟩
      exact OrderedSet.mem_singleton.2 rfl
  | @advance γ i x _ here ih =>
      obtain ⟨s, items, before, state, hi⟩ := ih
      obtain ⟨t, last⟩ := exists_transition first wf state hi here
      obtain ⟨items', state', _, target⟩ := state_of_transition first last
      obtain rfl : items = items' := Option.some.inj (state.symm.trans state')
      refine ⟨t, _, ?_, target, ItemSet.subset_closure ?_⟩
      · rw [walk_concat, before, Option.bind_some, last]
      · exact ItemSet.mem_moved.2 ⟨i, hi, here, rfl⟩
  | @predict γ i n q _ await found ih =>
      obtain ⟨s, items, before, state, hi⟩ := ih
      obtain ⟨kernel, rfl⟩ := exists_eq_closure first state
      exact ⟨s, _, before, state, ItemSet.start_mem_closure hi await found⟩

end Automaton

end ShiftReduce
