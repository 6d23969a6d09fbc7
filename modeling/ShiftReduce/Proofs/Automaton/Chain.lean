import ShiftReduce.Proofs.Automaton.ViablePrefix

/-!
Valid items in terms of productions alone. A chain goes from production 0 to a production of a
nonterminal in its right-hand side, and so on; an item is valid for the symbols that stand in front
of these nonterminals, followed by those in front of its own dot (`valid_iff_validFor`). So the
automaton reads exactly the strings in front of the dots that chains lead to, and the state it gets
to holds exactly the items with these dots.
-/

namespace ShiftReduce

variable {g : Grammar} {γ : List Symbol} {i : Item}

/-- Production `n` is reached from production 0 by going from a nonterminal in a right-hand side to
a production of it, and `γ` are the symbols in front of the nonterminals on the way. -/
inductive Chain (g : Grammar) : List Symbol → Nat → Prop
  | first : Chain g [] 0
  | next {γ front behind : List Symbol} {n m : Nat} {p q : Production} (chain : Chain g γ n)
      (found : g.prod? n = some p) (occurs : p.rhs = front ++ .nonterminal q.head :: behind)
      (found' : g.prod? m = some q) : Chain g (γ ++ front) m

/-- The symbols in front of the dot stand behind those in front of a chain. -/
def Item.ValidFor (g : Grammar) (γ : List Symbol) (i : Item) : Prop :=
  ∃ δ p, Chain g δ i.prod ∧ g.prod? i.prod = some p ∧ i.dot ≤ p.rhs.length ∧
    γ = δ ++ p.rhs.take i.dot

theorem Valid.validFor {p : Production} (first : g.prod? 0 = some p) (valid : Valid g γ i) :
    i.ValidFor g γ := by
  induction valid with
  | start => exact ⟨[], p, .first, first, Nat.zero_le _, by simp⟩
  | @advance γ i x _ here ih =>
      obtain ⟨δ, q, chain, found, _, rfl⟩ := ih
      obtain ⟨q', found', at_dot⟩ := Item.next?_eq_some_iff.1 here
      obtain rfl : q = q' := Option.some.inj (found.symm.trans found')
      refine ⟨δ, q, chain, found, (List.getElem?_eq_some_iff.1 at_dot).1, ?_⟩
      simp [Item.advance, List.take_add_one, at_dot]
  | @predict γ i n q _ await found' ih =>
      obtain ⟨δ, r, chain, found, _, rfl⟩ := ih
      have occurs := List.take_append_drop i.dot r.rhs
      rw [Item.drop_eq_cons_of_next? await found] at occurs
      exact ⟨_, q, .next chain found occurs.symm found', found', Nat.zero_le _, by simp⟩

theorem Chain.valid {n : Nat} (chain : Chain g γ n) : Valid g γ ⟨n, 0⟩ := by
  induction chain with
  | first => exact .start
  | @next γ front behind n m p q _ found occurs found' ih =>
      have before := ih.advance_all found occurs
      exact before.predict (Item.next?_eq_some_iff.2 ⟨p, found, by simp [occurs]⟩) found'

theorem Item.ValidFor.valid (h : i.ValidFor g γ) : Valid g γ i := by
  obtain ⟨δ, p, chain, found, bound, rfl⟩ := h
  have moved := chain.valid.advance_all found (List.take_append_drop i.dot p.rhs).symm
  rwa [List.length_take_of_le bound] at moved

theorem valid_iff_validFor {p : Production} (first : g.prod? 0 = some p) :
    Valid g γ i ↔ i.ValidFor g γ :=
  ⟨Valid.validFor first, Item.ValidFor.valid⟩

namespace Automaton

theorem mem_iff_valid {s : Nat} {p : Production} (first : g.prod? 0 = some p) (wf : g.WellFormed)
    (h : (ofGrammar g).walk 0 γ = some s) :
    ∃ items, (ofGrammar g).states[s]? = some items ∧ ∀ i, i ∈ items ↔ Valid g γ i := by
  obtain ⟨items, state, valid⟩ := exists_state_of_walk first h
  refine ⟨items, state, fun i => ⟨valid i, fun hi => ?_⟩⟩
  obtain ⟨t, items', there, state', mem⟩ := reached_of_valid first wf hi
  obtain rfl : s = t := Option.some.inj (h.symm.trans there)
  obtain rfl : items = items' := Option.some.inj (state.symm.trans state')
  exact mem

theorem walk_iff_validFor {text : String} (read : Grammar.ofText text = .ok g) (γ : List Symbol) :
    ((∃ s, (ofGrammar g.augment).walk 0 γ = some s) ↔ ∃ i, Item.ValidFor g.augment γ i) ∧
      ∀ s, (ofGrammar g.augment).walk 0 γ = some s →
        ∃ items, (ofGrammar g.augment).states[s]? = some items ∧
          ∀ i, i ∈ items ↔ i.ValidFor g.augment γ := by
  have augmented := Grammar.augmented_of_plain (Grammar.plain_of_ofText read)
  simp only [← valid_iff_validFor augmented.first]
  refine ⟨⟨?_, ?_⟩, fun s => mem_iff_valid augmented.first augmented.toWellFormed⟩
  · intro ⟨s, h⟩
    exact exists_valid_of_walk augmented.first h
  · intro ⟨i, valid⟩
    obtain ⟨s, _, h, _⟩ := reached_of_valid augmented.first augmented.toWellFormed valid
    exact ⟨s, h⟩

def leftRecursive : Grammar where
  nonterms := .ofList ["L"]
  terms := .ofList ["a"]
  start := 0
  prods := #[⟨0, [.nonterminal 0, .terminal 0]⟩, ⟨0, [.empty]⟩]
  augmented := false

theorem read_leftRecursive : Grammar.ofText "L -> L a | ^" = .ok leftRecursive := by
  decide +kernel

theorem validFor_leftRecursive :
    (∀ i, Item.ValidFor leftRecursive.augment [.nonterminal 1] i ↔ i = ⟨0, 1⟩ ∨ i = ⟨1, 1⟩) ∧
      ¬ ∃ i, Item.ValidFor leftRecursive.augment [.terminal 0] i := by
  apply And.intro
  · have walk : (ofGrammar leftRecursive.augment).walk 0 [.nonterminal 1] = some 1 := by
      decide +kernel
    have listed : (ofGrammar leftRecursive.augment).states[1]?.map OrderedSet.toList =
        some [⟨0, 1⟩, ⟨1, 1⟩] := by
      decide +kernel
    obtain ⟨items, state, valid⟩ :=
      (walk_iff_validFor read_leftRecursive [.nonterminal 1]).2 1 walk
    rw [state, Option.map_some, Option.some.injEq] at listed
    intro i
    rw [← valid i, OrderedSet.mem_def, listed]
    simp
  · rw [← (walk_iff_validFor read_leftRecursive [.terminal 0]).1]
    intro ⟨s, walk⟩
    have none_read : (ofGrammar leftRecursive.augment).walk 0 [.terminal 0] = none := by
      decide +kernel
    rw [none_read] at walk
    cases walk

end Automaton

end ShiftReduce
