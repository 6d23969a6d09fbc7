import ShiftReduce.Proofs.Automaton.Canonical

/-!
Symbols that lead to a state. Closures add items with the dot in front only, so the items of a state
that have been moved are those that the last transition moved, and that transition can be read off
each of them (`exists_accessing`). With them the state is given, up to what closure adds
(`eq_closure_kernel`).
-/

namespace ShiftReduce

variable {g : Grammar} {items before seed : ItemSet} {i : Item} {x : Symbol} {s j : Nat}

namespace Item

def previous? (g : Grammar) (i : Item) : Option Symbol :=
  match i.dot with
  | 0 => none
  | d + 1 => (g.prod? i.prod).bind fun p => p.rhs[d]?

theorem previous?_advance (g : Grammar) (i : Item) : i.advance.previous? g = i.next? g := rfl

end Item

namespace ItemSet

/-- What remains of a state when everything is left out that closure can add: the items with the dot
moved, and the first item in the first state. -/
def kernel (s : Nat) (items : ItemSet) : ItemSet :=
  .ofList (items.toList.filter fun i => i.dot ≠ 0 ∨ s = 0 ∧ i = ⟨0, 0⟩)

theorem mem_kernel : i ∈ items.kernel s ↔ i ∈ items ∧ (i.dot ≠ 0 ∨ s = 0 ∧ i = ⟨0, 0⟩) := by
  rw [kernel, OrderedSet.mem_ofList, List.mem_filter, OrderedSet.mem_def, decide_eq_true_eq]

theorem kernel_closure (moved : ∀ i ∈ seed, i.dot ≠ 0 ∨ s = 0 ∧ i = ⟨0, 0⟩)
    (first : s = 0 → ⟨0, 0⟩ ∈ seed) : (closure g seed).kernel s = seed := by
  refine OrderedSet.eq_of_mem_iff fun i => ?_
  rw [mem_kernel]
  apply Iff.intro
  · rintro ⟨hi, dot | ⟨zero, rfl⟩⟩
    · exact mem_of_mem_closure hi dot
    · exact first zero
  · exact fun hi => ⟨subset_closure hi, moved i hi⟩

theorem kernel_goto : (before.goto g x).kernel (s + 1) = moved x (before.marked g) := by
  refine kernel_closure (fun i hi => ?_) fun zero => absurd zero (Nat.succ_ne_zero s)
  obtain ⟨j, _, _, rfl⟩ := mem_moved.1 hi
  exact .inl (Nat.succ_ne_zero j.dot)

theorem kernel_first :
    (closure g (.singleton ⟨0, 0⟩)).kernel 0 = OrderedSet.singleton (⟨0, 0⟩ : Item) :=
  kernel_closure (fun _ hi => .inr ⟨rfl, OrderedSet.mem_singleton.1 hi⟩)
    fun _ => OrderedSet.mem_singleton.2 rfl

theorem previous?_of_mem_goto (hi : i ∈ before.goto g x) (dot : i.dot ≠ 0) :
    i.previous? g = some x := by
  obtain ⟨j, _, next, rfl⟩ := mem_moved.1 (mem_of_mem_closure hi dot)
  rwa [Item.previous?_advance]

theorem exists_moved_of_next? (hi : i ∈ before) (next : i.next? g = some x) :
    ∃ j ∈ before.goto g x, j.dot ≠ 0 :=
  ⟨i.advance, subset_closure (mem_moved.2 ⟨i, hi, next, rfl⟩), Nat.succ_ne_zero i.dot⟩

end ItemSet

namespace Automaton

open ItemSet (closure)

section

variable {p : Production} (first : g.prod? 0 = some p)

include first

theorem mem_transitions_iff :
    (x, j) ∈ (ofGrammar g).transitions s ↔ (ofGrammar g).transition s x = some j :=
  (increasing_transitions first s).mem_iff_lookup

theorem previous?_of_mem_transitions (state : (ofGrammar g).states[j]? = some items)
    (hi : i ∈ items) (dot : i.dot ≠ 0) (edge : (x, j) ∈ (ofGrammar g).transitions s) :
    i.previous? g = some x := by
  obtain ⟨before, _, _, there⟩ := state_of_transition first ((mem_transitions_iff first).1 edge)
  obtain rfl : items = before.goto g x := Option.some.inj (state.symm.trans there)
  exact ItemSet.previous?_of_mem_goto hi dot

theorem exists_accessing (state : (ofGrammar g).states[j]? = some items) (later : j ≠ 0) :
    ∃ x, (∃ s, (x, j) ∈ (ofGrammar g).transitions s) ∧
      (∀ s y, (y, j) ∈ (ofGrammar g).transitions s → y = x) ∧
      (∀ i ∈ items, i.dot ≠ 0 → i.previous? g = some x) ∧ ∃ i ∈ items, i.dot ≠ 0 := by
  obtain ⟨k, rfl⟩ := Nat.exists_eq_succ_of_ne_zero later
  obtain ⟨r, _, before, x, _, earlier, target, rfl⟩ := exists_transition_to first state
  obtain ⟨before', earlier', ⟨i, hi, next⟩, _⟩ := state_of_transition first target
  obtain rfl : before = before' := Option.some.inj (earlier.symm.trans earlier')
  -- One moved item is enough to compare the symbols of all other transitions with.
  obtain ⟨m, hm, dot⟩ := ItemSet.exists_moved_of_next? hi next
  have passed := ItemSet.previous?_of_mem_goto hm dot
  refine ⟨x, ⟨r, (mem_transitions_iff first).2 target⟩, fun s y edge => ?_,
    fun i hi => ItemSet.previous?_of_mem_goto hi, m, hm, dot⟩
  rw [previous?_of_mem_transitions first state hm dot edge] at passed
  exact Option.some.inj passed

theorem eq_closure_kernel (state : (ofGrammar g).states[j]? = some items) :
    items = closure g (items.kernel j) := by
  refine states_induction first (P := fun j items => items = closure g (items.kernel j)) ?_ ?_ state
  · rw [ItemSet.kernel_first]
  · intro r s before x _ _ target
    have later : s ≠ 0 := fun zero => transition_ne_zero first (zero ▸ target)
    obtain ⟨k, rfl⟩ := Nat.exists_eq_succ_of_ne_zero later
    rw [ItemSet.kernel_goto, ItemSet.goto]

end

/-- Every state but the first is entered over one symbol only, and its kernel says what it holds. -/
structure Accessible (g : Grammar) (a : Automaton) : Prop where
  never_first : ∀ s x, (x, 0) ∉ a.transitions s
  accessing : ∀ j items, j ≠ 0 → a.states[j]? = some items →
    ∃ x, (∃ s, (x, j) ∈ a.transitions s) ∧ (∀ s y, (y, j) ∈ a.transitions s → y = x) ∧
      (∀ i ∈ items, i.dot ≠ 0 → i.previous? g = some x) ∧ ∃ i ∈ items, i.dot ≠ 0
  eq_closure_kernel : ∀ j items, a.states[j]? = some items → items = closure g (items.kernel j)
  eq_of_kernel_eq : ∀ (j k : Nat) (items items' : ItemSet), a.states[j]? = some items →
    a.states[k]? = some items' → items.kernel j = items'.kernel k → j = k

theorem accessible_ofGrammar {p : Production} (first : g.prod? 0 = some p) :
    Accessible g (ofGrammar g) where
  never_first _ _ edge := transition_ne_zero first ((mem_transitions_iff first).1 edge)
  accessing _ _ later state := exists_accessing first state later
  eq_closure_kernel _ _ state := eq_closure_kernel first state
  eq_of_kernel_eq j k items items' state state' same := by
    have equal : items = items' := by
      rw [eq_closure_kernel first state, eq_closure_kernel first state', same]
    exact eq_of_getElem?_eq_some (nodup_states first) state (equal ▸ state')

theorem accessible_ofText {text : String} (read : Grammar.ofText text = .ok g) :
    Accessible g.augment (ofGrammar g.augment) :=
  accessible_ofGrammar (Grammar.augmented_of_plain (Grammar.plain_of_ofText read)).first

/-- The state behind `a` is entered from the first one and from itself. -/
def rightRecursive : Grammar where
  nonterms := .ofList ["S"]
  terms := .ofList ["a", "b"]
  start := 0
  prods := #[⟨0, [.terminal 0, .nonterminal 0]⟩, ⟨0, [.terminal 1]⟩]
  augmented := false

theorem read_rightRecursive : Grammar.ofText "S -> a S | b" = .ok rightRecursive := by
  decide +kernel

theorem accessible_rightRecursive :
    Accessible rightRecursive.augment (ofGrammar rightRecursive.augment) ∧
    (ofGrammar rightRecursive.augment).edges =
      [[(.nonterminal 1, 1), (.terminal 0, 2), (.terminal 1, 3)], [],
        [(.nonterminal 1, 4), (.terminal 0, 2), (.terminal 1, 3)], [], []] ∧
    (ofGrammar rightRecursive.augment).states[2]?.map OrderedSet.toList =
      some [⟨1, 0⟩, ⟨1, 1⟩, ⟨2, 0⟩] :=
  ⟨accessible_ofText read_rightRecursive, by decide +kernel, by decide +kernel⟩

end Automaton

end ShiftReduce
