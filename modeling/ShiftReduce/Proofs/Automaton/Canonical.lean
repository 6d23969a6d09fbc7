import ShiftReduce.Proofs.Automaton.Chain
import ShiftReduce.Proofs.Automaton.RowOrder

/-!
The automaton is the canonical collection. Its states are the nonempty sets that can be reached from
the first one by going over symbols, and no two of them are equal: a closure adds items with the dot
in front only, so the kernel can be read off it (`mem_of_mem_closure`), and kernels are listed once.
Its transitions are the goto function on these sets (`canonical_ofText`).
-/

namespace ShiftReduce

variable {g : Grammar} {items kernel other : ItemSet} {x : Symbol}

namespace ItemSet

theorem closure_closure (g : Grammar) (items : ItemSet) :
    closure g (closure g items) = closure g items := by
  refine OrderedSet.eq_of_mem_iff fun i => ⟨?_, subset_closure⟩
  exact closure_subset (expand_closure g items) (fun _ => id) i

theorem mem_of_mem_closure {i : Item} (hi : i ∈ closure g items) (moved : i.dot ≠ 0) :
    i ∈ items := by
  refine closure_induction (P := fun i => i.dot ≠ 0 → i ∈ items) (fun i hi _ => hi) ?_ i hi moved
  intro _ _ _ _ _ _ in_front
  exact absurd rfl in_front

theorem closure_eq_empty_iff : closure g items = ∅ ↔ items = ∅ := by
  apply Iff.intro
  · intro h
    refine OrderedSet.eq_of_mem_iff fun i => ⟨fun hi => ?_, fun hi => ?_⟩
    · exact h ▸ subset_closure hi
    · exact absurd hi (OrderedSet.not_mem_empty i)
  · intro h
    refine OrderedSet.eq_of_mem_iff fun i => ⟨fun hi => ?_, fun hi => ?_⟩
    · refine closure_induction (P := fun i => i ∈ (∅ : ItemSet)) (fun j hj => h ▸ hj) ?_ i hi
      exact fun j _ _ hj _ _ => absurd hj (OrderedSet.not_mem_empty j)
    · exact absurd hi (OrderedSet.not_mem_empty i)

theorem ne_empty_of_mem {i : Item} (h : i ∈ items) : items ≠ ∅ :=
  fun empty => OrderedSet.not_mem_empty i (empty ▸ h)

theorem goto_ne_empty_iff : items.goto g x ≠ ∅ ↔ ∃ i ∈ items, i.next? g = some x := by
  rw [goto, Ne, closure_eq_empty_iff, ← OrderedSet.isEmpty_iff, Bool.not_eq_true,
    isEmpty_moved_eq_false]

end ItemSet

namespace Automaton

open ItemSet (closure moved)

theorem Explored.kernel_cases {kernels : List ItemSet} {a : Automaton} (h : Explored g kernels a)
    (hk : kernel ∈ kernels) :
    kernel = .singleton ⟨0, 0⟩ ∨ (∃ i, i ∈ kernel) ∧ ∀ i ∈ kernel, i.dot ≠ 0 := by
  obtain ⟨j, hj⟩ := List.getElem?_of_mem hk
  cases j with
  | zero =>
      rw [h.first] at hj
      exact .inl (Option.some.inj hj).symm
  | succ j =>
      obtain ⟨_, _, items, x, _, _, some_item, rfl⟩ := h.origin j kernel hj
      refine .inr ⟨ItemSet.exists_mem_of_isEmpty_eq_false some_item, fun i hi => ?_⟩
      obtain ⟨_, _, _, rfl⟩ := ItemSet.mem_moved.1 hi
      exact Nat.succ_ne_zero _

theorem mem_kernel_of_closure_eq (same : closure g kernel = closure g other) {i : Item}
    (hi : i ∈ kernel) (moved : i.dot ≠ 0) : i ∈ other :=
  ItemSet.mem_of_mem_closure (same ▸ ItemSet.subset_closure hi) moved

theorem Explored.kernel_eq_of_closure_eq {kernels : List ItemSet} {a : Automaton}
    (h : Explored g kernels a) (hk : kernel ∈ kernels) (hl : other ∈ kernels)
    (same : closure g kernel = closure g other) : kernel = other := by
  -- The first kernel holds no item with a moved dot, and every other one does.
  have apart : ∀ k : ItemSet, (∃ i, i ∈ k) → (∀ i ∈ k, i.dot ≠ 0) →
      closure g k ≠ closure g (.singleton ⟨0, 0⟩) := by
    intro k ⟨i, hi⟩ moved eq_first
    have here := mem_kernel_of_closure_eq eq_first hi (moved i hi)
    exact moved i hi (congrArg Item.dot (OrderedSet.mem_singleton.1 here))
  rcases h.kernel_cases hk with rfl | ⟨some_k, moved_k⟩
  · rcases h.kernel_cases hl with rfl | ⟨some_l, moved_l⟩
    · rfl
    · exact absurd same.symm (apart other some_l moved_l)
  · rcases h.kernel_cases hl with rfl | ⟨_, moved_l⟩
    · exact absurd same (apart kernel some_k moved_k)
    · refine OrderedSet.eq_of_mem_iff fun i => ⟨fun hi => ?_, fun hi => ?_⟩
      · exact mem_kernel_of_closure_eq same hi (moved_k i hi)
      · exact mem_kernel_of_closure_eq same.symm hi (moved_l i hi)

inductive Reachable (g : Grammar) : ItemSet → Prop
  | first : Reachable g (closure g (.singleton ⟨0, 0⟩))
  | goto {items : ItemSet} {x : Symbol} (reachable : Reachable g items) (hx : x ∈ g.symbols) :
      Reachable g (items.goto g x)

section

variable {p : Production} (first : g.prod? 0 = some p)

include first

theorem nodup_states : (ofGrammar g).states.Nodup := by
  obtain ⟨kernels, explored, full⟩ := exists_explored first
  rw [explored.states_eq_map full]
  exact explored.nodup.map_on fun k hk l hl => explored.kernel_eq_of_closure_eq hk hl

theorem exists_transition_to {s : Nat} (state : (ofGrammar g).states[s + 1]? = some items) :
    ∃ r ≤ s, ∃ before, ∃ x ∈ g.symbols, (ofGrammar g).states[r]? = some before ∧
      (ofGrammar g).transition r x = some (s + 1) ∧ items = before.goto g x := by
  obtain ⟨kernels, explored, full⟩ := exists_explored first
  rw [explored.states_eq_map full, List.getElem?_map, Option.map_eq_some_iff] at state
  obtain ⟨kernel, listed, rfl⟩ := state
  obtain ⟨r, hr, before, x, state, hx, some_item, rfl⟩ := explored.origin s kernel listed
  exact ⟨r, hr, before, x, hx, state,
    explored.transition_eq_some_iff.2 ⟨before, state, hx, some_item, listed⟩, rfl⟩

theorem states_induction {P : Nat → ItemSet → Prop}
    (zero : P 0 (closure g (.singleton ⟨0, 0⟩)))
    (step : ∀ r s before x, P r before → x ∈ g.symbols → (ofGrammar g).transition r x = some s →
      P s (before.goto g x)) {s : Nat} (state : (ofGrammar g).states[s]? = some items) :
    P s items := by
  induction s using Nat.strongRecOn generalizing items with
  | ind s ih =>
      cases s with
      | zero =>
          rw [states_zero first, Option.some.injEq] at state
          exact state ▸ zero
      | succ s =>
          obtain ⟨r, hr, before, x, hx, earlier, target, rfl⟩ := exists_transition_to first state
          exact step r (s + 1) before x (ih r (Nat.lt_succ_of_le hr) earlier) hx target

theorem exists_walk {s : Nat} (state : (ofGrammar g).states[s]? = some items) :
    ∃ γ, (ofGrammar g).walk 0 γ = some s := by
  refine states_induction first (P := fun s _ => ∃ γ, (ofGrammar g).walk 0 γ = some s)
    ⟨[], rfl⟩ (fun r s _ x before _ target => ?_) state
  obtain ⟨γ, walk⟩ := before
  exact ⟨γ ++ [x], by rw [walk_concat, walk, Option.bind_some, target]⟩

theorem ne_empty_of_mem_states (h : items ∈ (ofGrammar g).states) : items ≠ ∅ := by
  obtain ⟨kernels, explored, full⟩ := exists_explored first
  rw [explored.states_eq_map full] at h
  obtain ⟨kernel, hk, rfl⟩ := List.mem_map.1 h
  rw [Ne, ItemSet.closure_eq_empty_iff]
  rcases explored.kernel_cases hk with rfl | ⟨⟨i, hi⟩, _⟩
  · exact ItemSet.ne_empty_of_mem (OrderedSet.mem_singleton.2 rfl)
  · exact ItemSet.ne_empty_of_mem hi

variable (wf : g.WellFormed)

include wf

theorem transition_eq_some_iff {s j : Nat} (state : (ofGrammar g).states[s]? = some items) :
    (ofGrammar g).transition s x = some j ↔
      items.goto g x ≠ ∅ ∧ (ofGrammar g).states[j]? = some (items.goto g x) := by
  apply Iff.intro
  · intro target
    obtain ⟨items', state', next, there⟩ := state_of_transition first target
    obtain rfl : items = items' := Option.some.inj (state.symm.trans state')
    exact ⟨ItemSet.goto_ne_empty_iff.2 next, there⟩
  · intro ⟨some_item, there⟩
    obtain ⟨i, hi, next⟩ := ItemSet.goto_ne_empty_iff.1 some_item
    obtain ⟨k, target⟩ := exists_transition first wf state hi next
    obtain ⟨items', state', _, there'⟩ := state_of_transition first target
    obtain rfl : items = items' := Option.some.inj (state.symm.trans state')
    obtain rfl : k = j := eq_of_getElem?_eq_some (nodup_states first) there' there
    exact target

theorem transition_eq_none_iff {s : Nat} (state : (ofGrammar g).states[s]? = some items) :
    (ofGrammar g).transition s x = none ↔ items.goto g x = ∅ := by
  apply Iff.intro
  · intro none_there
    by_contra some_item
    obtain ⟨i, hi, next⟩ := ItemSet.goto_ne_empty_iff.1 some_item
    obtain ⟨j, target⟩ := exists_transition first wf state hi next
    rw [none_there] at target
    cases target
  · intro empty
    by_contra some_there
    obtain ⟨j, target⟩ := Option.ne_none_iff_exists'.1 some_there
    exact ((transition_eq_some_iff first wf state).1 target).1 empty

theorem mem_states_iff : items ∈ (ofGrammar g).states ↔ Reachable g items ∧ items ≠ ∅ := by
  apply Iff.intro
  · intro h
    obtain ⟨s, state⟩ := List.getElem?_of_mem h
    refine ⟨?_, ne_empty_of_mem_states first h⟩
    exact states_induction first (P := fun _ items => Reachable g items) .first
      (fun _ _ _ _ before hx _ => before.goto hx) state
  · intro ⟨reachable, some_item⟩
    induction reachable with
    | first => exact List.mem_of_getElem? (states_zero first)
    | @goto before x _ hx ih =>
        obtain ⟨i, hi, next⟩ := ItemSet.goto_ne_empty_iff.1 some_item
        obtain ⟨s, state⟩ := List.getElem?_of_mem (ih (ItemSet.ne_empty_of_mem hi))
        obtain ⟨j, target⟩ := exists_transition first wf state hi next
        exact List.mem_of_getElem? ((transition_eq_some_iff first wf state).1 target).2

end

/-- The states are the reachable sets of items but the empty one, each of them once, and every row
is the goto function on one of them, in the order of the symbols. -/
structure Canonical (g : Grammar) (a : Automaton) : Prop where
  first : a.states[0]? = some (closure g (.singleton ⟨0, 0⟩))
  mem_states_iff : ∀ items, items ∈ a.states ↔ Reachable g items ∧ items ≠ ∅
  nodup : a.states.Nodup
  closed : ∀ items ∈ a.states, closure g items = items
  length_eq : a.edges.length = a.states.length
  increasing : ∀ row ∈ a.edges, Increasing row
  transition_eq_some_iff : ∀ s items, a.states[s]? = some items → ∀ x j,
    a.transition s x = some j ↔ items.goto g x ≠ ∅ ∧ a.states[j]? = some (items.goto g x)
  transition_eq_none_iff : ∀ s items, a.states[s]? = some items → ∀ x,
    a.transition s x = none ↔ items.goto g x = ∅
  search_eq : ∀ s x, search x (a.transitions s) = a.transition s x

theorem canonical_ofGrammar (wf : g.WellFormed) {p : Production} (first : g.prod? 0 = some p) :
    Canonical g (ofGrammar g) where
  first := states_zero first
  mem_states_iff _ := Automaton.mem_states_iff first wf
  nodup := nodup_states first
  closed items hitems := by
    obtain ⟨s, state⟩ := List.getElem?_of_mem hitems
    obtain ⟨kernel, rfl⟩ := exists_eq_closure first state
    exact ItemSet.closure_closure g kernel
  length_eq := by
    obtain ⟨kernels, explored, _⟩ := exists_explored first
    rw [explored.edges_eq, List.length_map]
  increasing := increasing_of_mem_edges first
  transition_eq_some_iff _ _ state _ _ := Automaton.transition_eq_some_iff first wf state
  transition_eq_none_iff _ _ state _ := Automaton.transition_eq_none_iff first wf state
  search_eq s _ := search_eq_lookup (increasing_transitions first s)

theorem canonical_ofText {text : String} (read : Grammar.ofText text = .ok g) :
    Canonical g.augment (ofGrammar g.augment) :=
  have augmented := Grammar.augmented_of_plain (Grammar.plain_of_ofText read)
  canonical_ofGrammar augmented.toWellFormed augmented.first

theorem canonical_leftRecursive :
    Canonical leftRecursive.augment (ofGrammar leftRecursive.augment) ∧
      ∀ items, Reachable leftRecursive.augment items ∧ items ≠ ∅ ↔
        items.toList ∈ [[⟨0, 0⟩, ⟨1, 0⟩, ⟨2, 0⟩], [⟨0, 1⟩, ⟨1, 1⟩], [⟨1, 2⟩]] := by
  have canonical := canonical_ofText read_leftRecursive
  have listed : (ofGrammar leftRecursive.augment).states.map OrderedSet.toList =
      [[⟨0, 0⟩, ⟨1, 0⟩, ⟨2, 0⟩], [⟨0, 1⟩, ⟨1, 1⟩], [⟨1, 2⟩]] := by
    decide +kernel
  refine ⟨canonical, fun items => ?_⟩
  rw [← canonical.mem_states_iff, ← listed]
  apply Iff.intro
  · exact List.mem_map_of_mem
  · intro mem
    obtain ⟨other, state, same⟩ := List.mem_map.1 mem
    have equal : other = items :=
      OrderedSet.eq_of_mem_iff fun i => by rw [OrderedSet.mem_def, same, OrderedSet.mem_def]
    exact equal ▸ state

end Automaton

end ShiftReduce
