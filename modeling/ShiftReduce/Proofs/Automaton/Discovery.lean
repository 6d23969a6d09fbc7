import ShiftReduce.Proofs.Automaton.Accessing
import ShiftReduce.Proofs.Numbering.Discovery

/-!
The numbers of the states. While states are expanded, the kernels that have been listed are the
first one and, by first occurrence, those that the expanded states lead to (`enlisted_ofGrammar`);
so the targets of all rows, written one after the other, first show the numbers in increasing order
(`firstOccurrences_targets`). No other numbering of the same states does so (`InOrder.unique`), and
no state is nearer to the first one than those in front of it (`InOrder.nearest`).
-/

namespace ShiftReduce.Automaton

open ItemSet (moved closure)

variable {g : Grammar} {a b : Automaton} {items : ItemSet} {x : Symbol}

def leads (items : List MarkedItem) (xs : List Symbol) : List ItemSet :=
  (xs.map fun x => moved x items).filter fun kernel => !kernel.isEmpty

theorem mem_leads {marked : List MarkedItem} {xs : List Symbol} {kernel : ItemSet} :
    kernel ∈ leads marked xs ↔
      ∃ x ∈ xs, (moved x marked).isEmpty = false ∧ kernel = moved x marked := by
  simp only [leads, List.mem_filter, List.mem_map, Bool.not_eq_true']
  apply Iff.intro
  · rintro ⟨⟨x, hx, rfl⟩, some_item⟩
    exact ⟨x, hx, some_item, rfl⟩
  · rintro ⟨x, hx, some_item, rfl⟩
    exact ⟨⟨x, hx, rfl⟩, some_item⟩

theorem successors_fst (marked : List MarkedItem) (xs : List Symbol) (kernels : List ItemSet) :
    (successors marked xs kernels).1 = (leads marked xs).foldl enlist kernels := by
  induction xs generalizing kernels with
  | nil => rfl
  | cons x xs ih =>
      cases empty : (moved x marked).isEmpty with
      | true =>
          rw [successors_cons_of_isEmpty empty, ih]
          simp [leads, empty]
      | false =>
          rw [successors_cons empty, ih]
          simp [leads, empty]

theorem map_snd_rowOf (kernels : List ItemSet) (marked : List MarkedItem) (xs : List Symbol) :
    (rowOf kernels marked xs).map Prod.snd = (leads marked xs).map kernels.idxOf := by
  induction xs with
  | nil => rfl
  | cons x xs ih =>
      rw [rowOf, leads] at ih ⊢
      cases empty : (moved x marked).isEmpty <;> simp [empty, ih]

theorem enlist_cons {first kernel : ItemSet} (other : kernel ≠ first) (kernels : List ItemSet) :
    enlist (first :: kernels) kernel = first :: enlist kernels kernel := by
  by_cases known : kernel ∈ kernels
  · rw [enlist_of_mem known, enlist_of_mem (List.mem_cons_of_mem first known)]
  · have unknown := List.not_mem_cons_of_ne_of_not_mem other known
    rw [enlist_of_not_mem known, enlist_of_not_mem unknown, List.cons_append]

theorem foldl_enlist_cons {first : ItemSet} {new : List ItemSet} (other : first ∉ new)
    (kernels : List ItemSet) :
    new.foldl enlist (first :: kernels) = first :: new.foldl enlist kernels := by
  induction new generalizing kernels with
  | nil => rfl
  | cons kernel new ih =>
      obtain ⟨apart, rest⟩ := not_or.1 (mt List.mem_cons.2 other)
      rw [List.foldl_cons, List.foldl_cons, enlist_cons (Ne.symm apart), ih rest]

theorem firstOccurrences_foldl_enlist {met kernels : List ItemSet}
    (h : FirstOccurrences met kernels) (new : List ItemSet) :
    FirstOccurrences (met ++ new) (new.foldl enlist kernels) := by
  induction new generalizing met kernels with
  | nil => simpa using h
  | cons kernel new ih =>
      rw [List.foldl_cons, List.append_cons]
      refine ih ?_
      by_cases known : kernel ∈ kernels
      · rw [enlist_of_mem known]
        exact h.concat_of_mem known
      · rw [enlist_of_not_mem known]
        exact h.concat_of_not_mem known

/-- Behind the first kernel, those that the expanded states lead to are listed as they were met. -/
def Enlisted (g : Grammar) (kernels : List ItemSet) (a : Automaton) : Prop :=
  ∃ behind, kernels = .singleton ⟨0, 0⟩ :: behind ∧
    FirstOccurrences (a.states.flatMap fun items => leads (items.marked g) g.symbols) behind

theorem first_not_mem_leads {xs : List Symbol} :
    OrderedSet.singleton (⟨0, 0⟩ : Item) ∉ leads (items.marked g) xs := by
  intro mem
  obtain ⟨x, _, _, same⟩ := mem_leads.1 mem
  have first : (⟨0, 0⟩ : Item) ∈ moved x (items.marked g) :=
    same ▸ OrderedSet.mem_singleton.2 rfl
  obtain ⟨i, _, _, here⟩ := ItemSet.mem_moved.1 first
  exact Nat.succ_ne_zero _ (congrArg Item.dot here)

theorem Enlisted.expand {kernels : List ItemSet} (h : Enlisted g kernels a) (kernel : ItemSet)
    (row : Transitions) :
    Enlisted g (successors ((kernel.closure g).marked g) g.symbols kernels).1
      ⟨a.states ++ [kernel.closure g], a.edges ++ [row]⟩ := by
  obtain ⟨behind, rfl, met⟩ := h
  refine ⟨(leads ((kernel.closure g).marked g) g.symbols).foldl enlist behind, ?_, ?_⟩
  · rw [successors_fst, foldl_enlist_cons first_not_mem_leads]
  · rw [List.flatMap_append, List.flatMap_singleton]
    exact firstOccurrences_foldl_enlist met _

theorem enlisted_ofGrammar {p : Production} (first : g.prod? 0 = some p) :
    ∃ kernels, Explored g kernels (ofGrammar g) ∧ Enlisted g kernels (ofGrammar g) ∧
      (ofGrammar g).states.length = kernels.length :=
  explore_induction first (fun _ _ kernel _ _ enlisted => enlisted.expand kernel _) (explored_nil g)
    ⟨[], rfl, fun _ => Iff.rfl, .nil⟩ (Nat.le_add_left _ _)

def targets (a : Automaton) : List Nat := a.edges.flatMap fun row => row.map Prod.snd

theorem map_idxOf_eq_range' {first : ItemSet} {behind : List ItemSet}
    (nodup : (first :: behind).Nodup) :
    behind.map (first :: behind).idxOf = List.range' 1 behind.length := by
  refine List.ext_getElem (by simp) fun i h _ => ?_
  rw [List.length_map] at h
  have place := nodup.idxOf_getElem (i + 1) (Nat.succ_lt_succ h)
  rw [List.getElem_cons_succ] at place
  rw [List.getElem_map, place, List.getElem_range']
  omega

theorem firstOccurrences_targets {p : Production} (first : g.prod? 0 = some p) :
    FirstOccurrences (targets (ofGrammar g)) (List.range' 1 ((ofGrammar g).size - 1)) := by
  obtain ⟨kernels, explored, ⟨behind, rfl, met⟩, full⟩ := enlisted_ofGrammar first
  have numbers := met.map (f := (OrderedSet.singleton ⟨0, 0⟩ :: behind).idxOf) ?_
  · have targets_eq : targets (ofGrammar g) =
        ((ofGrammar g).states.flatMap fun items => leads (items.marked g) g.symbols).map
          (OrderedSet.singleton ⟨0, 0⟩ :: behind).idxOf := by
      rw [targets, explored.edges_eq, List.flatMap_map, List.map_flatMap]
      exact List.flatMap_congr fun items _ => map_snd_rowOf _ _ _
    rw [map_idxOf_eq_range' explored.nodup] at numbers
    rwa [targets_eq, size, full, List.length_cons, Nat.add_sub_cancel]
  · intro k hk l hl same
    have known := List.mem_cons_of_mem (.singleton ⟨0, 0⟩) ((met.mem_iff k).2 hk)
    exact (List.idxOf_inj known).1 same

def gotos (g : Grammar) (items : ItemSet) : List ItemSet :=
  (g.symbols.filter fun x => !(items.goto g x).isEmpty).map (items.goto g)

theorem mem_gotos {target : ItemSet} :
    target ∈ gotos g items ↔ ∃ x ∈ g.symbols, items.goto g x ≠ ∅ ∧ target = items.goto g x := by
  simp only [gotos, List.mem_map, List.mem_filter, Bool.not_eq_true', Bool.eq_false_iff, ne_eq,
    OrderedSet.isEmpty_iff]
  apply Iff.intro
  · rintro ⟨x, ⟨hx, some_item⟩, rfl⟩
    exact ⟨x, hx, some_item, rfl⟩
  · rintro ⟨x, hx, some_item, rfl⟩
    exact ⟨x, ⟨hx, some_item⟩, rfl⟩

def itemsAt (a : Automaton) (s : Nat) : ItemSet := a.states[s]?.getD ∅

theorem itemsAt_eq {s : Nat} (state : a.states[s]? = some items) : a.itemsAt s = items := by
  rw [itemsAt, state, Option.getD_some]

theorem exists_state {s : Nat} (inside : s < a.size) : ∃ items, a.states[s]? = some items :=
  ⟨_, List.getElem?_eq_getElem inside⟩

theorem states_eq_map_itemsAt (a : Automaton) : a.states = (List.range a.size).map a.itemsAt := by
  refine List.ext_getElem (by simp [size]) fun s inside _ => ?_
  simp [itemsAt, inside]

theorem tail_states_eq (a : Automaton) :
    a.states.tail = (List.range' 1 (a.size - 1)).map a.itemsAt := by
  refine List.ext_getElem (by simp [size]) fun s inside _ => ?_
  rw [List.length_tail] at inside
  have bound : 1 + s < a.states.length := by omega
  simp [itemsAt, bound, Nat.add_comm s 1]

namespace Canonical

variable (canonical : Canonical g a) (wf : g.WellFormed)

include canonical

theorem increasing_transitions (s : Nat) : Increasing (a.transitions s) := by
  rw [transitions, row?]
  cases found : a.edges[s]? with
  | none => exact .nil
  | some row => exact canonical.increasing row (List.mem_of_getElem? found)

theorem mem_transitions_iff {s j : Nat} (state : a.states[s]? = some items) :
    (x, j) ∈ a.transitions s ↔ items.goto g x ≠ ∅ ∧ a.states[j]? = some (items.goto g x) := by
  rw [(canonical.increasing_transitions s).mem_iff_lookup]
  exact canonical.transition_eq_some_iff s items state x j

theorem exists_mem_transitions {s : Nat} (state : a.states[s]? = some items)
    (some_item : items.goto g x ≠ ∅) : ∃ j, (x, j) ∈ a.transitions s := by
  have there := mt (canonical.transition_eq_none_iff s items state x).1 some_item
  obtain ⟨j, target⟩ := Option.ne_none_iff_exists'.1 there
  exact ⟨j, (canonical.increasing_transitions s).mem_iff_lookup.2 target⟩

theorem transitions_eq_nil {s : Nat} (beyond : a.states[s]? = none) : a.transitions s = [] := by
  rw [List.getElem?_eq_none_iff, ← canonical.length_eq] at beyond
  rw [transitions, row?, List.getElem?_eq_none_iff.2 beyond, Option.getD_none]

theorem edges_eq : a.edges = (List.range a.size).map a.transitions := by
  refine List.ext_getElem (by simp [size, canonical.length_eq]) fun s inside _ => ?_
  simp [transitions, row?, inside]

include wf in
theorem map_fst_transitions {s : Nat} (state : a.states[s]? = some items) :
    (a.transitions s).map Prod.fst =
      g.symbols.filter fun x => !(items.goto g x).isEmpty := by
  refine OrderedSet.eq_of_sorted ?_ (g.sorted_symbols.sublist List.filter_sublist) fun x => ?_
  · exact List.pairwise_map.2 (canonical.increasing_transitions s)
  · rw [List.mem_filter, Bool.not_eq_true', Bool.eq_false_iff, ne_eq, OrderedSet.isEmpty_iff]
    apply Iff.intro
    · intro mem
      obtain ⟨⟨_, j⟩, edge, rfl⟩ := List.mem_map.1 mem
      obtain ⟨some_item, _⟩ := (canonical.mem_transitions_iff state).1 edge
      obtain ⟨i, _, next⟩ := ItemSet.goto_ne_empty_iff.1 some_item
      exact ⟨Item.next?_mem_symbols wf next, some_item⟩
    · intro ⟨_, some_item⟩
      obtain ⟨j, edge⟩ := canonical.exists_mem_transitions state some_item
      exact List.mem_map.2 ⟨(x, j), edge, rfl⟩

include wf in
theorem map_fst_sublist {row : Transitions} (mem : row ∈ a.edges) :
    (row.map Prod.fst).Sublist g.symbols := by
  rw [canonical.edges_eq] at mem
  obtain ⟨s, inside, rfl⟩ := List.mem_map.1 mem
  obtain ⟨items, state⟩ := exists_state (List.mem_range.1 inside)
  rw [canonical.map_fst_transitions wf state]
  exact List.filter_sublist

include wf in
theorem map_targets_row {s : Nat} (state : a.states[s]? = some items) :
    ((a.transitions s).map Prod.snd).map a.itemsAt = gotos g items := by
  calc
    ((a.transitions s).map Prod.snd).map a.itemsAt
    _ = ((a.transitions s).map Prod.fst).map (items.goto g) := by
      rw [List.map_map, List.map_map]
      refine List.map_congr_left fun ⟨x, j⟩ edge => ?_
      obtain ⟨_, there⟩ := (canonical.mem_transitions_iff state).1 edge
      exact itemsAt_eq there
    _ = gotos g items := by rw [canonical.map_fst_transitions wf state, gotos]

include wf in
theorem map_targets : (targets a).map a.itemsAt = a.states.flatMap (gotos g) := by
  rw [targets, canonical.edges_eq, List.flatMap_map, List.map_flatMap, states_eq_map_itemsAt a,
    List.flatMap_map]
  refine List.flatMap_congr fun s inside => ?_
  obtain ⟨items, state⟩ := exists_state (List.mem_range.1 inside)
  rw [canonical.map_targets_row wf state, itemsAt_eq state]

theorem itemsAt_inj {i j : Nat} (inside_i : i < a.size) (inside_j : j < a.size)
    (same : a.itemsAt i = a.itemsAt j) : i = j := by
  obtain ⟨items, state⟩ := exists_state inside_i
  obtain ⟨others, state'⟩ := exists_state inside_j
  rw [itemsAt_eq state, itemsAt_eq state'] at same
  exact eq_of_getElem?_eq_some canonical.nodup state (same ▸ state')

theorem exists_state_of_transition {s j : Nat} (target : a.transition s x = some j) :
    ∃ items, a.states[s]? = some items := by
  cases state : a.states[s]? with
  | none =>
      rw [transition, canonical.transitions_eq_nil state] at target
      cases target
  | some items => exact ⟨items, rfl⟩

theorem eq_of_states_eq (other : Canonical g b) (same : b.states = a.states) : b = a := by
  have rows : ∀ s, b.transitions s = a.transitions s := by
    intro s
    cases state : a.states[s]? with
    | none => rw [canonical.transitions_eq_nil state, other.transitions_eq_nil (same ▸ state)]
    | some items =>
        let Before (e f : Symbol × Nat) : Prop := e.1 < f.1
        have : Std.Irrefl Before := ⟨fun e => StrictOrder.irrefl e.1⟩
        have : Std.Antisymm Before :=
          ⟨fun e f lt lt' => absurd (StrictOrder.trans lt lt') (StrictOrder.irrefl e.1)⟩
        refine List.Pairwise.eq_of_mem_iff (r := Before) (other.increasing_transitions s)
          (canonical.increasing_transitions s) fun ⟨x, j⟩ => ?_
        rw [other.mem_transitions_iff (same ▸ state), canonical.mem_transitions_iff state, same]
  have edges : b.edges = a.edges := by
    rw [other.edges_eq, canonical.edges_eq, size, size, same]
    exact List.map_congr_left fun s _ => rows s
  cases a
  cases b
  simp_all

end Canonical

/-- The targets of all rows, one after the other, first show the numbers in increasing order, and
each of them in a row in front of its state. -/
structure InOrder (g : Grammar) (a : Automaton) : Prop extends Canonical g a where
  order : FirstOccurrences (targets a) (List.range' 1 (a.size - 1))
  earlier : ∀ j, 0 < j → j < a.size → ∃ i < j, (∃ x, (x, j) ∈ a.transitions i) ∧
    ∀ r < i, ∀ x, (x, j) ∉ a.transitions r

namespace InOrder

variable (wf : g.WellFormed)

include wf

theorem discovered (h : InOrder g a) : Discovered (gotos g) a.states where
  order := by
    rw [← h.map_targets wf, tail_states_eq]
    refine h.order.map fun i hi j hj same => ?_
    rw [← h.order.mem_iff, List.mem_range'_1] at hi hj
    exact h.itemsAt_inj (by omega) (by omega) same
  earlier n items state := by
    have inside := (List.getElem?_eq_some_iff.1 state).1
    obtain ⟨i, lt, ⟨x, edge⟩, _⟩ := h.earlier (n + 1) (Nat.succ_pos n) inside
    obtain ⟨before, state'⟩ := exists_state (lt.trans inside)
    obtain ⟨some_item, there⟩ := (h.mem_transitions_iff state').1 edge
    obtain ⟨k, _, next⟩ := ItemSet.goto_ne_empty_iff.1 some_item
    refine List.mem_flatMap.2 ⟨before, ?_, ?_⟩
    · exact List.mem_of_getElem? ((List.getElem?_take_of_lt lt).trans state')
    · exact mem_gotos.2 ⟨x, Item.next?_mem_symbols wf next, some_item,
        Option.some.inj (state.symm.trans there)⟩

theorem exists_transition_of_le (h : InOrder g a) {i j r : Nat} (le : i ≤ j)
    (target : a.transition r x = some (j + 1)) :
    ∃ p y, p ≤ r ∧ a.transition p y = some (i + 1) := by
  obtain ⟨items, state⟩ := h.exists_state_of_transition target
  obtain ⟨some_item, there⟩ := (h.transition_eq_some_iff r items state x _).1 target
  obtain ⟨k, _, next⟩ := ItemSet.goto_ne_empty_iff.1 some_item
  have inside := (List.getElem?_eq_some_iff.1 there).1
  obtain ⟨others, here⟩ := exists_state (a := a) (s := i + 1) (by rw [size]; omega)
  have met : items.goto g x ∈ (a.states.take (r + 1)).flatMap (gotos g) := by
    refine List.mem_flatMap.2 ⟨items, ?_, ?_⟩
    · exact List.mem_of_getElem? ((List.getElem?_take_of_lt (Nat.lt_succ_self r)).trans state)
    · exact mem_gotos.2 ⟨x, Item.next?_mem_symbols wf next, some_item, rfl⟩
  have earlier := (h.discovered wf).exists_earlier le here there met
  obtain ⟨before, mem, goto⟩ := List.mem_flatMap.1 earlier
  obtain ⟨y, _, some_item', rfl⟩ := mem_gotos.1 goto
  obtain ⟨p, state'⟩ := List.getElem?_of_mem mem
  rw [List.getElem?_take] at state'
  split at state'
  · rename_i within
    exact ⟨p, y, Nat.le_of_lt_succ within,
      (h.transition_eq_some_iff p before state' y _).2 ⟨some_item', here⟩⟩
  · cases state'

theorem unique (h : InOrder g a) (other : InOrder g b) : b = a := by
  refine h.eq_of_states_eq other.toCanonical ?_
  exact (other.discovered wf).unique (h.discovered wf) (other.first.trans h.first.symm)

theorem nearest (h : InOrder g a) {γ : List Symbol} {i j : Nat} (walk : a.walk 0 γ = some j)
    (le : i ≤ j) : ∃ δ, δ.length ≤ γ.length ∧ a.walk 0 δ = some i := by
  induction γ using List.reverseRecOn generalizing i j with
  | nil =>
      cases walk
      obtain rfl := Nat.le_zero.1 le
      exact ⟨[], Nat.le_refl _, rfl⟩
  | append_singleton γ x ih =>
      cases i with
      | zero => exact ⟨[], Nat.zero_le _, rfl⟩
      | succ i =>
          obtain ⟨j, rfl⟩ : ∃ k, j = k + 1 := ⟨j - 1, by omega⟩
          rw [walk_concat, Option.bind_eq_some_iff] at walk
          obtain ⟨r, before, target⟩ := walk
          -- the state is met in a row that is no later than the one the walk comes from
          obtain ⟨p, y, within, target'⟩ := h.exists_transition_of_le wf (Nat.le_of_succ_le_succ le)
            target
          obtain ⟨δ, short, walk'⟩ := ih before within
          refine ⟨δ ++ [y], by simpa using short, ?_⟩
          rw [walk_concat, walk', Option.bind_some, target']

end InOrder

section

variable {p : Production} (first : g.prod? 0 = some p)

include first

theorem exists_first_row {j : Nat} (later : 0 < j) (inside : j < (ofGrammar g).size) :
    ∃ i < j, (∃ x, (x, j) ∈ (ofGrammar g).transitions i) ∧
      ∀ r < i, ∀ x, (x, j) ∉ (ofGrammar g).transitions r := by
  classical
  obtain ⟨s, rfl⟩ : ∃ s, j = s + 1 := ⟨j - 1, by omega⟩
  obtain ⟨items, state⟩ := exists_state inside
  obtain ⟨r, le, _, x, _, _, target, _⟩ := exists_transition_to first state
  have met : ∃ i, ∃ x, (x, s + 1) ∈ (ofGrammar g).transitions i :=
    ⟨r, x, (mem_transitions_iff first).2 target⟩
  refine ⟨Nat.find met, ?_, Nat.find_spec met, fun i lt x edge => Nat.find_min met lt ⟨x, edge⟩⟩
  exact Nat.lt_succ_of_le ((Nat.find_le ⟨x, (mem_transitions_iff first).2 target⟩).trans le)

theorem inOrder_ofGrammar (wf : g.WellFormed) : InOrder g (ofGrammar g) where
  toCanonical := canonical_ofGrammar wf first
  order := firstOccurrences_targets first
  earlier _ later inside := exists_first_row first later inside

end

/-- The numbers of the states are those of a search in breadth that tries the symbols in order. -/
structure BreadthFirst (g : Grammar) (a : Automaton) : Prop extends InOrder g a where
  rows : ∀ row ∈ a.edges, (row.map Prod.fst).Sublist g.symbols
  nearest : ∀ γ i j, a.walk 0 γ = some j → i ≤ j →
    ∃ δ, δ.length ≤ γ.length ∧ a.walk 0 δ = some i
  unique : ∀ b, InOrder g b → b = a

theorem breadthFirst_ofText {text : String} (read : Grammar.ofText text = .ok g) :
    BreadthFirst g.augment (ofGrammar g.augment) := by
  have augmented := Grammar.augmented_of_plain (Grammar.plain_of_ofText read)
  have wf := augmented.toWellFormed
  have in_order := inOrder_ofGrammar augmented.first wf
  exact {
    toInOrder := in_order
    rows := fun row mem => in_order.map_fst_sublist wf mem
    nearest := fun γ i j walk le => in_order.nearest wf walk le
    unique := fun b other => in_order.unique wf other }

theorem breadthFirst_rightRecursive :
    BreadthFirst rightRecursive.augment (ofGrammar rightRecursive.augment) ∧
      targets (ofGrammar rightRecursive.augment) = [1, 2, 3, 4, 2, 3] :=
  ⟨breadthFirst_ofText read_rightRecursive, by decide +kernel⟩

end ShiftReduce.Automaton
