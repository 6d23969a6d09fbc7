import Mathlib.Data.Finset.Powerset
import ShiftReduce.Automaton
import ShiftReduce.Proofs.Automaton.Closure

/-!
The exploration of states comes to an end with every kernel expanded: kernels are listed once, they
are sets of items of the grammar, and there are no more of those than the exploration has steps for
(`exists_explored`). What follows from it is all that later modules use of the automaton: its state
0 (`states_zero`), where a transition leads (`state_of_transition`), when there is one
(`exists_transition`), and that none leads back to state 0 (`transition_ne_zero`).
-/

namespace ShiftReduce.Automaton

open ItemSet (moved)

variable {g : Grammar}

def rowOf (kernels : List ItemSet) (items : List MarkedItem) (xs : List Symbol) : Transitions :=
  xs.filterMap fun x =>
    if (moved x items).isEmpty then none else some (x, kernels.idxOf (moved x items))

theorem lookup_rowOf {kernels : List ItemSet} {items : List MarkedItem} {xs : List Symbol}
    {x : Symbol} :
    (rowOf kernels items xs).lookup x =
      if x ∈ xs ∧ (moved x items).isEmpty = false then some (kernels.idxOf (moved x items))
      else none := by
  induction xs with
  | nil => simp [rowOf]
  | cons y ys ih =>
      rw [rowOf] at ih ⊢
      rw [List.filterMap_cons]
      by_cases same : x = y
      · subst same
        cases empty : (moved x items).isEmpty <;> simp [empty, ih]
      · have other : (x == y) = false := by simpa using same
        cases empty : (moved y items).isEmpty <;> simp [List.lookup_cons, other, ih, same]

theorem rowOf_of_subset {kernels final : List ItemSet} {items : List MarkedItem} {xs : List Symbol}
    (le : kernels <+: final)
    (known : ∀ x ∈ xs, (moved x items).isEmpty = false → moved x items ∈ kernels) :
    rowOf final items xs = rowOf kernels items xs := by
  obtain ⟨more, rfl⟩ := le
  refine List.filterMap_congr fun x hx => ?_
  split
  · rfl
  · rename_i some_item
    rw [List.idxOf_append_of_mem (known x hx (by simpa using some_item))]

def enlist (kernels : List ItemSet) (k : ItemSet) : List ItemSet :=
  if kernels.idxOf k < kernels.length then kernels else kernels ++ [k]

theorem enlist_of_mem {kernels : List ItemSet} {k : ItemSet} (h : k ∈ kernels) :
    enlist kernels k = kernels :=
  if_pos (List.idxOf_lt_length_iff.2 h)

theorem enlist_of_not_mem {kernels : List ItemSet} {k : ItemSet} (h : k ∉ kernels) :
    enlist kernels k = kernels ++ [k] :=
  if_neg (mt List.idxOf_lt_length_iff.1 h)

theorem le_enlist (kernels : List ItemSet) (k : ItemSet) : kernels <+: enlist kernels k := by
  by_cases h : k ∈ kernels
  · rw [enlist_of_mem h]
  · rw [enlist_of_not_mem h]
    exact List.prefix_append _ _

theorem mem_enlist {kernels : List ItemSet} {k l : ItemSet} :
    l ∈ enlist kernels k ↔ l ∈ kernels ∨ l = k := by
  by_cases h : k ∈ kernels
  · rw [enlist_of_mem h]
    exact ⟨.inl, fun hl => hl.elim id fun same => same ▸ h⟩
  · simp [enlist_of_not_mem h]

theorem nodup_enlist {kernels : List ItemSet} {k : ItemSet} (nodup : kernels.Nodup) :
    (enlist kernels k).Nodup := by
  by_cases h : k ∈ kernels
  · rwa [enlist_of_mem h]
  · rw [enlist_of_not_mem h, ← List.concat_eq_append]
    exact nodup.concat h

structure Extends (items : List MarkedItem) (xs : List Symbol) (kernels final : List ItemSet) :
    Prop where
  le : kernels <+: final
  nodup : kernels.Nodup → final.Nodup
  origin : ∀ k ∈ final, k ∈ kernels ∨ ∃ x ∈ xs, (moved x items).isEmpty = false ∧ k = moved x items
  complete : ∀ x ∈ xs, (moved x items).isEmpty = false → moved x items ∈ final

theorem successors_cons_of_isEmpty {items : List MarkedItem} {x : Symbol} {xs : List Symbol}
    {kernels : List ItemSet} (h : (moved x items).isEmpty) :
    successors items (x :: xs) kernels = successors items xs kernels := by
  simp [successors, h]

theorem successors_cons {items : List MarkedItem} {x : Symbol} {xs : List Symbol}
    {kernels : List ItemSet} (h : (moved x items).isEmpty = false) :
    successors items (x :: xs) kernels =
      ((successors items xs (enlist kernels (moved x items))).1,
        (x, kernels.idxOf (moved x items)) ::
          (successors items xs (enlist kernels (moved x items))).2) := by
  simp [successors, h, enlist]

theorem extends_successors (items : List MarkedItem) (xs : List Symbol) (kernels : List ItemSet) :
    Extends items xs kernels (successors items xs kernels).1 := by
  induction xs generalizing kernels with
  | nil => exact ⟨List.prefix_rfl, id, fun k hk => .inl hk, by simp⟩
  | cons x xs ih =>
      cases empty : (moved x items).isEmpty with
      | true =>
          rw [successors_cons_of_isEmpty empty]
          have rest := ih kernels
          refine ⟨rest.le, rest.nodup, fun k hk => ?_, fun y hy some_item => ?_⟩
          · refine (rest.origin k hk).imp_right fun ⟨y, hy, found⟩ => ?_
            exact ⟨y, List.mem_cons_of_mem _ hy, found⟩
          · cases List.mem_cons.1 hy with
            | inl same =>
                rw [same, empty] at some_item
                cases some_item
            | inr hy => exact rest.complete y hy some_item
      | false =>
          rw [successors_cons empty]
          have rest := ih (enlist kernels (moved x items))
          refine ⟨(le_enlist _ _).trans rest.le, fun nodup => rest.nodup (nodup_enlist nodup),
            fun k hk => ?_, fun y hy some_item => ?_⟩
          · cases rest.origin k hk with
            | inl known =>
                refine (mem_enlist.1 known).imp_right fun same => ?_
                exact ⟨x, List.mem_cons_self, empty, same⟩
            | inr found =>
                obtain ⟨y, hy, found⟩ := found
                exact .inr ⟨y, List.mem_cons_of_mem _ hy, found⟩
          · cases List.mem_cons.1 hy with
            | inl same =>
                rw [same]
                exact rest.le.subset (mem_enlist.2 (.inr rfl))
            | inr hy => exact rest.complete y hy some_item

theorem Extends.getElem?_of_lt {items : List MarkedItem} {xs : List Symbol}
    {kernels final : List ItemSet} (more : Extends items xs kernels final) {j : Nat}
    (known : j < kernels.length) : final[j]? = kernels[j]? := by
  obtain ⟨new, rfl⟩ := more.le
  rw [List.getElem?_append_left known]

theorem Extends.origin_of_le {items : List MarkedItem} {xs : List Symbol}
    {kernels final : List ItemSet} (more : Extends items xs kernels final)
    (nodup : kernels.Nodup) {j : Nat} {k : ItemSet} (new : kernels.length ≤ j)
    (hk : final[j]? = some k) :
    ∃ x ∈ xs, (moved x items).isEmpty = false ∧ k = moved x items := by
  refine (more.origin k (List.mem_of_getElem? hk)).resolve_left fun known => ?_
  obtain ⟨i, hi, same⟩ := List.getElem_of_mem known
  have again : final[i]? = some k := by
    rw [more.getElem?_of_lt hi, List.getElem?_eq_getElem hi, same]
  have twice := eq_of_getElem?_eq_some (more.nodup nodup) again hk
  omega

theorem successors_snd (items : List MarkedItem) (xs : List Symbol) (kernels : List ItemSet) :
    (successors items xs kernels).2 = rowOf (successors items xs kernels).1 items xs := by
  induction xs generalizing kernels with
  | nil => rfl
  | cons x xs ih =>
      cases empty : (moved x items).isEmpty with
      | true =>
          rw [successors_cons_of_isEmpty empty, ih]
          simp [rowOf, empty]
      | false =>
          have grown := (extends_successors items xs (enlist kernels (moved x items))).le
          have number : (successors items xs (enlist kernels (moved x items))).1.idxOf
              (moved x items) = kernels.idxOf (moved x items) := by
            obtain ⟨more, final⟩ := grown
            rw [← final, List.idxOf_append_of_mem (mem_enlist.2 (.inr rfl))]
            by_cases known : moved x items ∈ kernels
            · rw [enlist_of_mem known]
            · rw [enlist_of_not_mem known, List.idxOf_append_of_notMem known,
                List.idxOf_eq_length known]
              simp
          rw [successors_cons empty, ih]
          simp [rowOf, empty, number]

/-- An automaton in the making: all its states have been expanded, and the kernels are listed that
have been met on the way. -/
structure Explored (g : Grammar) (kernels : List ItemSet) (a : Automaton) : Prop where
  nodup : kernels.Nodup
  first : kernels[0]? = some (.singleton ⟨0, 0⟩)
  states_eq : a.states = (kernels.take a.states.length).map (ItemSet.closure g)
  edges_eq : a.edges = a.states.map fun items => rowOf kernels (items.marked g) g.symbols
  origin : ∀ j k, kernels[j + 1]? = some k →
    ∃ i ≤ j, ∃ items x, a.states[i]? = some items ∧ x ∈ g.symbols ∧
      (moved x (items.marked g)).isEmpty = false ∧ k = moved x (items.marked g)
  complete : ∀ items ∈ a.states, ∀ x ∈ g.symbols, (moved x (items.marked g)).isEmpty = false →
    moved x (items.marked g) ∈ kernels

theorem explored_nil (g : Grammar) : Explored g [.singleton ⟨0, 0⟩] ⟨[], []⟩ where
  nodup := List.nodup_singleton _
  first := rfl
  states_eq := rfl
  edges_eq := rfl
  origin := by simp
  complete := by simp

theorem Explored.length_le {kernels : List ItemSet} {a : Automaton} (h : Explored g kernels a) :
    a.states.length ≤ kernels.length := by
  have lengths := congrArg List.length h.states_eq
  rw [List.length_map, List.length_take] at lengths
  omega

theorem Explored.expand {kernels : List ItemSet} {a : Automaton} (h : Explored g kernels a)
    {kernel : ItemSet} (next : kernels[a.states.length]? = some kernel) :
    Explored g (successors ((kernel.closure g).marked g) g.symbols kernels).1
      ⟨a.states ++ [kernel.closure g],
        a.edges ++ [(successors ((kernel.closure g).marked g) g.symbols kernels).2]⟩ := by
  have more := extends_successors ((kernel.closure g).marked g) g.symbols kernels
  have bound : a.states.length < kernels.length := (List.getElem?_eq_some_iff.1 next).1
  refine ⟨more.nodup h.nodup, ?_, ?_, ?_, fun j k hk => ?_, fun items hitems x hx some_item => ?_⟩
  · rw [more.getElem?_of_lt (Nat.zero_lt_of_lt bound), h.first]
  · obtain ⟨new, final⟩ := more.le
    rw [List.length_append, List.length_singleton, List.take_add_one, more.getElem?_of_lt bound,
      next, ← final, List.take_append_of_le_length bound.le, List.map_append, ← h.states_eq]
    rfl
  · have older : a.states.map (fun items => rowOf kernels (items.marked g) g.symbols) =
        a.states.map fun items => rowOf (successors ((kernel.closure g).marked g) g.symbols
          kernels).1 (items.marked g) g.symbols := by
      refine List.map_congr_left fun items hitems => ?_
      exact (rowOf_of_subset more.le (h.complete items hitems)).symm
    rw [List.map_append, successors_snd, h.edges_eq, older]
    rfl
  · by_cases hj : j + 1 < kernels.length
    · rw [more.getElem?_of_lt hj] at hk
      obtain ⟨i, hi, items, x, state, found⟩ := h.origin j k hk
      have inside := (List.getElem?_eq_some_iff.1 state).1
      exact ⟨i, hi, items, x, by rw [List.getElem?_append_left inside, state], found⟩
    · obtain ⟨x, found⟩ := more.origin_of_le h.nodup (Nat.le_of_not_lt hj) hk
      exact ⟨a.states.length, by omega, kernel.closure g, x, by simp, found⟩
  · cases List.mem_append.1 hitems with
    | inl hitems => exact more.le.subset (h.complete items hitems x hx some_item)
    | inr last =>
        rw [List.mem_singleton.1 last] at some_item ⊢
        exact more.complete x hx some_item

def allItems (g : Grammar) : List Item :=
  g.prods.toList.zipIdx.flatMap fun (p, n) => (List.range (p.rhs.length + 1)).map (Item.mk n)

theorem length_allItems (g : Grammar) : (allItems g).length = itemCount g := by
  have lengths : (fun (q : Production × Nat) =>
      ((List.range (q.1.rhs.length + 1)).map (Item.mk q.2)).length) =
      (fun p => p.rhs.length + 1) ∘ Prod.fst := by
    funext q
    simp
  rw [allItems, List.length_flatMap, lengths, ← List.map_map, List.zipIdx_map_fst,
    List.sum_eq_foldr, List.foldr_map, itemCount]

theorem mem_allItems {i : Item} (h : i.InRange g) : i ∈ allItems g := by
  obtain ⟨p, found, bound⟩ := h
  refine List.mem_flatMap.2 ⟨(p, i.prod), ?_, ?_⟩
  · rw [List.mem_zipIdx_iff_getElem?, Array.getElem?_toList]
    exact found
  · exact List.mem_map.2 ⟨i.dot, List.mem_range.2 (Nat.lt_succ_of_le bound), rfl⟩

theorem Explored.inRange {kernels : List ItemSet} {a : Automaton} (h : Explored g kernels a)
    {p : Production} (first : g.prod? 0 = some p) :
    ∀ k ∈ kernels, ∀ i ∈ k, i.InRange g := by
  intro k hk i hi
  obtain ⟨j, hj⟩ := List.getElem?_of_mem hk
  cases j with
  | zero =>
      rw [h.first] at hj
      cases hj
      rw [OrderedSet.mem_singleton.1 hi]
      exact Item.inRange_start first
  | succ j =>
      obtain ⟨_, _, items, x, _, _, _, rfl⟩ := h.origin j k hj
      exact ItemSet.inRange_moved i hi

theorem Explored.length_le_two_pow {kernels : List ItemSet} {a : Automaton}
    (h : Explored g kernels a) {p : Production} (first : g.prod? 0 = some p) :
    kernels.length ≤ 2 ^ itemCount g := by
  let members (k : ItemSet) : Finset Item := k.toList.toFinset
  have injective : Function.Injective members := by
    intro k l same
    refine OrderedSet.eq_of_mem_iff fun i => ?_
    have both : i ∈ members k ↔ i ∈ members l := by rw [same]
    simpa [members, OrderedSet.mem_def] using both
  have inside : (kernels.map members).toFinset ⊆ (allItems g).toFinset.powerset := by
    intro m hm
    obtain ⟨k, hk, rfl⟩ := List.mem_map.1 (List.mem_toFinset.1 hm)
    refine Finset.mem_powerset.2 fun i hi => List.mem_toFinset.2 (mem_allItems ?_)
    exact h.inRange first k hk i (List.mem_toFinset.1 hi)
  calc
    kernels.length = (kernels.map members).toFinset.card := by
      rw [List.toFinset_card_of_nodup (h.nodup.map injective), List.length_map]
    _ ≤ (allItems g).toFinset.powerset.card := Finset.card_le_card inside
    _ = 2 ^ (allItems g).toFinset.card := Finset.card_powerset _
    _ ≤ 2 ^ itemCount g := by
      apply Nat.pow_le_pow_right Nat.zero_lt_two
      exact (List.toFinset_card_le _).trans (length_allItems g).le

theorem explore_induction {P : List ItemSet → Automaton → Prop} {p : Production}
    (first : g.prod? 0 = some p)
    (step : ∀ kernels a kernel, Explored g kernels a → kernels[a.states.length]? = some kernel →
      P kernels a → P (successors ((kernel.closure g).marked g) g.symbols kernels).1
        ⟨a.states ++ [kernel.closure g],
          a.edges ++ [(successors ((kernel.closure g).marked g) g.symbols kernels).2]⟩)
    {n : Nat} {kernels : List ItemSet} {a : Automaton} (h : Explored g kernels a)
    (begins : P kernels a) (enough : 2 ^ itemCount g ≤ a.states.length + n) :
    ∃ final, Explored g final (explore g n kernels a) ∧ P final (explore g n kernels a) ∧
      (explore g n kernels a).states.length = final.length := by
  induction n generalizing kernels a with
  | zero =>
      have most := h.length_le_two_pow first
      have least := h.length_le
      exact ⟨kernels, h, begins, by rw [explore]; omega⟩
  | succ n ih =>
      rw [explore]
      split
      · rename_i none_left
        have all := List.getElem?_eq_none_iff.1 none_left
        exact ⟨kernels, h, begins, le_antisymm h.length_le all⟩
      · rename_i kernel next
        refine ih (h.expand next) (step kernels a kernel h next begins) ?_
        rw [List.length_append, List.length_singleton]
        omega

/-- The limit on states is never what ends the exploration. -/
theorem exists_explored {p : Production} (first : g.prod? 0 = some p) :
    ∃ kernels, Explored g kernels (ofGrammar g) ∧ (ofGrammar g).states.length = kernels.length := by
  obtain ⟨kernels, explored, _, full⟩ := explore_induction (P := fun _ _ => True) first
    (fun _ _ _ _ _ _ => trivial) (explored_nil g) trivial (Nat.le_add_left _ _)
  exact ⟨kernels, explored, full⟩

section

variable {a : Automaton} {kernels : List ItemSet} {s j : Nat} {x : Symbol} {items : ItemSet}

theorem Explored.states_eq_map (h : Explored g kernels a)
    (full : a.states.length = kernels.length) : a.states = kernels.map (ItemSet.closure g) := by
  have states := h.states_eq
  rwa [full, List.take_length] at states

theorem Explored.transition_eq_some_iff (h : Explored g kernels a) :
    a.transition s x = some j ↔
      ∃ items, a.states[s]? = some items ∧ x ∈ g.symbols ∧
        (moved x (items.marked g)).isEmpty = false ∧
        kernels[j]? = some (moved x (items.marked g)) := by
  rw [transition, transitions, row?, h.edges_eq, List.getElem?_map]
  cases state : a.states[s]? with
  | none => simp
  | some items =>
      simp only [Option.map_some, Option.getD_some, lookup_rowOf, Option.some.injEq,
        exists_eq_left']
      by_cases found : x ∈ g.symbols ∧ (moved x (items.marked g)).isEmpty = false
      · have known := h.complete items (List.mem_of_getElem? state) x found.1 found.2
        have bound := List.idxOf_lt_length_iff.2 known
        have there : kernels[kernels.idxOf (moved x (items.marked g))]? =
            some (moved x (items.marked g)) := by
          rw [List.getElem?_eq_getElem bound, List.getElem_idxOf bound]
        rw [if_pos found, Option.some.injEq]
        apply Iff.intro
        · intro same
          exact ⟨found.1, found.2, same ▸ there⟩
        · intro ⟨_, _, here⟩
          exact eq_of_getElem?_eq_some h.nodup there here
      · rw [if_neg found]
        apply Iff.intro
        · intro impossible
          cases impossible
        · intro ⟨mem, some_item, _⟩
          exact absurd ⟨mem, some_item⟩ found

variable {p : Production} (first : g.prod? 0 = some p)

include first

theorem states_zero :
    (ofGrammar g).states[0]? = some (ItemSet.closure g (.singleton ⟨0, 0⟩)) := by
  obtain ⟨kernels, h, full⟩ := exists_explored first
  rw [h.states_eq_map full, List.getElem?_map, h.first]
  rfl

theorem exists_eq_closure (state : (ofGrammar g).states[s]? = some items) :
    ∃ kernel, items = ItemSet.closure g kernel := by
  obtain ⟨kernels, h, full⟩ := exists_explored first
  rw [h.states_eq_map full, List.getElem?_map, Option.map_eq_some_iff] at state
  obtain ⟨kernel, _, same⟩ := state
  exact ⟨kernel, same.symm⟩

theorem state_of_transition (h : (ofGrammar g).transition s x = some j) :
    ∃ items, (ofGrammar g).states[s]? = some items ∧ (∃ i ∈ items, i.next? g = some x) ∧
      (ofGrammar g).states[j]? = some (items.goto g x) := by
  obtain ⟨kernels, explored, full⟩ := exists_explored first
  obtain ⟨items, state, _, some_item, kernel⟩ := explored.transition_eq_some_iff.1 h
  refine ⟨items, state, ItemSet.isEmpty_moved_eq_false.1 some_item, ?_⟩
  rw [explored.states_eq_map full, List.getElem?_map, kernel]
  rfl

theorem exists_transition (wf : g.WellFormed) (state : (ofGrammar g).states[s]? = some items)
    {i : Item} (hi : i ∈ items) (here : i.next? g = some x) :
    ∃ j, (ofGrammar g).transition s x = some j := by
  obtain ⟨kernels, explored, _⟩ := exists_explored first
  have mem := Item.next?_mem_symbols wf here
  have some_item := ItemSet.isEmpty_moved_eq_false.2 ⟨i, hi, here⟩
  have known := explored.complete items (List.mem_of_getElem? state) x mem some_item
  obtain ⟨j, hj⟩ := List.getElem?_of_mem known
  exact ⟨j, explored.transition_eq_some_iff.2 ⟨items, state, mem, some_item, hj⟩⟩

theorem transition_ne_zero : (ofGrammar g).transition s x ≠ some 0 := by
  intro back
  obtain ⟨kernels, explored, _⟩ := exists_explored first
  obtain ⟨items, _, _, _, kernel⟩ := explored.transition_eq_some_iff.1 back
  rw [explored.first, Option.some.injEq] at kernel
  have mem : (⟨0, 0⟩ : Item) ∈ moved x (items.marked g) := by
    rw [← kernel]
    exact OrderedSet.mem_singleton.2 rfl
  obtain ⟨i, _, _, here⟩ := ItemSet.mem_moved.1 mem
  exact Nat.succ_ne_zero _ (congrArg Item.dot here)

end

end ShiftReduce.Automaton
