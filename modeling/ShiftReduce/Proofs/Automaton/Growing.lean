import ShiftReduce.Proofs.Automaton.ItemStack

/-!
The collection as one list that grows while it is walked along. A goto set is looked up as a whole
among the sets that have a number, and gets the next number if it has none; transitions go to the
end of the row of the state that is being expanded. States and rows are looked up by number with a
check. The walk comes to its end, for every set on the list is the closure of another kernel of the
grammar, and the list and the rows are then the states and edges of `ofGrammar` (`build?_eq`).
-/

namespace ShiftReduce.Automaton

open ItemSet (closure moved)

/-- The sets that have a number, the transitions found so far, and the numbers by set. -/
structure Draft where
  states : List ItemSet
  edges : List Transitions
  index : List (ItemSet × Nat)

namespace Draft

/-- The number of a set, which becomes the last state if it has none. -/
def number (d : Draft) (target : ItemSet) : Draft × Nat :=
  match d.index.lookup target with
  | some j => (d, j)
  | none =>
      ({ states := d.states ++ [target]
         edges := d.edges ++ [[]]
         index := d.index ++ [(target, d.states.length)] }, d.states.length)

def follow? (g : Grammar) (s : Nat) (d : Draft) (x : Symbol) : Part Draft := do
  let items ← Part.ofOption d.states[s]?
  let target ← items.goto? g x
  if target.isEmpty then return d
  else
    let (d, j) := d.number target
    let row ← Part.ofOption d.edges[s]?
    return { d with edges := d.edges.set s (row ++ [(x, j)]) }

def expand? (g : Grammar) : Nat × Draft →. Draft ⊕ (Nat × Draft)
  | (s, d) =>
      if s < d.states.length then do
        let d ← g.symbols.foldlM (follow? g s) d
        return .inr (s + 1, d)
      else return .inl d

def walk? (g : Grammar) : Nat × Draft →. Draft := (expand? g).fix

/-- What a draft looks like where some kernels are known and some rows have been begun. -/
def ofKernels (g : Grammar) (kernels : List ItemSet) (rows : List Transitions) : Draft where
  states := kernels.map (closure g)
  edges := rows ++ List.replicate (kernels.length - rows.length) []
  index := (kernels.map (closure g)).zipIdx

end Draft

def build? (g : Grammar) : Part Automaton := do
  let first ← ItemSet.closure? g (.singleton ⟨0, 0⟩)
  let d ← Draft.walk? g (0, ⟨[first], [[]], [(first, 0)]⟩)
  return ⟨d.states, d.edges⟩

theorem Explored.fits_closure {g : Grammar} {kernels : List ItemSet} {a : Automaton}
    (h : Explored g kernels a) {p : Production} (first : g.prod? 0 = some p) {k : ItemSet}
    (hk : k ∈ kernels) : (closure g k).fits g := by
  refine ItemSet.fits_closure (ItemSet.fits_iff.2 fun i hi => ?_)
  obtain ⟨_, found, _⟩ := h.inRange first k hk i hi
  exact (Array.getElem?_eq_some_iff.1 found).1

theorem lookup_zipIdx_map {α β : Type} [DecidableEq α] [DecidableEq β] {f : α → β} {l : List α}
    {a : α} (injective : ∀ b ∈ l, f b = f a → b = a) (n : Nat) :
    ((l.map f).zipIdx n).lookup (f a) = if a ∈ l then some (l.idxOf a + n) else none := by
  induction l generalizing n with
  | nil => rfl
  | cons b l ih =>
      have rest := ih (fun c hc => injective c (List.mem_cons_of_mem b hc)) (n + 1)
      rw [List.map_cons, List.zipIdx_cons, List.lookup_cons, rest]
      by_cases same : b = a
      · subst same
        simp
      · have apart : (f a == f b) = false := by
          rw [beq_eq_false_iff_ne]
          exact fun h => same (injective b List.mem_cons_self h.symm)
        have other : ¬ a = b := fun h => same h.symm
        simp only [apart, List.mem_cons, other, false_or, List.idxOf_cons_ne _ same]
        split
        · congr 1
          omega
        · rfl

namespace Draft

variable {g : Grammar} {kernels : List ItemSet} {kernel k : ItemSet} {rows front : List Transitions}
  {row : Transitions} {xs : List Symbol}

def Apart (g : Grammar) (kernels : List ItemSet) : Prop :=
  ∀ k ∈ kernels, ∀ l ∈ kernels, closure g k = closure g l → k = l

theorem number_closure (apart : Apart g (enlist kernels k)) (le : rows.length ≤ kernels.length) :
    (ofKernels g kernels rows).number (closure g k) =
      (ofKernels g (enlist kernels k) rows, kernels.idxOf k) := by
  have mem : k ∈ enlist kernels k := mem_enlist.2 (.inr rfl)
  have found := lookup_zipIdx_map (f := closure g) (l := kernels) (a := k)
    (fun l hl => apart l (mem_enlist.2 (.inl hl)) k mem) 0
  by_cases known : k ∈ kernels
  · rw [if_pos known] at found
    rw [number, ofKernels, found, enlist_of_mem known]
    rfl
  · rw [if_neg known] at found
    have more : kernels.length + 1 - rows.length = kernels.length - rows.length + 1 := by omega
    rw [number, ofKernels, found, enlist_of_not_mem known, List.idxOf_eq_length known]
    simp [ofKernels, List.zipIdx_append, more, List.replicate_succ']

section

variable (wf : g.WellFormed) (fits : (closure g kernel).fits g)
  (here : kernels[front.length]? = some kernel)

include wf fits here

theorem follow?_of_isEmpty {x : Symbol} (empty : (moved x ((closure g kernel).marked g)).isEmpty) :
    follow? g front.length (ofKernels g kernels rows) x = Part.some (ofKernels g kernels rows) := by
  have nothing : ((closure g kernel).goto g x).isEmpty := by
    rw [OrderedSet.isEmpty_iff] at empty ⊢
    exact ItemSet.closure_eq_empty_iff.2 empty
  have state : (ofKernels g kernels rows).states[front.length]? = some (closure g kernel) := by
    rw [ofKernels, List.getElem?_map, here]
    rfl
  simp only [follow?, state, ItemSet.goto?_eq wf fits, nothing, Part.coe_some, Part.bind_eq_bind,
    Part.bind_some, if_true]
  rfl

theorem follow?_of_not_isEmpty {x : Symbol}
    (some_item : (moved x ((closure g kernel).marked g)).isEmpty = false)
    (apart : Apart g (enlist kernels (moved x ((closure g kernel).marked g)))) :
    follow? g front.length (ofKernels g kernels (front ++ [row])) x =
      Part.some (ofKernels g (enlist kernels (moved x ((closure g kernel).marked g)))
        (front ++ [row ++ [(x, kernels.idxOf (moved x ((closure g kernel).marked g)))]])) := by
  have something : ¬ ((closure g kernel).goto g x).isEmpty := by
    obtain ⟨i, hi⟩ := ItemSet.exists_mem_of_isEmpty_eq_false some_item
    rw [OrderedSet.isEmpty_iff]
    exact ItemSet.ne_empty_of_mem (ItemSet.subset_closure hi)
  have state : (ofKernels g kernels (front ++ [row])).states[front.length]? =
      some (closure g kernel) := by
    rw [ofKernels, List.getElem?_map, here]
    rfl
  have le : (front ++ [row]).length ≤ kernels.length := by
    have bound := (List.getElem?_eq_some_iff.1 here).1
    rw [List.length_append]
    exact bound
  have numbered := number_closure apart le
  simp only [follow?, state, ItemSet.goto?_eq wf fits, something, Part.coe_some,
    Part.bind_eq_bind, Part.bind_some]
  rw [ItemSet.goto, numbered]
  simp [ofKernels]

end

theorem foldlM_follow? (wf : g.WellFormed) (fits : (closure g kernel).fits g)
    (here : kernels[front.length]? = some kernel)
    (apart : Apart g (successors ((closure g kernel).marked g) xs kernels).1) :
    xs.foldlM (follow? g front.length) (ofKernels g kernels (front ++ [row])) =
      Part.some (ofKernels g (successors ((closure g kernel).marked g) xs kernels).1
        (front ++ [row ++ (successors ((closure g kernel).marked g) xs kernels).2])) := by
  induction xs generalizing kernels row with
  | nil => simp [successors]
  | cons x xs ih =>
      rw [List.foldlM_cons]
      cases empty : (moved x ((closure g kernel).marked g)).isEmpty with
      | true =>
          rw [successors_cons_of_isEmpty empty] at apart ⊢
          rw [follow?_of_isEmpty wf fits here empty, Part.bind_eq_bind, Part.bind_some]
          exact ih here apart
      | false =>
          rw [successors_cons empty] at apart ⊢
          have more := extends_successors ((closure g kernel).marked g) xs
            (enlist kernels (moved x ((closure g kernel).marked g)))
          have listed : Apart g (enlist kernels (moved x ((closure g kernel).marked g))) :=
            fun k hk l hl => apart k (more.le.subset hk) l (more.le.subset hl)
          have still : (enlist kernels (moved x ((closure g kernel).marked g)))[front.length]? =
              some kernel := by
            obtain ⟨new, grown⟩ := le_enlist kernels (moved x ((closure g kernel).marked g))
            rw [← grown, List.getElem?_append_left (List.getElem?_eq_some_iff.1 here).1, here]
          rw [follow?_of_not_isEmpty wf fits here empty listed, Part.bind_eq_bind, Part.bind_some]
          refine (ih still apart).trans ?_
          rw [List.append_assoc]
          rfl

theorem ofKernels_concat_nil (lt : rows.length < kernels.length) :
    ofKernels g kernels (rows ++ [[]]) = ofKernels g kernels rows := by
  obtain ⟨n, left⟩ := Nat.exists_eq_add_of_lt lt
  have one : rows.length + n + 1 - (rows.length + 1) = n := by omega
  have all : rows.length + n + 1 - rows.length = n + 1 := by omega
  simp [ofKernels, left, one, all, List.replicate_succ]

theorem walk?_of_length_le {s : Nat} {d : Draft} (all : d.states.length ≤ s) :
    walk? g (s, d) = Part.some d := by
  refine Part.eq_some_iff.2 (PFun.fix_stop ?_)
  rw [expand?, if_neg (Nat.not_lt.2 all)]
  exact Part.mem_some _

theorem walk?_of_lt_length {s : Nat} {d d' : Draft} (inside : s < d.states.length)
    (turn : g.symbols.foldlM (follow? g s) d = Part.some d') :
    walk? g (s, d) = walk? g (s + 1, d') := by
  refine PFun.fix_fwd_eq ?_
  rw [expand?, if_pos inside, turn, Part.bind_eq_bind, Part.bind_some]
  exact Part.mem_some _

theorem walk?_eq (wf : g.WellFormed) {p : Production} (first : g.prod? 0 = some p) {n : Nat}
    {a : Automaton} (h : Explored g kernels a)
    (enough : 2 ^ itemCount g ≤ a.states.length + n) :
    ∃ final, Explored g final (explore g n kernels a) ∧
      (explore g n kernels a).states.length = final.length ∧
      walk? g (a.states.length, ofKernels g kernels a.edges) =
        Part.some (ofKernels g final (explore g n kernels a).edges) := by
  have length : (ofKernels g kernels a.edges).states.length = kernels.length :=
    List.length_map _
  induction n generalizing kernels a with
  | zero =>
      -- There are no more kernels than sets of items, so at the limit all of them are expanded.
      have most := h.length_le_two_pow first
      have least := h.length_le
      have all : kernels.length ≤ a.states.length := by omega
      exact ⟨kernels, h, le_antisymm least all, walk?_of_length_le (length ▸ all)⟩
  | succ n ih =>
      rw [explore]
      split
      · rename_i none_left
        have all := List.getElem?_eq_none_iff.1 none_left
        exact ⟨kernels, h, le_antisymm h.length_le all, walk?_of_length_le (length ▸ all)⟩
      · rename_i kernel here
        have inside := (List.getElem?_eq_some_iff.1 here).1
        have rows : a.edges.length = a.states.length := by rw [h.edges_eq, List.length_map]
        have expanded := h.expand here
        have fits := h.fits_closure first (List.mem_of_getElem? here)
        have turn : g.symbols.foldlM (follow? g a.edges.length)
            (ofKernels g kernels (a.edges ++ [[]])) = Part.some _ :=
          foldlM_follow? wf fits (rows ▸ here) fun k hk l hl =>
            expanded.kernel_eq_of_closure_eq hk hl
        rw [ofKernels_concat_nil (rows ▸ inside), rows, List.nil_append] at turn
        obtain ⟨final, explored, full, rest⟩ := ih expanded
          (by simp only [List.length_append, List.length_singleton]; omega)
          (List.length_map _)
        refine ⟨final, explored, full, ?_⟩
        rw [List.length_append] at rest
        exact (walk?_of_lt_length (length ▸ inside) turn).trans rest

end Draft

theorem build?_eq {g : Grammar} (wf : g.WellFormed) {p : Production} (first : g.prod? 0 = some p) :
    build? g = Part.some (ofGrammar g) := by
  have fits : ItemSet.fits g (.singleton ⟨0, 0⟩) := by
    rw [ItemSet.fits_iff]
    intro i hi
    rw [OrderedSet.mem_singleton.1 hi]
    exact (Array.getElem?_eq_some_iff.1 first).1
  obtain ⟨final, explored, full, walk⟩ : ∃ final, Explored g final (ofGrammar g) ∧
      (ofGrammar g).states.length = final.length ∧
      Draft.walk? g (0,
        ⟨[closure g (.singleton ⟨0, 0⟩)], [[]], [(closure g (.singleton ⟨0, 0⟩), 0)]⟩) =
        Part.some (Draft.ofKernels g final (ofGrammar g).edges) :=
    Draft.walk?_eq wf first (explored_nil g) (Nat.le_add_left _ _)
  have rows : (ofGrammar g).edges.length = final.length := by
    rw [← full, explored.edges_eq, List.length_map]
  simp only [build?, ItemSet.closure?_eq wf fits, walk, Part.bind_eq_bind, Part.bind_some]
  rw [Draft.ofKernels, rows, Nat.sub_self, List.replicate_zero, List.append_nil,
    ← explored.states_eq_map full]
  rfl

end ShiftReduce.Automaton
