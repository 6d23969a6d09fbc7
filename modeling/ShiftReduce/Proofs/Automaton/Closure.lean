import ShiftReduce.ItemSet
import ShiftReduce.Proofs.Grammar.WellFormed

/-!
Closures as inductive sets: a property of the given items that passes from an item to the
productions of the nonterminal after its dot holds of the whole closure (`closure_induction`), and
the closure itself has this property (`start_mem_closure`). Items stay within their productions.
-/

namespace ShiftReduce

namespace Item

variable {g : Grammar} {i : Item} {x : Symbol}

theorem next?_eq_some_iff :
    i.next? g = some x ↔ ∃ p, g.prod? i.prod = some p ∧ p.rhs[i.dot]? = some x :=
  Option.bind_eq_some_iff

theorem drop_eq_cons_of_next? (h : i.next? g = some x) {p : Production}
    (found : g.prod? i.prod = some p) : p.rhs.drop i.dot = x :: p.rhs.drop (i.dot + 1) := by
  obtain ⟨q, found', here⟩ := next?_eq_some_iff.1 h
  obtain rfl : q = p := Option.some.inj (found'.symm.trans found)
  obtain ⟨bound, rfl⟩ := List.getElem?_eq_some_iff.1 here
  exact List.drop_eq_getElem_cons bound

def InRange (g : Grammar) (i : Item) : Prop := ∃ p, g.prod? i.prod = some p ∧ i.dot ≤ p.rhs.length

theorem inRange_start {n : Nat} {p : Production} (found : g.prod? n = some p) :
    InRange g ⟨n, 0⟩ :=
  ⟨p, found, Nat.zero_le _⟩

theorem inRange_advance (h : i.next? g = some x) : InRange g i.advance := by
  obtain ⟨p, found, here⟩ := next?_eq_some_iff.1 h
  exact ⟨p, found, (List.getElem?_eq_some_iff.1 here).1⟩

theorem next?_eq_none_iff {p : Production} (found : g.prod? i.prod = some p) :
    i.next? g = none ↔ p.rhs.length ≤ i.dot := by
  simp [next?, found]

theorem next?_mem_symbols (wf : g.WellFormed) (h : i.next? g = some x) : x ∈ g.symbols := by
  obtain ⟨p, found, here⟩ := next?_eq_some_iff.1 h
  exact wf.mem_symbols_of_mem_rhs (Grammar.mem_of_prod? found) (List.mem_of_getElem? here)

end Item

namespace ItemSet

variable {g : Grammar} {items : ItemSet} {x : Symbol}

theorem reach_induction {P : Nat → Prop} (step : ∀ heads : List Nat, (∀ a ∈ heads, P a) →
      ∀ b ∈ awaited g (starts g heads), P b)
    {n : Nat} {fresh heads : List Nat} (hfresh : ∀ a ∈ fresh, P a) (hheads : ∀ a ∈ heads, P a) :
    ∀ a ∈ reach g n fresh heads, P a := by
  induction n generalizing fresh heads with
  | zero => exact hheads
  | succ n ih =>
      have hnew : ∀ a ∈ (awaited g (starts g fresh)).filter fun a => a ∉ heads, P a :=
        fun a ha => step fresh hfresh a (List.mem_filter.1 ha).1
      simp only [reach]
      split
      · exact hheads
      · apply ih hnew
        intro a ha
        exact (List.mem_append.1 ha).elim (hheads a) (hnew a)

theorem closure_induction {P : Item → Prop} (base : ∀ i ∈ items, P i)
    (predict : ∀ i n p, P i → i.next? g = some (.nonterminal p.head) → g.prod? n = some p →
      P ⟨n, 0⟩) :
    ∀ i ∈ closure g items, P i := by
  -- Of the heads it is enough to know that an item with the property awaits them.
  let Q (a : Nat) : Prop := ∃ i, P i ∧ i.next? g = some (.nonterminal a)
  have start : ∀ heads : List Nat, (∀ a ∈ heads, Q a) → ∀ i ∈ starts g heads, P i := by
    intro heads hheads i hi
    obtain ⟨dot, p, found, mem⟩ := mem_starts.1 hi
    obtain ⟨j, hj, await⟩ := hheads p.head mem
    cases i
    cases dot
    exact predict j _ p hj await found
  have step : ∀ heads : List Nat, (∀ a ∈ heads, Q a) → ∀ b ∈ awaited g (starts g heads), Q b := by
    intro heads hheads b hb
    obtain ⟨i, mem, here⟩ := mem_awaited.1 hb
    exact ⟨i, start heads hheads i mem, here⟩
  have first : ∀ a ∈ awaited g items.toList, Q a := by
    intro a ha
    obtain ⟨i, mem, here⟩ := mem_awaited.1 ha
    exact ⟨i, base i mem, here⟩
  intro i hi
  cases OrderedSet.mem_insertAll.1 hi with
  | inl mem => exact base i mem
  | inr mem => exact start _ (reach_induction step first first) i mem

theorem start_mem_closure {i : Item} (hi : i ∈ closure g items) {p : Production} {n : Nat}
    (await : i.next? g = some (.nonterminal p.head)) (found : g.prod? n = some p) :
    ⟨n, 0⟩ ∈ closure g items := by
  rw [← expand_closure]
  refine OrderedSet.mem_insertAll.2 (.inr (mem_starts.2 ⟨rfl, p, found, ?_⟩))
  exact mem_awaited.2 ⟨i, hi, await⟩

theorem inRange_closure (h : ∀ i ∈ items, i.InRange g) : ∀ i ∈ closure g items, i.InRange g :=
  closure_induction h fun _ _ _ _ _ found => Item.inRange_start found

theorem inRange_moved : ∀ i ∈ moved x (items.marked g), i.InRange g := by
  intro i hi
  obtain ⟨j, _, here, rfl⟩ := mem_moved.1 hi
  exact Item.inRange_advance here

theorem isEmpty_eq_false_of_mem {i : Item} (h : i ∈ items) : items.isEmpty = false := by
  by_contra empty
  rw [Bool.not_eq_false, OrderedSet.isEmpty_iff] at empty
  rw [empty] at h
  exact OrderedSet.not_mem_empty i h

theorem exists_mem_of_isEmpty_eq_false (h : items.isEmpty = false) : ∃ i, i ∈ items := by
  rw [OrderedSet.isEmpty, List.isEmpty_eq_false_iff] at h
  exact List.exists_mem_of_ne_nil _ h

theorem isEmpty_moved_eq_false :
    (moved x (items.marked g)).isEmpty = false ↔ ∃ i ∈ items, i.next? g = some x := by
  apply Iff.intro
  · intro h
    obtain ⟨_, hi⟩ := exists_mem_of_isEmpty_eq_false h
    obtain ⟨j, hj, here, _⟩ := mem_moved.1 hi
    exact ⟨j, hj, here⟩
  · intro ⟨i, hi, here⟩
    exact isEmpty_eq_false_of_mem (mem_moved.2 ⟨i, hi, here, rfl⟩)

end ItemSet

end ShiftReduce
