import ShiftReduce.Proofs.Numbering.FirstOccurrences

/-!
Lists that are discovered from their first element: every element says what it leads to, and the
elements stand in the order in which they are first met when those in front are gone through one
after the other. The first element gives the whole list (`Discovered.unique`), and what has been met
when some elements have been gone through is a front part of it (`Discovered.exists_earlier`).
-/

namespace ShiftReduce

variable {α : Type} [BEq α] [LawfulBEq α] {f : α → List α} {xs ys : List α} {a b : α}

/-- Every element but the first is met in one in front of it, and the first occurrences of what is
met stand in the order of the list. -/
structure Discovered (f : α → List α) (xs : List α) : Prop where
  order : FirstOccurrences (xs.flatMap f) xs.tail
  earlier : ∀ n a, xs[n + 1]? = some a → a ∈ (xs.take (n + 1)).flatMap f

theorem flatMap_take_isPrefix {γ : Type} (h : γ → List γ) (zs : List γ) (n : Nat) :
    (zs.take n).flatMap h <+: zs.flatMap h := by
  conv_rhs => rw [← List.take_append_drop n zs, List.flatMap_append]
  exact List.prefix_append _ _

namespace Discovered

theorem getElem?_of_take_eq (hx : Discovered f xs) (hy : Discovered f ys) {n : Nat}
    (same : xs.take (n + 1) = ys.take (n + 1)) (here : xs[n + 1]? = some a) :
    ys[n + 1]? = some a := by
  have met := hx.earlier n a here
  rw [← List.getElem?_tail] at here ⊢
  have first := hx.order.getElem?_eraseDups_of_mem (flatMap_take_isPrefix f _ (n + 1)) here met
  rw [same] at first
  exact getElem?_of_isPrefix (hy.order.eraseDups_isPrefix (flatMap_take_isPrefix f _ (n + 1))) first

theorem unique (hx : Discovered f xs) (hy : Discovered f ys) (head : xs[0]? = ys[0]?) :
    xs = ys := by
  refine List.ext_getElem? fun n => ?_
  induction n using Nat.strongRecOn with
  | ind n ih =>
      cases n with
      | zero => exact head
      | succ n =>
          have same : xs.take (n + 1) = ys.take (n + 1) := by
            refine List.ext_getElem? fun i => ?_
            rw [List.getElem?_take, List.getElem?_take]
            split
            · rename_i before
              exact ih i before
            · rfl
          refine Option.ext fun a => ⟨hx.getElem?_of_take_eq hy same, ?_⟩
          exact hy.getElem?_of_take_eq hx same.symm

theorem exists_earlier (h : Discovered f xs) {i j n : Nat} (le : i ≤ j)
    (ha : xs[i + 1]? = some a) (hb : xs[j + 1]? = some b)
    (met : b ∈ (xs.take n).flatMap f) : a ∈ (xs.take n).flatMap f := by
  rw [← List.getElem?_tail] at ha hb
  have part := flatMap_take_isPrefix f xs n
  have there := h.order.getElem?_eraseDups_of_mem part hb met
  have bound : i < ((xs.take n).flatMap f).eraseDups.length :=
    le.trans_lt (List.getElem?_eq_some_iff.1 there).1
  have again := getElem?_of_isPrefix (h.order.eraseDups_isPrefix part)
    (List.getElem?_eq_getElem bound)
  obtain rfl : _ = a := Option.some.inj (again.symm.trans ha)
  exact List.mem_eraseDups.1 (List.getElem_mem bound)

end Discovered

end ShiftReduce
