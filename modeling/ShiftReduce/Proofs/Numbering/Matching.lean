import Mathlib.Data.List.Nodup
import Mathlib.Logic.Equiv.Defs

/-!
Two lists that hold the same elements, each once, number them differently. `matching` takes every
number of an element in the first to its number in the second, and leaves all other numbers alone.
-/

namespace ShiftReduce

variable {α : Type} {xs ys : List α} {i j : Nat}

theorem length_eq_of_nodup (hx : xs.Nodup) (hy : ys.Nodup) (same : ∀ x, x ∈ xs ↔ x ∈ ys) :
    xs.length = ys.length :=
  ((List.perm_ext_iff_of_nodup hx hy).2 same).length_eq

theorem eq_of_lt_iff {e : Nat ≃ Nat} {n m : Nat} (h : ∀ i, e i < m ↔ i < n) : m = n := by
  have nodup : ((List.range n).map e).Nodup := List.nodup_range.map e.injective
  have same : ∀ j, j ∈ List.range m ↔ j ∈ (List.range n).map e := by
    intro j
    rw [List.mem_range, List.mem_map]
    apply Iff.intro
    · intro below
      refine ⟨e.symm j, List.mem_range.2 ((h _).1 ?_), e.apply_symm_apply j⟩
      rwa [e.apply_symm_apply]
    · rintro ⟨i, below, rfl⟩
      exact (h i).2 (List.mem_range.1 below)
  simpa using length_eq_of_nodup List.nodup_range nodup same

variable [DecidableEq α]

def place (xs ys : List α) (i : Nat) : Nat := (xs[i]?).elim i ys.idxOf

theorem getElem?_place (length : xs.length = ys.length) (same : ∀ x ∈ xs, x ∈ ys) (i : Nat) :
    ys[place xs ys i]? = xs[i]? := by
  cases here : xs[i]? with
  | none =>
      have beyond := List.getElem?_eq_none_iff.1 here
      rw [place, here, Option.elim_none]
      exact List.getElem?_eq_none (length ▸ beyond)
  | some x =>
      have bound := List.idxOf_lt_length_iff.2 (same x (List.mem_of_getElem? here))
      rw [place, here, Option.elim_some, List.getElem?_eq_getElem bound, List.getElem_idxOf bound]

theorem place_place (nodup : xs.Nodup) (length : xs.length = ys.length)
    (same : ∀ x ∈ xs, x ∈ ys) (i : Nat) : place ys xs (place xs ys i) = i := by
  rw [place, getElem?_place length same]
  cases here : xs[i]? with
  | none => rw [place, here, Option.elim_none, Option.elim_none]
  | some x =>
      obtain ⟨bound, rfl⟩ := List.getElem?_eq_some_iff.1 here
      exact nodup.idxOf_getElem i bound

def matching (hx : xs.Nodup) (hy : ys.Nodup) (same : ∀ x, x ∈ xs ↔ x ∈ ys) : Nat ≃ Nat where
  toFun := place xs ys
  invFun := place ys xs
  left_inv := place_place hx (length_eq_of_nodup hx hy same) fun x => (same x).1
  right_inv := place_place hy (length_eq_of_nodup hx hy same).symm fun x => (same x).2

variable (hx : xs.Nodup) (hy : ys.Nodup) (same : ∀ x, x ∈ xs ↔ x ∈ ys)

theorem getElem?_matching (i : Nat) : ys[matching hx hy same i]? = xs[i]? :=
  getElem?_place (length_eq_of_nodup hx hy same) (fun x => (same x).1) i

theorem matching_eq (bound : i < xs.length) (here : xs[i]? = ys[j]?) :
    matching hx hy same i = j := by
  have found := (getElem?_matching hx hy same i).trans here
  have bound_j : j < ys.length := by
    rw [List.getElem?_eq_getElem bound] at here
    exact (List.getElem?_eq_some_iff.1 here.symm).1
  exact ((List.getElem?_inj bound_j hy).1 found.symm).symm

theorem matching_of_le (beyond : xs.length ≤ i) : matching hx hy same i = i := by
  show place xs ys i = i
  rw [place, List.getElem?_eq_none beyond, Option.elim_none]

end ShiftReduce
