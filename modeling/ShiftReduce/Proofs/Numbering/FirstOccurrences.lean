import Mathlib.Data.List.Sort

/-!
The distinct elements of a list in the order in which they first occur. Removal of repetitions lists
them so (`firstOccurrences_eraseDups`), and a function that tells the elements apart keeps the order
(`FirstOccurrences.map`).
-/

namespace ShiftReduce

variable {α β : Type} [BEq α] [BEq β] {xs ys : List α} {a b : α}

structure FirstOccurrences (xs ys : List α) : Prop where
  mem_iff : ∀ a, a ∈ ys ↔ a ∈ xs
  ordered : ys.Pairwise fun a b => xs.idxOf a < xs.idxOf b

theorem FirstOccurrences.nodup (h : FirstOccurrences xs ys) : ys.Nodup :=
  h.ordered.imp fun {a b} lt (same : a = b) => Nat.ne_of_lt lt (by rw [same])

theorem FirstOccurrences.unique {zs : List α} (h : FirstOccurrences xs ys)
    (h' : FirstOccurrences xs zs) : ys = zs := by
  let Before (a b : α) : Prop := xs.idxOf a < xs.idxOf b
  have : Std.Irrefl Before := ⟨fun _ => Nat.lt_irrefl _⟩
  have : Std.Antisymm Before := ⟨fun _ _ lt lt' => absurd lt' (Nat.lt_asymm lt)⟩
  refine List.Pairwise.eq_of_mem_iff (r := Before) h.ordered h'.ordered fun a => ?_
  rw [h.mem_iff, h'.mem_iff]

theorem eraseDups_sublist : ∀ xs : List α, xs.eraseDups.Sublist xs
  | [] => .slnil
  | x :: xs => by
      have rest := eraseDups_sublist (xs.filter fun y => !y == x)
      rw [List.eraseDups_cons]
      exact (rest.trans List.filter_sublist).cons_cons x
termination_by xs => xs.length
decreasing_by exact Nat.lt_succ_of_le (List.length_filter_le _ _)

variable [LawfulBEq α] [LawfulBEq β]

theorem idxOf_lt_idxOf_of_filter {p : α → Bool} (ha : p a) (hb : p b)
    (lt : (xs.filter p).idxOf a < (xs.filter p).idxOf b) : xs.idxOf a < xs.idxOf b := by
  induction xs with
  | nil => exact lt
  | cons x xs ih =>
      by_cases kept : p x
      · rw [List.filter_cons_of_pos kept, List.idxOf_cons, List.idxOf_cons] at lt
        rw [List.idxOf_cons, List.idxOf_cons]
        cases hxa : x == a <;> cases hxb : x == b <;> simp_all
      · have other_a : ¬ (x == a) := fun same => kept (eq_of_beq same ▸ ha)
        have other_b : ¬ (x == b) := fun same => kept (eq_of_beq same ▸ hb)
        rw [List.filter_cons_of_neg kept] at lt
        simp [List.idxOf_cons, other_a, other_b, ih lt]

theorem firstOccurrences_eraseDups : ∀ xs : List α, FirstOccurrences xs xs.eraseDups
  | [] => ⟨fun _ => Iff.rfl, .nil⟩
  | x :: xs => by
      have rest := firstOccurrences_eraseDups (xs.filter fun y => !y == x)
      refine ⟨fun a => List.mem_eraseDups, ?_⟩
      rw [List.eraseDups_cons, List.pairwise_cons]
      have apart : ∀ a ∈ (xs.filter fun y => !y == x).eraseDups, ¬ (x == a) := by
        intro a ha same
        have kept := (List.mem_filter.1 ((rest.mem_iff a).1 ha)).2
        simp [eq_of_beq same] at kept
      refine ⟨fun a ha => ?_, ?_⟩
      · simp [List.idxOf_cons, apart a ha]
      · refine rest.ordered.imp_of_mem fun {a b} ha hb lt => ?_
        have lt' : xs.idxOf a < xs.idxOf b :=
          idxOf_lt_idxOf_of_filter (List.mem_filter.1 ((rest.mem_iff a).1 ha)).2
            (List.mem_filter.1 ((rest.mem_iff b).1 hb)).2 lt
        simpa [List.idxOf_cons, apart a ha, apart b hb] using lt'
termination_by xs => xs.length
decreasing_by exact Nat.lt_succ_of_le (List.length_filter_le _ _)

theorem nodup_eraseDups (xs : List α) : xs.eraseDups.Nodup := (firstOccurrences_eraseDups xs).nodup

theorem idxOf_map {f : α → β} (ha : a ∈ xs) (injective : ∀ b ∈ xs, f b = f a → b = a) :
    (xs.map f).idxOf (f a) = xs.idxOf a := by
  induction xs with
  | nil => rfl
  | cons x xs ih =>
      rw [List.map_cons, List.idxOf_cons, List.idxOf_cons]
      by_cases same : x = a
      · simp [same]
      · have apart : f x ≠ f a := fun equal => same (injective x List.mem_cons_self equal)
        have mem := (List.mem_cons.1 ha).resolve_left (Ne.symm same)
        rw [beq_eq_false_iff_ne.2 apart, beq_eq_false_iff_ne.2 same,
          ih mem fun b hb => injective b (List.mem_cons_of_mem x hb)]

theorem firstOccurrences_of_nodup (nodup : xs.Nodup) : FirstOccurrences xs xs where
  mem_iff _ := Iff.rfl
  ordered := by
    refine List.pairwise_iff_getElem.2 fun i j hi hj lt => ?_
    rwa [nodup.idxOf_getElem, nodup.idxOf_getElem]

theorem FirstOccurrences.ordered_append (h : FirstOccurrences xs ys) (more : List α) :
    ys.Pairwise fun a b => (xs ++ more).idxOf a < (xs ++ more).idxOf b := by
  refine h.ordered.imp_of_mem fun {a b} ha hb lt => ?_
  rwa [List.idxOf_append_of_mem ((h.mem_iff a).1 ha), List.idxOf_append_of_mem ((h.mem_iff b).1 hb)]

theorem FirstOccurrences.concat_of_mem (h : FirstOccurrences xs ys) (known : a ∈ ys) :
    FirstOccurrences (xs ++ [a]) ys where
  mem_iff b := by
    rw [List.mem_append, List.mem_singleton, ← h.mem_iff b]
    exact ⟨.inl, fun mem => mem.elim id fun same => same ▸ known⟩
  ordered := h.ordered_append [a]

theorem FirstOccurrences.concat_of_not_mem (h : FirstOccurrences xs ys) (new : a ∉ ys) :
    FirstOccurrences (xs ++ [a]) (ys ++ [a]) where
  mem_iff b := by rw [List.mem_append, List.mem_append, h.mem_iff b]
  ordered := by
    refine List.pairwise_append.2
      ⟨h.ordered_append [a], List.pairwise_singleton _ _, fun b hb c hc => ?_⟩
    have known := (h.mem_iff b).1 hb
    rw [List.mem_singleton.1 hc, List.idxOf_append_of_mem known,
      List.idxOf_append_of_notMem (mt (h.mem_iff a).2 new)]
    exact (List.idxOf_lt_length_iff.2 known).trans_le (Nat.le_add_right _ _)

theorem getElem?_of_isPrefix {γ : Type} {front whole : List γ} {c : γ} {n : Nat}
    (part : front <+: whole) (here : front[n]? = some c) : whole[n]? = some c := by
  obtain ⟨rest, rfl⟩ := part
  rw [List.getElem?_append_left (List.getElem?_eq_some_iff.1 here).1, here]

theorem FirstOccurrences.eraseDups_isPrefix {front : List α} (h : FirstOccurrences xs ys)
    (part : front <+: xs) : front.eraseDups <+: ys := by
  obtain ⟨rest, rfl⟩ := part
  rw [h.unique (firstOccurrences_eraseDups (front ++ rest)), List.eraseDups_append]
  exact List.prefix_append _ _

theorem FirstOccurrences.getElem?_eraseDups_of_mem {front : List α} (h : FirstOccurrences xs ys)
    (part : front <+: xs) {n : Nat} (here : ys[n]? = some a) (mem : a ∈ front) :
    front.eraseDups[n]? = some a := by
  obtain ⟨m, there⟩ := List.getElem?_of_mem (List.mem_eraseDups.2 mem)
  obtain ⟨bound, _⟩ := List.getElem?_eq_some_iff.1 here
  have again : ys[m]? = some a := getElem?_of_isPrefix (h.eraseDups_isPrefix part) there
  have same : n = m := (List.getElem?_inj bound h.nodup).1 (here.trans again.symm)
  exact same ▸ there

theorem FirstOccurrences.head?_eq (h : FirstOccurrences xs ys) : ys.head? = xs.head? := by
  rw [h.unique (firstOccurrences_eraseDups xs)]
  cases xs with
  | nil => rfl
  | cons x xs => rw [List.eraseDups_cons, List.head?_cons, List.head?_cons]

theorem FirstOccurrences.map {f : α → β} (h : FirstOccurrences xs ys)
    (injective : ∀ a ∈ xs, ∀ b ∈ xs, f a = f b → a = b) :
    FirstOccurrences (xs.map f) (ys.map f) := by
  refine ⟨fun b => ?_, ?_⟩
  · simp [h.mem_iff]
  · refine List.pairwise_map.2 (h.ordered.imp_of_mem fun {a b} ha hb lt => ?_)
    rw [h.mem_iff] at ha hb
    rwa [idxOf_map ha fun c hc => injective c hc a ha, idxOf_map hb fun c hc => injective c hc b hb]

end ShiftReduce
