/-!
Finite sets over a strict linear order, kept as increasing lists. Two sets with the same members are
the same list, so sets of items can name the states of an automaton and be compared by `=`.
-/

namespace ShiftReduce

class StrictOrder (α : Type) extends LT α where
  decideLT : DecidableLT α
  irrefl (a : α) : ¬ a < a
  trans {a b c : α} : a < b → b < c → a < c
  connected {a b : α} : ¬ a < b → ¬ b < a → a = b

instance StrictOrder.decidableLT (α : Type) [StrictOrder α] : DecidableLT α :=
  StrictOrder.decideLT

instance : StrictOrder Nat where
  decideLT := inferInstance
  irrefl := Nat.lt_irrefl
  trans := Nat.lt_trans
  connected := by omega

structure OrderedSet (α : Type) [StrictOrder α] where
  toList : List α
  sorted : toList.Pairwise (· < ·)
deriving DecidableEq

namespace OrderedSet

variable {α : Type} [StrictOrder α]

instance : Membership α (OrderedSet α) := ⟨fun s a => a ∈ s.toList⟩

instance [DecidableEq α] (a : α) (s : OrderedSet α) : Decidable (a ∈ s) :=
  inferInstanceAs (Decidable (a ∈ s.toList))

theorem mem_def {a : α} {s : OrderedSet α} : a ∈ s ↔ a ∈ s.toList := Iff.rfl

instance : EmptyCollection (OrderedSet α) := ⟨⟨[], .nil⟩⟩

theorem not_mem_empty (a : α) : a ∉ (∅ : OrderedSet α) := by
  simp [mem_def, EmptyCollection.emptyCollection]

def isEmpty (s : OrderedSet α) : Bool := s.toList.isEmpty

/-- Insertion into an increasing list, which leaves a list that holds `a` as it is. -/
def place (a : α) : List α → List α
  | [] => [a]
  | b :: bs => if a < b then a :: b :: bs else if b < a then b :: place a bs else b :: bs

theorem mem_place {a c : α} {l : List α} : c ∈ place a l ↔ c = a ∨ c ∈ l := by
  induction l with
  | nil => simp [place]
  | cons b bs ih =>
      unfold place
      split
      · simp
      · split
        · simp only [List.mem_cons, ih]
          grind
        · rename_i below above
          have same := StrictOrder.connected below above
          simp only [List.mem_cons]
          grind

theorem sorted_place {a : α} {l : List α} (h : l.Pairwise (· < ·)) :
    (place a l).Pairwise (· < ·) := by
  induction l with
  | nil => simp [place]
  | cons b bs ih =>
      have ⟨least, rest⟩ := List.pairwise_cons.1 h
      unfold place
      split
      · rename_i below
        refine List.pairwise_cons.2 ⟨fun c hc => ?_, h⟩
        rcases List.mem_cons.1 hc with rfl | hc
        · exact below
        · exact StrictOrder.trans below (least c hc)
      · split
        · rename_i above
          refine List.pairwise_cons.2 ⟨fun c hc => ?_, ih rest⟩
          rcases mem_place.1 hc with rfl | hc
          · exact above
          · exact least c hc
        · exact h

def insert (a : α) (s : OrderedSet α) : OrderedSet α :=
  ⟨place a s.toList, sorted_place s.sorted⟩

theorem mem_insert {a c : α} {s : OrderedSet α} : c ∈ s.insert a ↔ c = a ∨ c ∈ s :=
  mem_place

def singleton (a : α) : OrderedSet α := ⟨[a], by simp⟩

theorem mem_singleton {a c : α} : c ∈ singleton a ↔ c = a := by
  simp [mem_def, singleton]

/-- The last element goes in first, which takes the fewest steps where `l` is increasing. -/
def insertAll (s : OrderedSet α) (l : List α) : OrderedSet α := l.foldr insert s

theorem mem_insertAll {c : α} {s : OrderedSet α} {l : List α} :
    c ∈ s.insertAll l ↔ c ∈ s ∨ c ∈ l := by
  unfold insertAll
  induction l with
  | nil => simp
  | cons a l ih =>
      simp only [List.foldr_cons, ih, mem_insert, List.mem_cons]
      grind

def ofList (l : List α) : OrderedSet α := (∅ : OrderedSet α).insertAll l

theorem mem_ofList {c : α} {l : List α} : c ∈ ofList l ↔ c ∈ l := by
  simp [ofList, mem_insertAll, not_mem_empty]

/-- Puts `a` where it belongs in a list; `rest` is what becomes of the elements behind it. -/
def weave (a : α) (rest : List α → List α) : List α → List α
  | [] => a :: rest []
  | b :: bs =>
      if b < a then b :: weave a rest bs
      else a :: rest (if a < b then b :: bs else bs)

def merge : List α → List α → List α
  | [] => id
  | a :: l => weave a (merge l)

theorem mem_merge {c : α} {l m : List α} : c ∈ merge l m ↔ c ∈ l ∨ c ∈ m := by
  induction l generalizing m with
  | nil => simp [merge]
  | cons a l ih =>
      rw [merge]
      induction m with
      | nil => simp [weave, ih]
      | cons b m ihm =>
          unfold weave
          split
          · simp only [List.mem_cons, ihm]
            grind
          · rename_i below
            split
            · simp only [List.mem_cons, ih]
              grind
            · rename_i above
              have same := StrictOrder.connected below above
              simp only [List.mem_cons, ih]
              grind

theorem sorted_merge {l m : List α} (hl : l.Pairwise (· < ·)) (hm : m.Pairwise (· < ·)) :
    (merge l m).Pairwise (· < ·) := by
  induction l generalizing m with
  | nil => exact hm
  | cons a l ih =>
      have ⟨leastL, restL⟩ := List.pairwise_cons.1 hl
      rw [merge]
      induction m with
      | nil =>
          refine List.pairwise_cons.2 ⟨fun c hc => ?_, ih restL .nil⟩
          exact (mem_merge.1 hc).elim (leastL c) (by simp)
      | cons b m ihm =>
          have ⟨leastM, restM⟩ := List.pairwise_cons.1 hm
          unfold weave
          split
          · rename_i below
            refine List.pairwise_cons.2 ⟨fun c hc => ?_, ihm restM⟩
            rcases mem_merge (l := a :: l).1 hc with hc | hc
            · rcases List.mem_cons.1 hc with rfl | hc
              · exact below
              · exact StrictOrder.trans below (leastL c hc)
            · exact leastM c hc
          · rename_i below
            split
            · rename_i above
              refine List.pairwise_cons.2 ⟨fun c hc => ?_, ih restL hm⟩
              rcases mem_merge.1 hc with hc | hc
              · exact leastL c hc
              · rcases List.mem_cons.1 hc with rfl | hc
                · exact above
                · exact StrictOrder.trans above (leastM c hc)
            · rename_i above
              have same := StrictOrder.connected below above
              refine List.pairwise_cons.2 ⟨fun c hc => ?_, ih restL restM⟩
              exact (mem_merge.1 hc).elim (leastL c) fun hc => same ▸ leastM c hc

instance : Union (OrderedSet α) :=
  ⟨fun s t => ⟨merge s.toList t.toList, sorted_merge s.sorted t.sorted⟩⟩

theorem mem_union {c : α} {s t : OrderedSet α} : c ∈ s ∪ t ↔ c ∈ s ∨ c ∈ t :=
  mem_merge

theorem eq_of_sorted {l m : List α} (hl : l.Pairwise (· < ·)) (hm : m.Pairwise (· < ·))
    (h : ∀ c, c ∈ l ↔ c ∈ m) : l = m := by
  induction l generalizing m with
  | nil =>
      cases m with
      | nil => rfl
      | cons b m => exact absurd ((h b).2 (by simp)) (by simp)
  | cons a l ih =>
      cases m with
      | nil => exact absurd ((h a).1 (by simp)) (by simp)
      | cons b m =>
          have ⟨leastL, restL⟩ := List.pairwise_cons.1 hl
          have ⟨leastM, restM⟩ := List.pairwise_cons.1 hm
          have same : a = b := by
            rcases List.mem_cons.1 ((h a).1 (by simp)) with same | ha
            · exact same
            · rcases List.mem_cons.1 ((h b).2 (by simp)) with same | hb
              · exact same.symm
              · exact absurd (StrictOrder.trans (leastL b hb) (leastM a ha)) (StrictOrder.irrefl a)
          subst same
          congr 1
          refine ih restL restM fun c => ?_
          have both := h c
          simp only [List.mem_cons] at both
          constructor
          · intro hc
            rcases both.1 (.inr hc) with rfl | hc'
            · exact absurd (leastL c hc) (StrictOrder.irrefl c)
            · exact hc'
          · intro hc
            rcases both.2 (.inr hc) with rfl | hc'
            · exact absurd (leastM c hc) (StrictOrder.irrefl c)
            · exact hc'

theorem eq_of_toList_eq {s t : OrderedSet α} (same : s.toList = t.toList) : s = t := by
  cases s
  cases t
  cases same
  rfl

theorem eq_of_mem_iff {s t : OrderedSet α} (h : ∀ c, c ∈ s ↔ c ∈ t) : s = t :=
  eq_of_toList_eq (eq_of_sorted s.sorted t.sorted h)

theorem isEmpty_iff {s : OrderedSet α} : s.isEmpty ↔ s = ∅ := by
  constructor
  · intro h
    refine eq_of_mem_iff fun c => ?_
    have none_left : s.toList = [] := List.isEmpty_iff.1 h
    simp [mem_def, none_left, EmptyCollection.emptyCollection]
  · rintro rfl
    rfl

end OrderedSet

end ShiftReduce
