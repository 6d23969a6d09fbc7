/-!
Alphabets: distinct spellings in the order in which they were first added. The position of a
spelling is its index for good, because additions only happen at the end.
-/

namespace ShiftReduce

structure Alphabet where
  names : List String
  nodup : names.Nodup
deriving DecidableEq

namespace Alphabet

def empty : Alphabet := ⟨[], .nil⟩

def size (a : Alphabet) : Nat := a.names.length

def add (a : Alphabet) (name : String) : Alphabet :=
  if h : name ∈ a.names then a
  else ⟨a.names ++ [name], by
    refine List.nodup_append.2 ⟨a.nodup, by simp, fun x hx y hy => ?_⟩
    rw [List.mem_singleton] at hy
    exact fun same => h (hy ▸ same ▸ hx)⟩

/-- Repeated spellings keep their first place. -/
def ofList (names : List String) : Alphabet := names.foldl add empty

def index? (a : Alphabet) (name : String) : Option Nat := a.names.idxOf? name

def name? (a : Alphabet) (i : Nat) : Option String := a.names[i]?

/-- The index of a spelling of the alphabet; one that is missing gets the size. -/
def indexOf (a : Alphabet) (name : String) : Nat := a.names.idxOf name

theorem mem_names_add {a : Alphabet} {name s : String} :
    s ∈ (a.add name).names ↔ s ∈ a.names ∨ s = name := by
  unfold add
  split
  · rename_i present
    exact ⟨.inl, fun h => h.elim id (· ▸ present)⟩
  · simp

theorem names_add_of_mem {a : Alphabet} {name : String} (h : name ∈ a.names) :
    a.add name = a := by
  simp [add, h]

theorem names_add_of_not_mem {a : Alphabet} {name : String} (h : name ∉ a.names) :
    (a.add name).names = a.names ++ [name] := by
  simp [add, h]

theorem mem_names_ofList {names : List String} {s : String} :
    s ∈ (ofList names).names ↔ s ∈ names := by
  have grown (a : Alphabet) : s ∈ (names.foldl add a).names ↔ s ∈ a.names ∨ s ∈ names := by
    induction names generalizing a with
    | nil => simp
    | cons name names ih =>
        rw [List.foldl_cons, ih, mem_names_add, List.mem_cons, or_assoc]
  simpa [ofList, empty] using grown empty

theorem names_ofList_of_nodup {names : List String} (nodup : names.Nodup) :
    (ofList names).names = names := by
  have grown (a : Alphabet) (apart : (a.names ++ names).Nodup) :
      (names.foldl add a).names = a.names ++ names := by
    induction names generalizing a with
    | nil => simp
    | cons name names ih =>
        have fresh : name ∉ a.names := fun h =>
          (List.nodup_append.1 apart).2.2 name h name List.mem_cons_self rfl
        have same : (a.add name).names ++ names = a.names ++ name :: names := by
          simp [names_add_of_not_mem fresh]
        rw [List.foldl_cons, ih (List.nodup_cons.1 nodup).2 _ (same ▸ apart), same]
  simpa [ofList, empty] using grown empty (by simpa [empty] using nodup)

theorem ofList_names (a : Alphabet) : ofList a.names = a := by
  obtain ⟨names, nodup⟩ := a
  have same := names_ofList_of_nodup nodup
  rcases read : ofList names with ⟨kept, _⟩
  rw [read] at same
  cases same
  rfl

theorem index?_eq_some_iff {a : Alphabet} {s : String} {i : Nat} :
    a.index? s = some i ↔ a.name? i = some s := by
  rw [index?, name?, List.idxOf?_eq_some_iff, List.getElem?_eq_some_iff]
  constructor
  · rintro ⟨bound, here, _⟩
    exact ⟨bound, here⟩
  · rintro ⟨bound, here⟩
    refine ⟨bound, here, fun j before there => ?_⟩
    exact List.pairwise_iff_getElem.1 a.nodup j i (Nat.lt_trans before bound) bound before
      (there.trans here.symm)

end Alphabet

end ShiftReduce
