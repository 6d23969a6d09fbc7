import Mathlib.Data.List.Induction
import ShiftReduce.Construction
import ShiftReduce.Proofs.Numbering.FirstOccurrences

/-!
Alphabets with an index. An interner keeps its spellings twice, in a list and in a map to their
numbers, and hands out a number for every spelling that is added. Additions keep list and map
inverse to each other (`Coherent.add`), so the list alone determines the table (`Coherent.ext`) and
is all that has to be written down. What the list holds are the distinct spellings in the order in
which they first occur, as in the alphabet that is made of them (`interned_ofList`).
-/

namespace ShiftReduce

structure Interner where
  names : List String
  numbers : Std.ExtHashMap String Nat

theorem getElem?_concat_eq_some_iff {α : Type} {xs : List α} {a b : α} {i : Nat} :
    (xs ++ [a])[i]? = some b ↔ xs[i]? = some b ∨ i = xs.length ∧ a = b := by
  rw [List.getElem?_append]
  split
  · rename_i inside
    simp [Nat.ne_of_lt inside]
  · rename_i outside
    have last : i - xs.length = 0 ↔ i = xs.length := by omega
    rw [List.getElem?_singleton, List.getElem?_eq_none (Nat.le_of_not_lt outside)]
    simp [last]

namespace Interner

def empty : Interner := ⟨[], ∅⟩

def index? (t : Interner) (name : String) : Option Nat := t.numbers[name]?

def name? (t : Interner) (i : Nat) : Option String := t.names[i]?

def push (t : Interner) (name : String) : Interner :=
  ⟨t.names ++ [name], t.numbers.insert name t.names.length⟩

def add (t : Interner) (name : String) : Nat × Interner :=
  match t.index? name with
  | some i => (i, t)
  | none => (t.names.length, t.push name)

def addAll (t : Interner) (names : List String) : Interner :=
  names.foldl (fun t name => (t.add name).2) t

def ofList (names : List String) : Interner := empty.addAll names

def toList (t : Interner) : List String := t.names

def Coherent (t : Interner) : Prop := ∀ name i, t.index? name = some i ↔ t.name? i = some name

variable {t u : Interner} {name other : String} {names more : List String} {i : Nat}

theorem coherent_empty : empty.Coherent := by
  intro name i
  simp [empty, index?, name?]

theorem names_push (t : Interner) (name : String) : (t.push name).names = t.names ++ [name] := rfl

theorem index?_push (t : Interner) (name other : String) : (t.push name).index? other =
    if name = other then some t.names.length else t.index? other := by
  simp only [push, index?, Std.ExtHashMap.getElem?_insert, beq_iff_eq]

theorem add_of_index? (known : t.index? name = some i) : t.add name = (i, t) := by
  rw [add, known]

theorem addAll_append (t : Interner) (names more : List String) :
    t.addAll (names ++ more) = (t.addAll names).addAll more := List.foldl_append

theorem ofList_concat (names : List String) (name : String) :
    ofList (names ++ [name]) = ((ofList names).add name).2 := addAll_append empty names [name]

namespace Coherent

variable (coherent : t.Coherent)

include coherent

theorem index?_eq_none_iff : t.index? name = none ↔ name ∉ t.names := by
  rw [Option.eq_none_iff_forall_ne_some, List.mem_iff_getElem?, not_exists]
  exact forall_congr' fun i => not_congr (coherent name i)

theorem add_of_not_mem (new : name ∉ t.names) : t.add name = (t.names.length, t.push name) := by
  rw [add, coherent.index?_eq_none_iff.2 new]

theorem names_add_of_not_mem (new : name ∉ t.names) :
    (t.add name).2.names = t.names ++ [name] := by
  rw [coherent.add_of_not_mem new, names_push]

theorem add_of_mem (known : name ∈ t.names) : (t.add name).2 = t := by
  obtain ⟨i, here⟩ := List.mem_iff_getElem?.1 known
  rw [add_of_index? ((coherent name i).2 here)]

theorem nodup : t.names.Nodup := by
  refine List.pairwise_iff_getElem.2 fun i j hi hj lt same => ?_
  have first := (coherent t.names[j] i).2 (List.getElem?_eq_some_iff.2 ⟨hi, same⟩)
  have second := (coherent t.names[j] j).2 (List.getElem?_eq_getElem hj)
  exact Nat.ne_of_lt lt (Option.some.inj (first.symm.trans second))

theorem ext (coherent' : u.Coherent) (same : t.names = u.names) : t = u := by
  have numbers : t.numbers = u.numbers := by
    refine Std.ExtHashMap.ext_getElem? fun name => Option.ext fun i => ?_
    have alike : t.name? i = some name ↔ u.name? i = some name := by rw [name?, same, name?]
    exact (coherent name i).trans (alike.trans (coherent' name i).symm)
  obtain ⟨_, _⟩ := t
  cases same
  cases numbers
  rfl

theorem index?_add (known : t.index? other = some i) : (t.add name).2.index? other = some i := by
  by_cases mem : name ∈ t.names
  · rw [coherent.add_of_mem mem, known]
  · have apart : name ≠ other := by
      rintro rfl
      rw [coherent.index?_eq_none_iff.2 mem] at known
      cases known
    rw [coherent.add_of_not_mem mem, index?_push, if_neg apart, known]

theorem index?_add_self : (t.add name).2.index? name = some (t.add name).1 := by
  cases found : t.index? name with
  | some i => rw [add_of_index? found, found]
  | none =>
      rw [coherent.add_of_not_mem (coherent.index?_eq_none_iff.1 found), index?_push, if_pos rfl]

theorem add (name : String) : (t.add name).2.Coherent := by
  by_cases mem : name ∈ t.names
  · rwa [coherent.add_of_mem mem]
  · intro other i
    rw [coherent.add_of_not_mem mem, index?_push, name?, names_push, getElem?_concat_eq_some_iff]
    by_cases same : name = other
    · subst same
      have nowhere : t.names[i]? ≠ some name := fun here => mem (List.mem_of_getElem? here)
      simp [nowhere, eq_comm]
    · simpa [same, name?] using coherent other i

theorem addAll (names : List String) : (t.addAll names).Coherent := by
  induction names generalizing t with
  | nil => exact coherent
  | cons name names ih => exact ih (coherent.add name)

theorem index?_addAll (known : t.index? name = some i) :
    (t.addAll names).index? name = some i := by
  induction names generalizing t with
  | nil => exact known
  | cons first names ih => exact ih (coherent.add first) (coherent.index?_add known)

end Coherent

theorem coherent_ofList (names : List String) : (ofList names).Coherent :=
  coherent_empty.addAll names

theorem firstOccurrences_ofList (names : List String) :
    FirstOccurrences names (ofList names).names := by
  induction names using List.reverseRecOn with
  | nil => exact ⟨fun _ => Iff.rfl, .nil⟩
  | append_singleton names name ih =>
      rw [ofList_concat]
      by_cases mem : name ∈ (ofList names).names
      · rw [(coherent_ofList names).add_of_mem mem]
        exact ih.concat_of_mem mem
      · rw [(coherent_ofList names).names_add_of_not_mem mem]
        exact ih.concat_of_not_mem mem

theorem names_ofList (names : List String) :
    (ofList names).names = (Alphabet.ofList names).names := by
  induction names using List.reverseRecOn with
  | nil => rfl
  | append_singleton names name ih =>
      rw [ofList_concat, Alphabet.ofList, List.foldl_concat, ← Alphabet.ofList]
      by_cases mem : name ∈ (ofList names).names
      · rw [(coherent_ofList names).add_of_mem mem, Alphabet.names_add_of_mem (ih ▸ mem), ih]
      · rw [(coherent_ofList names).names_add_of_not_mem mem,
          Alphabet.names_add_of_not_mem (ih ▸ mem), ih]

theorem index?_ofList (names : List String) (name : String) :
    (ofList names).index? name = (Alphabet.ofList names).index? name := by
  refine Option.ext fun i => ?_
  rw [coherent_ofList, Alphabet.index?_eq_some_iff, name?, names_ofList, Alphabet.name?]

theorem ofList_toList (names : List String) : ofList (ofList names).toList = ofList names := by
  refine (coherent_ofList _).ext (coherent_ofList names) ?_
  rw [names_ofList, toList, names_ofList, Alphabet.ofList_names]

theorem index?_ofList_append {front behind : List String} (new : name ∉ front) :
    (ofList (front ++ name :: behind)).index? name = some front.eraseDups.length := by
  have apart : (name :: behind).removeAll front = name :: behind.removeAll front := by
    simp [List.removeAll, new]
  have names : (ofList (front ++ name :: behind)).names =
      front.eraseDups ++ (name :: behind.removeAll front).eraseDups := by
    rw [(firstOccurrences_ofList _).unique (firstOccurrences_eraseDups _), List.eraseDups_append,
      apart]
  rw [coherent_ofList, name?, names, List.eraseDups_cons,
    List.getElem?_append_right (Nat.le_refl _), Nat.sub_self, List.getElem?_cons_zero]

theorem index?_of_added (before : List String) (name : String) (after : List String) :
    (ofList (before ++ name :: after)).index? name = some ((ofList before).add name).1 := by
  have front : ofList (before ++ name :: after) = ((ofList before).add name).2.addAll after :=
    addAll_append empty before (name :: after)
  rw [front]
  exact ((coherent_ofList before).add name).index?_addAll (coherent_ofList before).index?_add_self

/-- What can be relied on in a table to which spellings have been added one after the other. -/
structure Interned (calls : List String) (t : Interner) : Prop where
  order : FirstOccurrences calls t.names
  nodup : t.names.Nodup
  index?_eq_some_iff : ∀ name i, t.index? name = some i ↔ t.name? i = some name
  kept : ∀ before name after, calls = before ++ name :: after →
    t.index? name = some ((ofList before).add name).1 ∧
      t.add name = (((ofList before).add name).1, t)
  place : ∀ front name behind, calls = front ++ name :: behind → name ∉ front →
    t.index? name = some front.eraseDups.length
  rebuilt : ofList t.toList = t
  alphabet : t.names = (Alphabet.ofList calls).names ∧
    ∀ name, t.index? name = (Alphabet.ofList calls).index? name

theorem interned_ofList (calls : List String) : (ofList calls).Interned calls where
  order := firstOccurrences_ofList calls
  nodup := (coherent_ofList calls).nodup
  index?_eq_some_iff := coherent_ofList calls
  kept := by
    rintro before name after rfl
    have known := index?_of_added before name after
    exact ⟨known, add_of_index? known⟩
  place := by
    rintro front name behind rfl new
    exact index?_ofList_append new
  rebuilt := ofList_toList calls
  alphabet := ⟨names_ofList calls, index?_ofList calls⟩

end Interner

theorem Construction.relisted_eq (c : Construction) : c.relisted = c := by
  rw [relisted, Alphabet.ofList_names, Alphabet.ofList_names]

end ShiftReduce
