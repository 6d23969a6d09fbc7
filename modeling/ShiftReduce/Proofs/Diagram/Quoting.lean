import Mathlib.Data.List.Basic
import ShiftReduce.Diagram

/-!
Lines of DOT text. A line is bare text with strings in quotes in it. Inside of the quotes a
backslash stands in front of every quote and every backslash of the data (`toList_escape`), and also
in front of the letter of a mark that ends a line; so a string ends at the first quote that is met,
and a line that is written is read back whatever its strings show (`Line.read?_write`).
-/

namespace ShiftReduce.Dot

open Diagram (escape escapeChar)

def replaceAll (c : Char) (by_chars : List Char) (cs : List Char) : List Char :=
  cs.flatMap fun d => if d = c then by_chars else [d]

/-- First the backslashes are doubled: those in front of quotes come after that. -/
theorem toList_escape (s : String) : (escape s).toList =
    replaceAll '"' ['\\', '"'] (replaceAll '\\' ['\\', '\\'] s.toList) := by
  rw [escape, String.toList_ofList, replaceAll, replaceAll, List.flatMap_assoc]
  refine List.flatMap_congr fun c _ => ?_
  rw [escapeChar]
  split
  · rfl
  · simp

/-- What a string shows: characters, and two ways to end a line. -/
inductive Mark where
  | char (c : Char)
  | lineEnd
  | lineBreak
deriving DecidableEq

namespace Mark

def write : Mark → List Char
  | char c => escapeChar c
  | lineEnd => ['\\', 'l']
  | lineBreak => ['\\', 'n']

def char? : Mark → Option Char
  | char c => some c
  | _ => none

def ofEscaped? : Char → Option Mark
  | '\\' => some (char '\\')
  | '"' => some (char '"')
  | 'l' => some lineEnd
  | 'n' => some lineBreak
  | _ => none

end Mark

/-- Strings with the bare text behind each of them. -/
abbrev Strings := List (List Mark × List Char)

structure Line where
  front : List Char
  strings : Strings
deriving DecidableEq

def writeString (marks : List Mark) : List Char := marks.flatMap Mark.write

def writeStrings : Strings → List Char
  | [] => []
  | (marks, bare) :: strings => '"' :: writeString marks ++ '"' :: bare ++ writeStrings strings

def Line.write (line : Line) : List Char := line.front ++ writeStrings line.strings

mutual

def outside? : List Char → Option (List Char × Strings)
  | [] => some ([], [])
  | '"' :: cs => do
      let (marks, bare, strings) ← inside? cs
      return ([], (marks, bare) :: strings)
  | c :: cs => do
      let (bare, strings) ← outside? cs
      return (c :: bare, strings)

/-- Reads a string up to a quote with no backslash in front of it. -/
def inside? : List Char → Option (List Mark × List Char × Strings)
  | [] => none
  | '"' :: cs => do
      let (bare, strings) ← outside? cs
      return ([], bare, strings)
  | ['\\'] => none
  | '\\' :: c :: cs => do
      let mark ← Mark.ofEscaped? c
      let (marks, behind) ← inside? cs
      return (mark :: marks, behind)
  | c :: cs => do
      let (marks, behind) ← inside? cs
      return (.char c :: marks, behind)

end

def Line.read? (cs : List Char) : Option Line := do
  let (front, strings) ← outside? cs
  return ⟨front, strings⟩

structure Line.Plain (line : Line) : Prop where
  front : '"' ∉ line.front
  bare : ∀ string ∈ line.strings, '"' ∉ string.2

theorem outside?_quote (cs : List Char) : outside? ('"' :: cs) =
    (inside? cs).map fun (marks, bare, strings) => ([], (marks, bare) :: strings) := by
  rw [outside?]
  cases inside? cs <;> rfl

theorem inside?_quote (cs : List Char) :
    inside? ('"' :: cs) = (outside? cs).map fun (bare, strings) => ([], bare, strings) := by
  rw [inside?]
  cases outside? cs <;> rfl

theorem outside?_append {bare : List Char} (no_quote : '"' ∉ bare) (cs : List Char) :
    outside? (bare ++ cs) =
      (outside? cs).map fun (behind, strings) => (bare ++ behind, strings) := by
  induction bare with
  | nil => simp
  | cons c bare ih =>
      have other : c ≠ '"' := fun same => no_quote (same ▸ List.mem_cons_self)
      rw [List.cons_append, outside?.eq_3 _ _ other,
        ih fun mem => no_quote (List.mem_cons_of_mem c mem)]
      cases outside? cs <;> rfl

theorem inside?_escaped {c : Char} {mark : Mark} (meaning : Mark.ofEscaped? c = some mark)
    (cs : List Char) : inside? ('\\' :: c :: cs) =
      (inside? cs).map fun (marks, behind) => (mark :: marks, behind) := by
  rw [inside?, meaning]
  cases inside? cs <;> rfl

theorem inside?_char {c : Char} (quote : c ≠ '"') (backslash : c ≠ '\\') (cs : List Char) :
    inside? (c :: cs) = (inside? cs).map fun (marks, behind) => (.char c :: marks, behind) := by
  rw [inside?.eq_5 c cs quote (fun same => absurd same backslash) fun _ _ same =>
    absurd same backslash]
  cases inside? cs <;> rfl

theorem inside?_write (mark : Mark) (cs : List Char) :
    inside? (mark.write ++ cs) =
      (inside? cs).map fun (marks, behind) => (mark :: marks, behind) := by
  cases mark with
  | char c =>
      rw [Mark.write, escapeChar]
      split
      · rename_i backslash
        subst backslash
        exact inside?_escaped rfl cs
      · split
        · rename_i quote
          subst quote
          exact inside?_escaped rfl cs
        · rename_i backslash quote
          exact inside?_char quote backslash cs
  | lineEnd => exact inside?_escaped rfl cs
  | lineBreak => exact inside?_escaped rfl cs

theorem inside?_writeString (marks : List Mark) (cs : List Char) :
    inside? (writeString marks ++ cs) =
      (inside? cs).map fun (behind, rest) => (marks ++ behind, rest) := by
  induction marks with
  | nil => simp [writeString]
  | cons mark marks ih =>
      rw [writeString, List.flatMap_cons, List.append_assoc, inside?_write, ← writeString, ih,
        Option.map_map]
      rfl

theorem outside?_writeStrings {strings : Strings} (bare : ∀ string ∈ strings, '"' ∉ string.2) :
    outside? (writeStrings strings) = some ([], strings) := by
  induction strings with
  | nil => rfl
  | cons string strings ih =>
      obtain ⟨marks, behind⟩ := string
      obtain ⟨first, others⟩ := List.forall_mem_cons.1 bare
      have text : writeStrings ((marks, behind) :: strings) =
          '"' :: (writeString marks ++ '"' :: (behind ++ writeStrings strings)) := by
        simp [writeStrings]
      rw [text, outside?_quote, inside?_writeString, inside?_quote, outside?_append first,
        ih others]
      simp

theorem Line.read?_write {line : Line} (plain : line.Plain) : read? line.write = some line := by
  rw [read?, write, outside?_append plain.front, outside?_writeStrings plain.bare]
  simp

theorem Mark.newline_mem_write_iff {mark : Mark} : '\n' ∈ mark.write ↔ mark = .char '\n' := by
  cases mark with
  | char c =>
      rw [write, escapeChar]
      split
      · simp_all
      · split <;> simp_all [eq_comm]
  | lineEnd => simp [write]
  | lineBreak => simp [write]

theorem newline_mem_writeString_iff {marks : List Mark} :
    '\n' ∈ writeString marks ↔ .char '\n' ∈ marks := by
  simp [writeString, Mark.newline_mem_write_iff]

structure Line.Unbroken (line : Line) : Prop where
  front : '\n' ∉ line.front
  strings : ∀ string ∈ line.strings, .char '\n' ∉ string.1 ∧ '\n' ∉ string.2

theorem Line.newline_not_mem_write {line : Line} (unbroken : line.Unbroken) :
    '\n' ∉ line.write := by
  obtain ⟨front, strings⟩ := line
  obtain ⟨no_front, no_string⟩ := unbroken
  have behind : '\n' ∉ writeStrings strings := by
    clear no_front
    induction strings with
    | nil => simp [writeStrings]
    | cons string strings ih =>
        obtain ⟨⟨marks, bare⟩, others⟩ := List.forall_mem_cons.1 no_string
        simp [writeStrings, newline_mem_writeString_iff, marks, bare, ih others]
  exact fun mem => (List.mem_append.1 mem).elim no_front behind

end ShiftReduce.Dot
