import Mathlib.Logic.Function.Defs
import ShiftReduce.Text.Words

/-!
What is written can be read again. Texts put together from lines fall into the same lines if no line
holds a line feed (`lines_intercalate`, `lines_unlines`), and a number is read back from its decimal
numeral (`number?_toString`), which consists of digits only.
-/

namespace ShiftReduce.Text

variable {ls : List String}

theorem lines_intercalate (some_line : ls ≠ []) (unbroken : ∀ l ∈ ls, '\n' ∉ l.toList) :
    lines ("\n".intercalate ls) = ls := by
  have cut : (['\n'].intercalate (ls.map String.toList)).splitOnP (· == '\n') =
      ls.map String.toList := by
    refine List.splitOn_intercalate '\n' ?_ (by simpa using some_line)
    simpa using unbroken
  rw [lines, String.toList_intercalate]
  show List.map _ ((['\n'].intercalate _).splitOnP _) = _
  rw [cut, List.map_map]
  exact List.map_id'' (fun _ => String.ofList_toList) ls

/-- Nothing stands behind the last line feed. -/
theorem unlines_eq_intercalate (ls : List String) :
    unlines ls = "\n".intercalate (ls ++ [""]) := by
  induction ls with
  | nil => rfl
  | cons l ls ih =>
      rw [List.cons_append, String.intercalate_cons_of_ne_nil (by simp), ← ih]
      simp [unlines, String.append_assoc]

theorem lines_unlines (unbroken : ∀ l ∈ ls, '\n' ∉ l.toList) : lines (unlines ls) = ls ++ [""] := by
  rw [unlines_eq_intercalate, lines_intercalate (by simp)]
  intro l hl
  rcases List.mem_append.1 hl with mem | last
  · exact unbroken l mem
  · simp [List.mem_singleton.1 last]

theorem IsWord.newline_not_mem {word : String} (isWord : IsWord word) : '\n' ∉ word.toList :=
  fun mem => absurd (isWord.2 _ mem) (by decide)

def number? (cs : List Char) : Option Nat :=
  if !cs.isEmpty && cs.all Char.isDigit then some (Nat.ofDigitChars 10 cs 0) else none

theorem toList_toString (n : Nat) : (toString n).toList = Nat.toDigits 10 n := by
  rw [Nat.toString_eq_ofList_toDigits, String.toList_ofList]

theorem isDigit_of_mem_toString {n : Nat} {c : Char} (mem : c ∈ (toString n).toList) :
    c.isDigit := by
  rw [toList_toString] at mem
  exact Nat.isDigit_of_mem_toDigits (by decide) (by decide) mem

theorem not_mem_toString {c : Char} (other : c.isDigit = false) (n : Nat) :
    c ∉ (toString n).toList := by
  intro mem
  rw [isDigit_of_mem_toString mem] at other
  cases other

theorem number?_toString (n : Nat) : number? (toString n).toList = some n := by
  have digits : (toString n).toList.all Char.isDigit :=
    List.all_eq_true.2 fun _ mem => isDigit_of_mem_toString mem
  rw [toList_toString] at digits ⊢
  have some_digit : (Nat.toDigits 10 n).isEmpty = false := by simp [Nat.toDigits_ne_nil]
  rw [number?, digits, some_digit, Nat.ofDigitChars_ten_toDigits]
  rfl

theorem number?_cons_eq_none {c : Char} (other : c.isDigit = false) (cs : List Char) :
    number? (c :: cs) = none := by
  simp [number?, other]

theorem toString_injective : Function.Injective (toString : Nat → String) := by
  intro m n same
  have read := number?_toString m
  rw [same, number?_toString] at read
  exact (Option.some.inj read).symm

end ShiftReduce.Text
