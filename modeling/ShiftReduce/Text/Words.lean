/-!
Cutting text into lines and words and joining them again. Blanks are the characters of the Unicode
property White_Space, and words are the maximal runs of other characters, so `spaced (words s)` is
`s` with every gap reduced to one space; cutting that text again gives the same words.
-/

namespace ShiftReduce.Text

/-- Runs of blank code points, first and last included. -/
def blankRuns : List (Nat × Nat) := [
  (0x09, 0x0D), (0x20, 0x20), (0x85, 0x85), (0xA0, 0xA0), (0x1680, 0x1680), (0x2000, 0x200A),
  (0x2028, 0x2029), (0x202F, 0x202F), (0x205F, 0x205F), (0x3000, 0x3000)]

def isBlank (c : Char) : Bool :=
  blankRuns.any fun run => run.1 ≤ c.toNat && c.toNat ≤ run.2

theorem isBlank_of_isWhitespace {c : Char} (h : c.isWhitespace) : isBlank c := by
  simp only [Char.isWhitespace, Bool.or_eq_true, decide_eq_true_eq] at h
  rcases h with ((rfl | rfl) | rfl) | rfl <;> decide

def lines (text : String) : List String :=
  (text.toList.splitOnP (· == '\n')).map String.ofList

def runs (cs : List Char) : List (List Char) :=
  (cs.splitOnP isBlank).filter fun run => !run.isEmpty

def words (text : String) : List String := (runs text.toList).map String.ofList

def spaced (parts : List String) : String :=
  " ".intercalate parts

/-- Ends every line with a line feed, the last one too. -/
def unlines (parts : List String) : String :=
  String.join (parts.map (· ++ "\n"))

def IsWord (word : String) : Prop := word ≠ "" ∧ ∀ c ∈ word.toList, isBlank c = false

theorem runs_nil : runs [] = [] := by
  simp [runs, List.splitOnP_nil]

theorem runs_append_blank {c : Char} (blank : isBlank c) (xs ys : List Char) :
    runs (xs ++ c :: ys) = runs xs ++ runs ys := by
  simp [runs, List.splitOnP_append_cons xs ys blank]

theorem runs_of_solid {cs : List Char} (some_char : cs ≠ []) (solid : ∀ c ∈ cs, isBlank c = false) :
    runs cs = [cs] := by
  simp [runs, List.splitOnP_eq_singleton solid, some_char]

theorem mem_of_mem_splitOnP {α : Type} {p : α → Bool} {xs part : List α}
    (h : part ∈ xs.splitOnP p) : ∀ x ∈ part, x ∈ xs ∧ p x = false := by
  induction xs generalizing part with
  | nil =>
      rw [List.splitOnP_nil, List.mem_singleton] at h
      simp [h]
  | cons x xs ih =>
      have later {part : List α} (h : part ∈ xs.splitOnP p) :
          ∀ y ∈ part, y ∈ x :: xs ∧ p y = false :=
        fun y hy => ⟨List.mem_cons_of_mem x (ih h y hy).1, (ih h y hy).2⟩
      rw [List.splitOnP_cons_eq_if_modifyHead] at h
      split at h
      · rcases List.mem_cons.1 h with rfl | h
        · simp
        · exact later h
      · rename_i solid
        obtain ⟨first, others, cut⟩ := List.exists_cons_of_ne_nil (List.splitOnP_ne_nil p xs)
        rw [cut, List.modifyHead_cons] at h
        rcases List.mem_cons.1 h with rfl | h
        · intro y hy
          rcases List.mem_cons.1 hy with rfl | hy
          · exact ⟨List.mem_cons_self, by simpa using solid⟩
          · exact later (cut ▸ List.mem_cons_self) y hy
        · exact later (cut ▸ List.mem_cons_of_mem _ h)

theorem isWord_of_mem_words {text word : String} (h : word ∈ words text) : IsWord word := by
  obtain ⟨run, kept, rfl⟩ := List.mem_map.1 h
  obtain ⟨cut, some_char⟩ := List.mem_filter.1 kept
  refine ⟨by simpa using some_char, fun c hc => ?_⟩
  rw [String.toList_ofList] at hc
  exact (mem_of_mem_splitOnP cut c hc).2

theorem isWord_of_toList_eq {word : String} {c : Char} (char : word.toList = [c])
    (solid : isBlank c = false) : IsWord word := by
  refine ⟨?_, fun d hd => ?_⟩
  · rw [Ne, ← String.toList_eq_nil_iff, char]
    exact List.cons_ne_nil c []
  · rw [char, List.mem_singleton] at hd
    rw [hd, solid]

theorem words_empty : words "" = [] := by
  simp [words, runs_nil]

theorem words_of_isWord {word : String} (h : IsWord word) : words word = [word] := by
  have some_char : word.toList ≠ [] := by simpa using h.1
  simp [words, runs_of_solid some_char h.2]

theorem words_append_space (s t : String) : words (s ++ " " ++ t) = words s ++ words t := by
  have blank : isBlank ' ' := by decide
  simp [words, runs_append_blank blank]

theorem words_spaced {parts : List String} (h : ∀ word ∈ parts, IsWord word) :
    words (spaced parts) = parts := by
  induction parts with
  | nil => exact words_empty
  | cons first others ih =>
      have head := words_of_isWord (h first (by simp))
      cases others with
      | nil => simpa [spaced] using head
      | cons second others =>
          rw [spaced, String.intercalate_cons_cons, words_append_space, head]
          have tail := ih fun word hw => h word (by simp [hw])
          rw [spaced] at tail
          rw [tail]
          rfl

theorem words_spaced_words (text : String) : words (spaced (words text)) = words text :=
  words_spaced fun _ => isWord_of_mem_words

end ShiftReduce.Text
