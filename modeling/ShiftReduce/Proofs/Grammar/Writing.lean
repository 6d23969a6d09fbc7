import ShiftReduce.Proofs.Grammar.Lines

/-!
Lines that are written for rules. A line made of pieces with a space between them is cut into these
pieces again (`Piece.cut_spaced`), so what can be read from some line can be read from the line that
is written for it (`Writable.reads`).
-/

namespace ShiftReduce

open Text (isBlank spaced isNonterminalName)

theorem mem_intercalate {α : Type} {sep : List α} {xss : List (List α)} {x : α} :
    x ∈ sep.intercalate xss ↔ (1 < xss.length ∧ x ∈ sep) ∨ ∃ xs ∈ xss, x ∈ xs := by
  induction xss with
  | nil => simp
  | cons xs xss ih =>
      cases xss with
      | nil => simp
      | cons ys xss =>
          rw [List.intercalate_cons_cons, List.mem_append, List.mem_append, ih]
          simp only [List.length_cons, List.mem_cons, exists_eq_or_imp]
          grind

namespace Piece

variable {cs : List Char} {ps : List String} {s : String} {c : Char}

/-- What can be cut out of a line: a bar, or characters with no break among them. -/
def Whole (s : String) : Prop := s = "|" ∨ s ≠ "" ∧ ∀ c ∈ s.toList, isBreak c = false

theorem Cut.whole (cut : Cut cs ps) : ∀ s ∈ ps, Whole s := by
  induction cut with
  | nil => simp
  | blank _ _ ih => exact ih
  | bar _ ih => exact List.forall_mem_cons.2 ⟨.inl rfl, ih⟩
  | @word w _ _ some_char solid _ _ ih =>
      refine List.forall_mem_cons.2 ⟨.inr ⟨?_, by rwa [String.toList_ofList]⟩, ih⟩
      rwa [Ne, ← String.toList_inj, String.toList_ofList]

theorem Whole.cut (whole : Whole s) (ends : ∀ c ∈ cs.head?, isBlank c) (rest : Cut cs ps) :
    Cut (s.toList ++ cs) (s :: ps) := by
  rcases whole with rfl | ⟨some_char, solid⟩
  · exact .bar rest
  · have word : Cut (s.toList ++ cs) (String.ofList s.toList :: ps) := by
      refine .word (by simpa using some_char) solid (fun c hc => ?_) rest
      rw [isBreak, ends c hc, Bool.true_or]
    rwa [String.ofList_toList] at word

theorem cut_spaced (whole : ∀ s ∈ ps, Whole s) : Cut (spaced ps).toList ps := by
  induction ps with
  | nil => exact .nil
  | cons s ps ih =>
      obtain ⟨first, others⟩ := List.forall_mem_cons.1 whole
      have rest := ih others
      by_cases last : ps = []
      · subst last
        simpa [spaced] using first.cut (by simp) Cut.nil
      · have line : (spaced (s :: ps)).toList = s.toList ++ ' ' :: (spaced ps).toList := by
          rw [spaced, String.intercalate_cons_of_ne_nil last, String.toList_append,
            String.toList_append, List.append_assoc]
          rfl
        rw [line]
        exact first.cut (by simp [isBlank_space]) (.blank isBlank_space rest)

theorem mem_toList_spaced : c ∈ (spaced ps).toList ↔
    (1 < ps.length ∧ c = ' ') ∨ ∃ s ∈ ps, c ∈ s.toList := by
  rw [spaced, String.toList_intercalate, mem_intercalate, List.length_map]
  simp

end Piece

section

variable {line head s : String} {alts : List (List String)}

structure Writable (head : String) (alts : List (List String)) : Prop where
  symbols : ∀ s ∈ head :: alts.flatten, IsSymbol s ∧ Piece.Whole s
  upper : isNonterminalName head
  some_alt : alts ≠ []
  fine : ∀ alt ∈ alts, Fine alt

def rulePieces (head : String) (alts : List (List String)) : List String :=
  head :: "->" :: ["|"].intercalate alts

/-- A line with the pieces of a rule is not blank, since it has an arrow on it. -/
theorem any_not_blank_rulePieces (head : String) (alts : List (List String)) :
    (spaced (rulePieces head alts)).toList.any fun c => !isBlank c := by
  have arrow : '-' ∈ (spaced (rulePieces head alts)).toList :=
    Piece.mem_toList_spaced.2 (.inr ⟨"->", by simp [rulePieces], by decide⟩)
  exact List.any_eq_true.2 ⟨'-', arrow, by decide⟩

theorem Reads.writable (reads : Reads line head alts) : Writable head alts := by
  obtain ⟨⟨symbol, rest, cut, no_arrow, rfl⟩, upper, fine⟩ := reads
  obtain ⟨whole_head, whole_behind⟩ := List.forall_mem_cons.1 cut.whole
  refine ⟨List.forall_mem_cons.2 ⟨⟨symbol, whole_head⟩, fun s hs => ?_⟩, upper,
    List.splitOnP_ne_nil _ _, fine⟩
  obtain ⟨alt, halt, here⟩ := List.mem_flatten.1 hs
  obtain ⟨mem, no_bar⟩ := Text.mem_of_mem_splitOnP halt s here
  refine ⟨⟨fun same => no_arrow (same ▸ mem), by simpa using no_bar⟩, ?_⟩
  exact whole_behind s (List.mem_cons_of_mem _ mem)

theorem spaced_intercalate_bar (some_alt : alts ≠ []) (fine : ∀ alt ∈ alts, Fine alt) :
    ["|"].intercalate alts ≠ [] ∧
      spaced (["|"].intercalate alts) = " | ".intercalate (alts.map spaced) := by
  induction alts with
  | nil => exact absurd rfl some_alt
  | cons alt alts ih =>
      obtain ⟨⟨some_symbol, _⟩, others⟩ := List.forall_mem_cons.1 fine
      cases alts with
      | nil => simpa using some_symbol
      | cons next alts =>
          obtain ⟨some_behind, behind⟩ := ih (List.cons_ne_nil _ _) others
          have bar : " | " = " " ++ "|" ++ " " := rfl
          refine ⟨by simp, ?_⟩
          rw [List.intercalate_cons_cons, List.append_assoc, spaced,
            String.intercalate_append_of_ne_nil some_symbol (by simp), List.singleton_append,
            String.intercalate_cons_of_ne_nil some_behind, List.map_cons,
            String.intercalate_cons_of_ne_nil (by simp), ← behind, bar]
          simp only [spaced, String.append_assoc]

theorem Writable.gather (some_alt : alts ≠ [])
    (each : ∀ alt ∈ alts, ∃ line others, Reads line head others ∧ alt ∈ others) :
    Writable head alts := by
  have writable : ∀ alt ∈ alts, ∃ others, Writable head others ∧ alt ∈ others := by
    intro alt halt
    obtain ⟨line, others, reads, mem⟩ := each alt halt
    exact ⟨others, reads.writable, mem⟩
  obtain ⟨alt, halt⟩ := List.exists_mem_of_ne_nil alts some_alt
  obtain ⟨_, first, _⟩ := writable alt halt
  refine ⟨List.forall_mem_cons.2 ⟨first.symbols head List.mem_cons_self, fun s hs => ?_⟩,
    first.upper, some_alt, fun alt halt => ?_⟩
  · obtain ⟨alt, halt, here⟩ := List.mem_flatten.1 hs
    obtain ⟨others, written, mem⟩ := writable alt halt
    exact written.symbols s (List.mem_cons_of_mem head (List.mem_flatten.2 ⟨alt, mem, here⟩))
  · obtain ⟨others, written, mem⟩ := writable alt halt
    exact written.fine alt mem

namespace Writable

variable (writable : Writable head alts)

include writable

theorem whole_of_mem (hs : s ∈ rulePieces head alts) : Piece.Whole s := by
  rcases List.mem_cons.1 hs with rfl | hs
  · exact (writable.symbols s List.mem_cons_self).2
  · rcases List.mem_cons.1 hs with rfl | hs
    · exact .inr ⟨by decide, by simp [Piece.isBreak, Text.isBlank, Text.blankRuns]⟩
    · rcases mem_intercalate.1 hs with ⟨_, bar⟩ | ⟨alt, halt, here⟩
      · exact .inl (List.mem_singleton.1 bar)
      · have mem : s ∈ alts.flatten := List.mem_flatten.2 ⟨alt, halt, here⟩
        exact (writable.symbols s (List.mem_cons_of_mem head mem)).2

theorem reads : Reads (spaced (rulePieces head alts)) head alts := by
  have symbol_of_mem : ∀ alt ∈ alts, ∀ s ∈ alt, IsSymbol s := fun alt halt s hs =>
    (writable.symbols s (List.mem_cons_of_mem head (List.mem_flatten.2 ⟨alt, halt, hs⟩))).1
  refine ⟨⟨(writable.symbols head List.mem_cons_self).1, ["|"].intercalate alts,
    Piece.cut_spaced fun s => writable.whole_of_mem, fun arrow => ?_, ?_⟩, writable.upper,
    writable.fine⟩
  · rcases mem_intercalate.1 arrow with ⟨_, bar⟩ | ⟨alt, halt, here⟩
    · exact absurd (List.mem_singleton.1 bar) (by decide)
    · exact (symbol_of_mem alt halt _ here).1 rfl
  · have no_bar : ∀ alt ∈ alts, "|" ∉ alt := fun alt halt here =>
      (symbol_of_mem alt halt _ here).2 rfl
    exact (List.splitOn_intercalate "|" no_bar writable.some_alt).symm

theorem spaced_rulePieces : spaced (rulePieces head alts) =
    head ++ " -> " ++ " | ".intercalate (alts.map spaced) := by
  obtain ⟨some_behind, behind⟩ := spaced_intercalate_bar writable.some_alt writable.fine
  have arrow : " -> " = " " ++ "->" ++ " " := rfl
  rw [← behind, rulePieces, spaced, String.intercalate_cons_cons,
    String.intercalate_cons_of_ne_nil some_behind, arrow]
  simp only [spaced, String.append_assoc]

theorem not_mem_line : '\n' ∉ (spaced (rulePieces head alts)).toList := by
  intro mem
  rcases Piece.mem_toList_spaced.1 mem with ⟨_, space⟩ | ⟨s, hs, here⟩
  · exact absurd space (by decide)
  · rcases writable.whole_of_mem hs with rfl | ⟨_, solid⟩
    · exact absurd here (by decide)
    · exact absurd (solid _ here) (by decide)

end Writable

end

end ShiftReduce
