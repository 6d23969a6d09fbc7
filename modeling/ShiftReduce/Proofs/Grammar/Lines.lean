import ShiftReduce.Proofs.Grammar.Cutting
import ShiftReduce.Proofs.Grammar.WellFormed

/-!
Which lines are rules, by the spellings of their pieces. A line has the right shape if it is a
symbol, an arrow, and no further arrow; what stands between the bars behind the arrow are its
alternatives. `Reads` says which lines are rules and `Offends` what is wrong with any other one,
where the shape is judged first, then the head, and then the alternatives from the left; a reader of
lines answers accordingly (`ofLine_eq_error_iff`, `ofLine_eq_ok_iff_reads`).
-/

namespace ShiftReduce

open Piece (Cut spaceBars)
open Text (spaced singleSpaced isNonterminalName)

def IsSymbol (s : String) : Prop := s ≠ "->" ∧ s ≠ "|"

def Shaped (line head : String) (alts : List (List String)) : Prop :=
  IsSymbol head ∧ ∃ rest, Cut line.toList (head :: "->" :: rest) ∧ "->" ∉ rest ∧
    alts = rest.splitOnP (· == "|")

/-- An alternative has symbols, and the empty marker stands alone. -/
def Fine (alt : List String) : Prop :=
  alt ≠ [] ∧ ¬ (1 < alt.length ∧ Grammar.emptySpelling ∈ alt)

structure Reads (line head : String) (alts : List (List String)) : Prop where
  shaped : Shaped line head alts
  upper : isNonterminalName head
  fine : ∀ alt ∈ alts, Fine alt

/-- The first thing that is wrong with a line. -/
inductive Offends (line : String) : Refusal → Prop
  | malformed (unshaped : ∀ head alts, ¬ Shaped line head alts) :
      Offends line (.malformed (singleSpaced line))
  | invalidHead {head : String} {alts : List (List String)} (shaped : Shaped line head alts)
      (lower : ¬ isNonterminalName head) : Offends line (.invalidHead head)
  | emptyBody {head : String} {before after : List (List String)}
      (shaped : Shaped line head (before ++ [] :: after)) (upper : isNonterminalName head)
      (fine : ∀ alt ∈ before, Fine alt) : Offends line (.emptyBody head)
  | misplacedEmpty {head : String} {before after : List (List String)} {alt : List String}
      (shaped : Shaped line head (before ++ alt :: after)) (upper : isNonterminalName head)
      (fine : ∀ alt ∈ before, Fine alt) (several : 1 < alt.length)
      (marker : Grammar.emptySpelling ∈ alt) : Offends line (.misplacedEmpty head (spaced alt))

def wordsOf (alt : List String) : List Word := alt.map Word.ofSpelling

theorem spelling_wordsOf (alt : List String) : (wordsOf alt).map Word.spelling = alt := by
  rw [wordsOf, List.map_map]
  exact List.map_id'' Word.spelling_ofSpelling alt

namespace Piece

variable {s : String} {ps : List String}

theorem ofSpelling_arrow : ofSpelling "->" = .arrow := rfl

theorem ofSpelling_symbol (h : IsSymbol s) : ofSpelling s = .word (.ofSpelling s) := by
  rw [ofSpelling, if_neg h.1, if_neg h.2]

theorem ofSpelling_eq_arrow_iff : ofSpelling s = .arrow ↔ s = "->" := by
  unfold ofSpelling
  split
  · simp_all
  · split <;> simp_all

theorem ofSpelling_eq_word_iff {w : Word} :
    ofSpelling s = .word w ↔ IsSymbol s ∧ Word.ofSpelling s = w := by
  unfold ofSpelling IsSymbol
  split
  · simp_all
  · split <;> simp_all

theorem ofLine_of_cut {line : String} (cut : Cut line.toList ps) :
    ofLine line = ps.map ofSpelling := by
  rw [ofLine, cut_iff.1 cut]

theorem cut_singleSpaced_iff {line : String} :
    Cut (singleSpaced line).toList ps ↔ Cut line.toList ps := by
  rw [cut_iff, cut_iff, words_spaceBars_singleSpaced]

end Piece

namespace Rule

variable {line head : String} {alt : List String} {alts : List (List String)} {ps : List String}
  {e : Refusal} {r : Rule}

theorem bodies?_map_ofSpelling (h : "->" ∉ ps) :
    bodies? (ps.map Piece.ofSpelling) = some ((ps.splitOnP (· == "|")).map wordsOf) := by
  induction ps with
  | nil => simp [bodies?, List.splitOnP_nil, wordsOf]
  | cons s ps ih =>
      have rest := ih fun mem => h (List.mem_cons_of_mem s mem)
      have no_arrow : s ≠ "->" := fun same => h (same ▸ List.mem_cons_self)
      rw [List.splitOnP_cons_eq_if_modifyHead, List.map_cons]
      by_cases bar : s = "|"
      · subst bar
        have is_bar : Piece.ofSpelling "|" = .bar := rfl
        simp [bodies?, is_bar, rest, wordsOf]
      · obtain ⟨first, others, split⟩ :=
          List.exists_cons_of_ne_nil (List.splitOnP_ne_nil (· == "|") ps)
        simp [bodies?, Piece.ofSpelling_symbol ⟨no_arrow, bar⟩, rest, bar, split, wordsOf]

theorem bodies?_eq_none_of_mem (h : "->" ∈ ps) : bodies? (ps.map Piece.ofSpelling) = none := by
  induction ps with
  | nil => cases h
  | cons s ps ih =>
      rw [List.map_cons]
      cases kind : Piece.ofSpelling s with
      | arrow => rfl
      | bar =>
          have other : s ≠ "->" := fun same => by rw [same] at kind; cases kind
          have mem := (List.mem_cons.1 h).resolve_left (Ne.symm other)
          rw [bodies?, ih mem, Option.map_none]
      | word w =>
          have other : s ≠ "->" := fun same => by rw [same] at kind; cases kind
          have mem := (List.mem_cons.1 h).resolve_left (Ne.symm other)
          rw [bodies?, ih mem, Option.map_none]

theorem pieces_of_shaped (shaped : Shaped line head alts) :
    ∃ rest, Piece.ofLine line = .word (.ofSpelling head) :: .arrow :: rest ∧
      bodies? rest = some (alts.map wordsOf) := by
  obtain ⟨symbol, rest, cut, no_arrow, rfl⟩ := shaped
  refine ⟨rest.map Piece.ofSpelling, ?_, bodies?_map_ofSpelling no_arrow⟩
  rw [Piece.ofLine_of_cut cut, List.map_cons, List.map_cons, Piece.ofSpelling_symbol symbol,
    Piece.ofSpelling_arrow]

theorem shaped_of_pieces {w : Word} {rest : List Piece} {bodies : List (List Word)}
    (pieces : Piece.ofLine line = .word w :: .arrow :: rest) (read : bodies? rest = some bodies) :
    ∃ head alts, Shaped line head alts := by
  obtain ⟨ps, cut⟩ := Piece.exists_cut line.toList
  rw [Piece.ofLine_of_cut cut] at pieces
  obtain ⟨head, ps, rfl, kind, pieces⟩ := List.map_eq_cons_iff.1 pieces
  obtain ⟨arrow, ps, rfl, arrow_kind, rfl⟩ := List.map_eq_cons_iff.1 pieces
  obtain rfl := Piece.ofSpelling_eq_arrow_iff.1 arrow_kind
  refine ⟨head, _, (Piece.ofSpelling_eq_word_iff.1 kind).1, ps, cut, fun mem => ?_, rfl⟩
  rw [bodies?_eq_none_of_mem mem] at read
  cases read

theorem empty_mem_wordsOf : Word.empty ∈ wordsOf alt ↔ Grammar.emptySpelling ∈ alt := by
  have marker (s : String) : Word.ofSpelling s = .empty ↔ s = Grammar.emptySpelling := by
    unfold Word.ofSpelling
    split
    · simp_all
    · split <;> simp_all
  simp [wordsOf, marker]

theorem bodyError?_nil : bodyError? head (wordsOf []) = some (.emptyBody head) := rfl

theorem bodyError?_of_several (several : 1 < alt.length) (marker : Grammar.emptySpelling ∈ alt) :
    bodyError? head (wordsOf alt) = some (.misplacedEmpty head (spaced alt)) := by
  have some_word : (wordsOf alt).isEmpty = false := by
    rw [List.isEmpty_eq_false_iff]
    exact List.ne_nil_of_mem (empty_mem_wordsOf.2 marker)
  have listed : (wordsOf alt).length = alt.length := List.length_map _
  simp [bodyError?, some_word, listed, several, empty_mem_wordsOf.2 marker, spelling_wordsOf]

theorem bodyError?_of_fine (fine : Fine alt) : bodyError? head (wordsOf alt) = none := by
  have some_word : (wordsOf alt).isEmpty = false := by
    rw [List.isEmpty_eq_false_iff, wordsOf]
    exact fine.1 ∘ List.map_eq_nil_iff.1
  have listed : (wordsOf alt).length = alt.length := List.length_map _
  have single : 1 < alt.length → Word.empty ∉ wordsOf alt := fun several mem =>
    fine.2 ⟨several, empty_mem_wordsOf.1 mem⟩
  simpa [bodyError?, some_word, listed] using single

theorem findSome?_of_first {before after : List (List String)}
    (fine : ∀ alt ∈ before, Fine alt) (wrong : bodyError? head (wordsOf alt) = some e) :
    ((before ++ alt :: after).map wordsOf).findSome? (bodyError? head) = some e := by
  have none_before : (before.map wordsOf).findSome? (bodyError? head) = none := by
    rw [List.findSome?_eq_none_iff]
    intro body hbody
    obtain ⟨alt, mem, rfl⟩ := List.mem_map.1 hbody
    exact bodyError?_of_fine (fine alt mem)
  rw [List.map_append, List.findSome?_append, none_before, Option.none_or, List.map_cons,
    List.findSome?_cons, wrong]

theorem exists_first_wrong (wrong : ∃ alt ∈ alts, ¬ Fine alt) :
    ∃ before alt after, alts = before ++ alt :: after ∧ ¬ Fine alt ∧ ∀ alt ∈ before, Fine alt := by
  classical
  obtain ⟨alt, mem, hwrong⟩ := wrong
  have found : (alts.find? fun alt => ¬ Fine alt).isSome :=
    List.find?_isSome.2 ⟨alt, mem, by simpa using hwrong⟩
  obtain ⟨alt, found⟩ := Option.isSome_iff_exists.1 found
  obtain ⟨hwrong, before, after, rfl, fine⟩ := List.find?_eq_some_iff_append.1 found
  exact ⟨before, alt, after, rfl, by simpa using hwrong, by simpa using fine⟩

theorem ofSpelling_of_isNonterminalName (upper : isNonterminalName head) :
    Word.ofSpelling head = .nonterminal head := by
  have other : head ≠ Grammar.emptySpelling := by
    rintro rfl
    revert upper
    decide
  rw [Word.ofSpelling, if_neg other, if_pos upper]

theorem ofLine_of_reads (reads : Reads line head alts) :
    ofLine line = .ok ⟨head, alts.map wordsOf⟩ := by
  obtain ⟨rest, pieces, read⟩ := pieces_of_shaped reads.shaped
  rw [ofSpelling_of_isNonterminalName reads.upper] at pieces
  refine ofLine_eq_ok_iff.2 ⟨rest, pieces, read, List.findSome?_eq_none_iff.2 fun body hbody => ?_⟩
  obtain ⟨alt, mem, rfl⟩ := List.mem_map.1 hbody
  exact bodyError?_of_fine (reads.fine alt mem)

theorem ofLine_of_wrong {before after : List (List String)}
    (shaped : Shaped line head (before ++ alt :: after)) (upper : isNonterminalName head)
    (fine : ∀ alt ∈ before, Fine alt) (wrong : bodyError? head (wordsOf alt) = some e) :
    ofLine line = .error e := by
  obtain ⟨rest, pieces, read⟩ := pieces_of_shaped shaped
  rw [ofSpelling_of_isNonterminalName upper] at pieces
  simp only [ofLine, pieces, read, findSome?_of_first fine wrong]

theorem ofLine_of_lower (shaped : Shaped line head alts) (lower : ¬ isNonterminalName head) :
    ofLine line = .error (.invalidHead head) := by
  obtain ⟨rest, pieces, read⟩ := pieces_of_shaped shaped
  simp only [ofLine, pieces, read]
  split
  · rename_i name kind
    have same : name = head := by rw [← Word.spelling_ofSpelling head, kind, Word.spelling]
    exact absurd (same ▸ Word.isNonterminalName_of_ofSpelling kind) lower
  · rw [Word.spelling_ofSpelling]

theorem ofLine_of_unshaped (unshaped : ∀ head alts, ¬ Shaped line head alts) :
    ofLine line = .error (.malformed line) := by
  unfold ofLine
  split
  · rename_i w rest pieces
    cases read : bodies? rest with
    | none => rfl
    | some bodies =>
        obtain ⟨head, alts, shaped⟩ := shaped_of_pieces pieces read
        exact absurd shaped (unshaped head alts)
  · rfl

theorem shaped_singleSpaced_iff : Shaped (singleSpaced line) head alts ↔ Shaped line head alts := by
  simp only [Shaped, Piece.cut_singleSpaced_iff]

theorem ofLine_of_offends (offends : Offends line e) :
    ofLine (singleSpaced line) = .error e := by
  cases offends with
  | malformed unshaped =>
      refine ofLine_of_unshaped fun head alts shaped => ?_
      exact unshaped head alts (shaped_singleSpaced_iff.1 shaped)
  | invalidHead shaped lower => exact ofLine_of_lower (shaped_singleSpaced_iff.2 shaped) lower
  | emptyBody shaped upper fine =>
      exact ofLine_of_wrong (shaped_singleSpaced_iff.2 shaped) upper fine bodyError?_nil
  | misplacedEmpty shaped upper fine several marker =>
      exact ofLine_of_wrong (shaped_singleSpaced_iff.2 shaped) upper fine
        (bodyError?_of_several several marker)

theorem reads_or_offends (line : String) :
    (∃ head alts, Reads line head alts) ∨ ∃ e, Offends line e := by
  by_cases shape : ∃ head alts, Shaped line head alts
  · obtain ⟨head, alts, shaped⟩ := shape
    by_cases upper : isNonterminalName head
    · by_cases fine : ∀ alt ∈ alts, Fine alt
      · exact .inl ⟨head, alts, shaped, upper, fine⟩
      · right
        push Not at fine
        obtain ⟨before, alt, after, rfl, wrong, fine_before⟩ := exists_first_wrong fine
        rcases Classical.not_and_iff_not_or_not.1 wrong with nothing | several
        · obtain rfl := Classical.not_not.1 nothing
          exact ⟨_, .emptyBody shaped upper fine_before⟩
        · obtain ⟨several, marker⟩ := Classical.not_not.1 several
          exact ⟨_, .misplacedEmpty shaped upper fine_before several marker⟩
    · exact .inr ⟨_, .invalidHead shaped upper⟩
  · push Not at shape
    exact .inr ⟨_, .malformed shape⟩

theorem ofLine_eq_error_iff :
    ofLine (singleSpaced line) = .error e ↔ Offends line e := by
  refine ⟨fun h => ?_, ofLine_of_offends⟩
  rcases reads_or_offends line with ⟨head, alts, reads⟩ | ⟨e', offends⟩
  · have reads' : Reads (singleSpaced line) head alts :=
      ⟨shaped_singleSpaced_iff.2 reads.shaped, reads.upper, reads.fine⟩
    rw [ofLine_of_reads reads'] at h
    cases h
  · rw [ofLine_of_offends offends] at h
    cases h
    exact offends

theorem ofLine_eq_ok_iff_reads :
    ofLine (singleSpaced line) = .ok r ↔
      ∃ alts, Reads line r.head alts ∧ r.bodies = alts.map wordsOf := by
  have ofLine_reads {head : String} {alts : List (List String)} (reads : Reads line head alts) :
      ofLine (singleSpaced line) = .ok ⟨head, alts.map wordsOf⟩ :=
    ofLine_of_reads ⟨shaped_singleSpaced_iff.2 reads.shaped, reads.upper, reads.fine⟩
  apply Iff.intro
  · intro h
    rcases reads_or_offends line with ⟨head, alts, reads⟩ | ⟨e, offends⟩
    · rw [ofLine_reads reads] at h
      cases h
      exact ⟨alts, reads, rfl⟩
    · rw [ofLine_of_offends offends] at h
      cases h
  · intro ⟨alts, reads, bodies⟩
    rw [ofLine_reads reads, ← bodies]

end Rule

end ShiftReduce
