import ShiftReduce.Grammar.Reader

/-!
How a line falls into pieces. `Cut` says it without a program: every bar is a piece, and so is every
longest run of characters that are neither blank nor bars. Blanks around the bars and a cut at the
blanks give exactly these pieces (`cut_iff`), and gaps that are reduced to one space change none of
them (`words_spaceBars_singleSpaced`).
-/

namespace ShiftReduce

def Text.singleSpaced (line : String) : String := spaced (words line)

open Text (isBlank runs words spaced singleSpaced)

namespace Piece

variable {c : Char} {cs xs ys w : List Char} {ps : List String}

def isBreak (c : Char) : Bool := isBlank c || c == '|'

inductive Cut : List Char → List String → Prop
  | nil : Cut [] []
  | blank {c : Char} {cs : List Char} {ps : List String} (blank : isBlank c) (rest : Cut cs ps) :
      Cut (c :: cs) ps
  | bar {cs : List Char} {ps : List String} (rest : Cut cs ps) : Cut ('|' :: cs) ("|" :: ps)
  | word {w cs : List Char} {ps : List String} (some_char : w ≠ [])
      (solid : ∀ c ∈ w, isBreak c = false) (longest : ∀ c ∈ cs.head?, isBreak c)
      (rest : Cut cs ps) : Cut (w ++ cs) (String.ofList w :: ps)

def spread (cs : List Char) : List Char :=
  cs.flatMap fun c => if c = '|' then [' ', '|', ' '] else [c]

theorem toList_spaceBars (s : String) : (spaceBars s).toList = spread s.toList :=
  String.toList_ofList

theorem isBlank_space : isBlank ' ' := by decide

theorem not_isBlank_bar : isBlank '|' = false := by decide

theorem spread_append : spread (xs ++ ys) = spread xs ++ spread ys :=
  List.flatMap_append

theorem spread_of_no_bar (h : '|' ∉ cs) : spread cs = cs := by
  induction cs with
  | nil => rfl
  | cons c cs ih =>
      have first : c ≠ '|' := fun same => h (same ▸ List.mem_cons_self)
      have rest := ih fun mem => h (List.mem_cons_of_mem c mem)
      rw [spread, List.flatMap_cons, if_neg first, ← spread, rest, List.singleton_append]

theorem spread_blank (blank : isBlank c) : spread (c :: cs) = c :: spread cs := by
  have no_bar : c ≠ '|' := by
    rintro rfl
    rw [not_isBlank_bar] at blank
    cases blank
  rw [spread, List.flatMap_cons, if_neg no_bar, List.singleton_append, spread]

theorem spread_bar : spread ('|' :: cs) = ' ' :: ['|'] ++ ' ' :: spread cs := rfl

theorem runs_blank (blank : isBlank c) : runs (c :: cs) = runs cs := by
  have split := Text.runs_append_blank blank [] cs
  rwa [Text.runs_nil] at split

theorem runs_spread_bar : runs (spread ('|' :: cs)) = ['|'] :: runs (spread cs) := by
  have alone : runs ['|'] = [['|']] :=
    Text.runs_of_solid (List.cons_ne_nil _ _) (by simp [not_isBlank_bar])
  rw [spread_bar, List.cons_append, runs_blank isBlank_space, Text.runs_append_blank isBlank_space,
    alone, List.singleton_append]

theorem runs_spread_word (some_char : w ≠ []) (solid : ∀ c ∈ w, isBreak c = false)
    (longest : ∀ c ∈ cs.head?, isBreak c) : runs (spread (w ++ cs)) = w :: runs (spread cs) := by
  have no_blank : ∀ c ∈ w, isBlank c = false := fun c hc => (Bool.or_eq_false_iff.1 (solid c hc)).1
  have no_bar : '|' ∉ w := fun mem => absurd (solid _ mem) (by decide)
  have alone : runs w = [w] := Text.runs_of_solid some_char no_blank
  rw [spread_append, spread_of_no_bar no_bar]
  cases cs with
  | nil => simpa [spread, Text.runs_nil] using alone
  | cons c cs =>
      rcases Bool.or_eq_true_iff.1 (longest c rfl) with blank | bar
      · rw [spread_blank blank, Text.runs_append_blank blank, runs_blank blank, alone]
        rfl
      · obtain rfl : c = '|' := by simpa using bar
        rw [spread_bar, List.cons_append, Text.runs_append_blank isBlank_space,
          runs_blank isBlank_space, alone]
        rfl

theorem Cut.runs_eq (cut : Cut cs ps) : (runs (spread cs)).map String.ofList = ps := by
  induction cut with
  | nil => rw [spread, List.flatMap_nil, Text.runs_nil, List.map_nil]
  | blank blank _ ih => rw [spread_blank blank, runs_blank blank, ih]
  | bar _ ih => rw [runs_spread_bar, List.map_cons, ih]
  | word some_char solid longest _ ih =>
      rw [runs_spread_word some_char solid longest, List.map_cons, ih]

theorem exists_cut_append (solid : ∀ c ∈ w, isBreak c = false)
    (longest : ∀ c ∈ cs.head?, isBreak c) (rest : Cut cs ps) : ∃ qs, Cut (w ++ cs) qs := by
  by_cases nothing : w = []
  · exact ⟨ps, by rwa [nothing]⟩
  · exact ⟨_, .word nothing solid longest rest⟩

theorem exists_cut (cs : List Char) : ∃ ps, Cut cs ps := by
  -- The induction carries the word that has been begun in front of `cs`.
  have begun : ∀ w : List Char, (∀ c ∈ w, isBreak c = false) → ∃ ps, Cut (w ++ cs) ps := by
    induction cs with
    | nil => exact fun w solid => exists_cut_append solid (by simp) .nil
    | cons c cs ih =>
        intro w solid
        obtain ⟨ps, rest⟩ := ih [] (by simp)
        by_cases ends : isBreak c
        · have longest : ∀ d ∈ (c :: cs).head?, isBreak d := by simpa using ends
          rcases Bool.or_eq_true_iff.1 ends with blank | bar
          · exact exists_cut_append solid longest (.blank blank rest)
          · obtain rfl : c = '|' := by simpa using bar
            exact exists_cut_append solid longest (.bar rest)
        · have solid' : ∀ d ∈ w ++ [c], isBreak d = false := by
            intro d hd
            rcases List.mem_append.1 hd with hd | hd
            · exact solid d hd
            · rw [List.mem_singleton.1 hd]
              exact eq_false_of_ne_true ends
          simpa using ih (w ++ [c]) solid'
  exact begun [] (by simp)

theorem cut_iff {line : String} : Cut line.toList ps ↔ words (spaceBars line) = ps := by
  rw [words, toList_spaceBars]
  refine ⟨Cut.runs_eq, fun same => ?_⟩
  obtain ⟨qs, cut⟩ := exists_cut line.toList
  rw [← same, cut.runs_eq]
  exact cut

theorem runs_spread_of_no_blank (solid : ∀ c ∈ w, isBlank c = false) :
    runs (spread w) = (runs w).flatMap fun run => runs (spread run) := by
  by_cases nothing : w = []
  · rw [nothing, Text.runs_nil, List.flatMap_nil, spread, List.flatMap_nil, Text.runs_nil]
  · rw [Text.runs_of_solid nothing solid, List.flatMap_singleton]

/-- A blank never stands inside a piece, so the words can be cut one by one. -/
theorem runs_spread_eq_flatMap (cs : List Char) :
    runs (spread cs) = (runs cs).flatMap fun run => runs (spread run) := by
  have begun : ∀ w : List Char, (∀ c ∈ w, isBlank c = false) →
      runs (spread (w ++ cs)) = (runs (w ++ cs)).flatMap fun run => runs (spread run) := by
    induction cs with
    | nil =>
        intro w solid
        rw [List.append_nil]
        exact runs_spread_of_no_blank solid
    | cons c cs ih =>
        intro w solid
        by_cases blank : isBlank c
        · rw [spread_append, spread_blank blank, Text.runs_append_blank blank,
            Text.runs_append_blank blank, List.flatMap_append, runs_spread_of_no_blank solid]
          exact congrArg _ (ih [] (by simp))
        · have solid' : ∀ d ∈ w ++ [c], isBlank d = false := by
            intro d hd
            rcases List.mem_append.1 hd with hd | hd
            · exact solid d hd
            · rw [List.mem_singleton.1 hd]
              exact eq_false_of_ne_true blank
          simpa using ih (w ++ [c]) solid'
  exact begun [] (by simp)

theorem words_spaceBars_singleSpaced (line : String) :
    words (spaceBars (singleSpaced line)) = words (spaceBars line) := by
  have same : runs (singleSpaced line).toList = runs line.toList := by
    have listed := Text.words_spaced_words line
    exact (List.map_inj_right fun _ _ => String.ofList_inj.1).1 listed
  have cut (s : String) : words (spaceBars s) =
      ((runs s.toList).flatMap fun run => runs (spread run)).map String.ofList := by
    rw [words, toList_spaceBars, runs_spread_eq_flatMap]
  rw [cut, cut, same]

end Piece

end ShiftReduce
