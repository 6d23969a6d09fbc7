import ShiftReduce.Proofs.Grammar.Lines
import ShiftReduce.Proofs.Numbering.FirstOccurrences

/-!
What a text presents. It is refused for the first of its lines that is no rule (`Refused`), and
otherwise it presents the productions that its rules spell (`Presents`): the heads by their first
occurrence, and under each head its alternatives by theirs, over all lines. Reading a text does
exactly this (`ofText_presents`).
-/

namespace ShiftReduce

open List (Forall₂)
open Text (isBlank runs words singleSpaced isNonterminalName)

section

variable {α β ε : Type} {f : α → Except ε β} {e : ε}

theorem mapM_eq_error_of_first {before after : List α} {x : α}
    (fine : ∀ y ∈ before, ∃ z, f y = .ok z) (wrong : f x = .error e) :
    (before ++ x :: after).mapM f = .error e := by
  induction before with
  | nil => simp [wrong, bind, Except.bind]
  | cons y before ih =>
      obtain ⟨z, read⟩ := fine y List.mem_cons_self
      have rest := ih fun w hw => fine w (List.mem_cons_of_mem y hw)
      rw [List.cons_append, List.mapM_cons, read, rest]
      rfl

theorem mapM_eq_error_iff {xs : List α} :
    xs.mapM f = .error e ↔ ∃ before x after, xs = before ++ x :: after ∧
      (∀ y ∈ before, ∃ z, f y = .ok z) ∧ f x = .error e := by
  apply Iff.intro
  · intro h
    induction xs with
    | nil => cases h
    | cons x xs ih =>
        rw [List.mapM_cons] at h
        cases hx : f x with
        | error e' =>
            rw [hx] at h
            cases h
            exact ⟨[], x, xs, rfl, by simp, hx⟩
        | ok z =>
            cases hxs : xs.mapM f with
            | ok zs =>
                rw [hx, hxs] at h
                cases h
            | error e' =>
                rw [hx, hxs] at h
                cases h
                obtain ⟨before, y, after, rfl, fine, wrong⟩ := ih hxs
                exact ⟨x :: before, y, after, rfl, List.forall_mem_cons.2 ⟨⟨z, hx⟩, fine⟩, wrong⟩
  · intro ⟨before, x, after, split, fine, wrong⟩
    rw [split]
    exact mapM_eq_error_of_first fine wrong

end

theorem Text.runs_eq_nil_iff {cs : List Char} : runs cs = [] ↔ ∀ c ∈ cs, isBlank c := by
  induction cs with
  | nil => simp [runs_nil]
  | cons c cs ih =>
      by_cases blank : isBlank c
      · rw [Piece.runs_blank blank, ih, List.forall_mem_cons]
        exact (and_iff_right blank).symm
      · obtain ⟨first, others, split⟩ :=
          List.exists_cons_of_ne_nil (List.splitOnP_ne_nil isBlank cs)
        simp [runs, List.splitOnP_cons_eq_if_modifyHead, blank, split]

def nonblankLines (text : String) : List String :=
  (Text.lines text).filter fun line => line.toList.any fun c => !isBlank c

/-- Why a text is refused. The lines in front of the one that is to blame are rules. -/
inductive Refused (text : String) : Refusal → Prop
  | empty (blank : nonblankLines text = []) : Refused text .empty
  | line {before after : List String} {line : String} {e : Refusal}
      (split : nonblankLines text = before ++ line :: after)
      (rules : ∀ l ∈ before, ∃ head alts, Reads l head alts) (offends : Offends line e) :
      Refused text e

namespace Grammar

variable {g : Grammar} {text : String} {e : Refusal}

theorem textLines_eq (text : String) : textLines text = (nonblankLines text).map singleSpaced := by
  have blank (line : String) : (words line).isEmpty = !line.toList.any fun c => !isBlank c := by
    rw [Bool.eq_iff_iff, List.isEmpty_iff, words, List.map_eq_nil_iff, Text.runs_eq_nil_iff]
    simp
  rw [textLines, nonblankLines, List.filter_map, List.map_map]
  refine congrArg _ (List.filter_congr fun line _ => ?_)
  rw [Function.comp_apply, blank, Bool.not_not]

theorem mapM_ofLine_eq_error_iff {lines : List String} :
    (lines.map singleSpaced).mapM Rule.ofLine = .error e ↔
      ∃ before line after, lines = before ++ line :: after ∧
        (∀ l ∈ before, ∃ head alts, Reads l head alts) ∧ Offends line e := by
  rw [mapM_eq_error_iff]
  apply Iff.intro
  · intro ⟨_, _, _, split, rules, wrong⟩
    obtain ⟨before, rest, rfl, rfl, tail⟩ := List.map_eq_append_iff.1 split
    obtain ⟨line, after, rfl, rfl, rfl⟩ := List.map_eq_cons_iff.1 tail
    refine ⟨before, line, after, rfl, fun l hl => ?_, Rule.ofLine_eq_error_iff.1 wrong⟩
    obtain ⟨r, read⟩ := rules _ (List.mem_map_of_mem hl)
    obtain ⟨alts, reads, _⟩ := Rule.ofLine_eq_ok_iff_reads.1 read
    exact ⟨r.head, alts, reads⟩
  · intro ⟨before, line, after, split, rules, offends⟩
    refine ⟨before.map singleSpaced, singleSpaced line, after.map singleSpaced, by simp [split],
      fun l hl => ?_, Rule.ofLine_eq_error_iff.2 offends⟩
    obtain ⟨line, mem, rfl⟩ := List.mem_map.1 hl
    obtain ⟨head, alts, reads⟩ := rules line mem
    exact ⟨⟨head, alts.map wordsOf⟩, Rule.ofLine_eq_ok_iff_reads.2 ⟨alts, reads, rfl⟩⟩

theorem ofText_eq_error_iff : ofText text = .error e ↔ Refused text e := by
  have lines := textLines_eq text
  unfold ofText
  split
  · rename_i no_line
    rw [no_line, eq_comm, List.map_eq_nil_iff] at lines
    apply Iff.intro
    · intro h
      cases h
      exact .empty lines
    · intro refused
      cases refused with
      | empty _ => rfl
      | line split _ _ => simp [lines] at split
  · rename_i some_line
    have mapped (read : Except Refusal (List Rule)) :
        read.map ofRules = .error e ↔ read = .error e := by
      cases read <;> simp [Except.map]
    rw [mapped, lines, mapM_ofLine_eq_error_iff]
    apply Iff.intro
    · intro ⟨_, _, _, split, rules, offends⟩
      exact .line split rules offends
    · intro refused
      cases refused with
      | empty blank =>
          rw [blank] at lines
          exact absurd lines some_line
      | line split rules offends => exact ⟨_, _, _, split, rules, offends⟩

def spell (g : Grammar) (p : Production) : String × List String :=
  (g.nontermName p.head, p.body.map g.symbolName)

def spelledProductions (g : Grammar) : List (String × List String) := g.prods.toList.map g.spell

/-- The grammar has the productions that rules spell, in the order of these rules, and each symbol
is of the kind that its spelling says. -/
structure Presents (rules : List (String × List (List String))) (g : Grammar) : Prop where
  start : rules.head?.map Prod.fst = some (g.nontermName g.start)
  productions : ∃ heads, ∃ altsOf : String → List (List String),
    FirstOccurrences (rules.map Prod.fst) heads ∧
    (∀ head ∈ heads, FirstOccurrences
      ((rules.filter fun rule => rule.1 == head).flatMap Prod.snd) (altsOf head)) ∧
    g.spelledProductions = heads.flatMap fun head => (altsOf head).map fun alt => (head, alt)
  kinds : ∀ p ∈ g.prods, ∀ x ∈ p.body, (x = .empty ↔ g.symbolName x = emptySpelling) ∧
    ((∃ a, x = .nonterminal a) ↔ isNonterminalName (g.symbolName x))

section

variable {rules : List Rule} {head : String}

theorem name?_indexOf {a : Alphabet} {name : String} (h : name ∈ a.names) :
    a.name? (a.indexOf name) = some name := by
  have bound := indexOf_lt_size.2 h
  rw [Alphabet.name?, List.getElem?_eq_getElem bound]
  exact congrArg some (List.getElem_idxOf bound)

theorem nontermName_indexOf {name : String} (h : .nonterminal name ∈ ruleWords rules) :
    (ofRules rules).nontermName ((nontermsOf rules).indexOf name) = name := by
  rw [nontermName]
  show ((nontermsOf rules).name? _).getD "" = name
  rw [name?_indexOf (mem_names_nontermsOf.2 h), Option.getD_some]

theorem symbolName_encode {w : Word} (h : w ∈ ruleWords rules) :
    (ofRules rules).symbolName (encode (nontermsOf rules) (termsOf rules) w) = w.spelling := by
  cases w with
  | nonterminal name => exact nontermName_indexOf h
  | terminal name =>
      have mem := mem_names_termsOf.2 h
      have no_end : (termsOf rules).indexOf name ≠ (ofRules rules).eof :=
        Nat.ne_of_lt (indexOf_lt_size.2 mem)
      show (ofRules rules).termName ((termsOf rules).indexOf name) = name
      rw [termName, if_neg no_end]
      show ((termsOf rules).name? _).getD "" = name
      rw [name?_indexOf mem, Option.getD_some]
  | empty => rfl

theorem mem_headsOf : head ∈ headsOf rules ↔ ∃ r ∈ rules, r.head = head := by
  rw [headsOf, List.mem_eraseDups, List.mem_map]

theorem mem_bodiesOf {body : List Word} :
    body ∈ bodiesOf rules head ↔ ∃ r ∈ rules, r.head = head ∧ body ∈ r.bodies := by
  simp [bodiesOf, List.mem_eraseDups, and_assoc]

theorem spelledProductions_ofRules :
    (ofRules rules).spelledProductions = (headsOf rules).flatMap fun head =>
      (bodiesOf rules head).map fun body => (head, body.map Word.spelling) := by
  show List.map _ (List.flatMap _ _) = _
  rw [List.map_flatMap]
  refine List.flatMap_congr fun head hhead => ?_
  rw [List.map_map]
  refine List.map_congr_left fun body hbody => ?_
  obtain ⟨r, hr, rfl⟩ := mem_headsOf.1 hhead
  obtain ⟨r', hr', _, written⟩ := mem_bodiesOf.1 hbody
  refine Prod.ext (nontermName_indexOf (head_mem_ruleWords hr)) ?_
  show List.map _ (List.map _ body) = _
  rw [List.map_map]
  exact List.map_congr_left fun w hw =>
    symbolName_encode (mem_ruleWords_of_mem_body hr' written hw)

theorem nontermName_start (some_rule : rules ≠ []) :
    rules.head?.map Rule.head = some ((ofRules rules).nontermName (ofRules rules).start) := by
  obtain ⟨r, others, rfl⟩ := List.exists_cons_of_ne_nil some_rule
  have first : (headsOf (r :: others)).headD "" = r.head := by
    rw [headsOf, List.map_cons, List.eraseDups_cons, List.headD_cons]
  show some r.head = some ((ofRules _).nontermName ((nontermsOf _).indexOf _))
  rw [first, nontermName_indexOf (head_mem_ruleWords List.mem_cons_self)]

end

end Grammar

namespace Rule

variable {line : String} {r : Rule} {rules : List Rule}

def spelled (r : Rule) : String × List (List String) :=
  (r.head, r.bodies.map fun body => body.map Word.spelling)

theorem spelled_wordsOf (head : String) (alts : List (List String)) :
    (⟨head, alts.map wordsOf⟩ : Rule).spelled = (head, alts) := by
  rw [spelled, List.map_map]
  exact congrArg _ (List.map_id'' spelling_wordsOf alts)

theorem reads_of_ofLine (h : ofLine (singleSpaced line) = .ok r) :
    Reads line r.spelled.1 r.spelled.2 := by
  obtain ⟨alts, reads, bodies⟩ := ofLine_eq_ok_iff_reads.1 h
  have spelling : r.spelled = (r.head, alts) := by
    rw [← spelled_wordsOf, ← bodies]
  rwa [spelling]

theorem ofSpelling_spelling (wf : ∀ r ∈ rules, r.WellFormed) {w : Word}
    (hw : w ∈ Grammar.ruleWords rules) : Word.ofSpelling w.spelling = w := by
  obtain ⟨r, hr, mem⟩ := List.mem_flatMap.1 hw
  exact (wf r hr).spelled w mem

theorem wordsOf_spelling (wf : ∀ r ∈ rules, r.WellFormed) {r : Rule} (hr : r ∈ rules)
    {body : List Word} (hbody : body ∈ r.bodies) : wordsOf (body.map Word.spelling) = body := by
  rw [wordsOf, List.map_map]
  refine (List.map_congr_left fun w hw => ?_).trans (List.map_id body)
  exact ofSpelling_spelling wf (Grammar.mem_ruleWords_of_mem_body hr hbody hw)

end Rule

namespace Grammar

variable {g : Grammar} {text : String} {rules : List Rule}

theorem firstOccurrences_bodiesOf (wf : ∀ r ∈ rules, r.WellFormed) (head : String) :
    FirstOccurrences (((rules.map Rule.spelled).filter fun rule => rule.1 == head).flatMap Prod.snd)
      ((bodiesOf rules head).map fun body => body.map Word.spelling) := by
  have written : ((rules.map Rule.spelled).filter fun rule => rule.1 == head).flatMap Prod.snd =
      ((rules.filter fun r => r.head == head).flatMap Rule.bodies).map
        fun body => body.map Word.spelling := by
    rw [List.filter_map, List.flatMap_map, List.map_flatMap]
    rfl
  rw [written]
  refine (firstOccurrences_eraseDups _).map fun body hbody body' hbody' same => ?_
  obtain ⟨r, hr, mem⟩ := List.mem_flatMap.1 hbody
  obtain ⟨r', hr', mem'⟩ := List.mem_flatMap.1 hbody'
  rw [← Rule.wordsOf_spelling wf (List.mem_filter.1 hr).1 mem, same,
    Rule.wordsOf_spelling wf (List.mem_filter.1 hr').1 mem']

theorem presents_ofRules (some_rule : rules ≠ []) (wf : ∀ r ∈ rules, r.WellFormed) :
    Presents (rules.map Rule.spelled) (ofRules rules) where
  start := by
    rw [List.head?_map, Option.map_map]
    exact nontermName_start some_rule
  productions := by
    refine ⟨headsOf rules, _, ?_, fun head _ => firstOccurrences_bodiesOf wf head, ?_⟩
    · rw [List.map_map]
      exact firstOccurrences_eraseDups _
    · rw [spelledProductions_ofRules]
      simp only [List.map_map]
      rfl
  kinds := by
    intro p hp x hx
    obtain ⟨r, hr, body, hbody, rfl⟩ := mem_prods_ofRules.1 hp
    obtain ⟨w, hw, rfl⟩ := List.mem_map.1 hx
    have mem := mem_ruleWords_of_mem_body hr hbody hw
    have kind := Rule.ofSpelling_spelling wf mem
    simp only [symbolName_encode mem, encode_eq_empty, encode_eq_nonterminal]
    refine ⟨⟨fun empty => empty ▸ rfl, fun marker => ?_⟩, fun nonterminal => ?_, fun upper => ?_⟩
    · rw [← kind, marker]
      rfl
    · obtain ⟨a, name, rfl, rfl⟩ := nonterminal
      exact Word.isNonterminalName_of_ofSpelling kind
    · rw [Rule.ofSpelling_of_isNonterminalName upper] at kind
      exact ⟨_, _, kind.symm, rfl⟩

theorem exists_ofText_iff : (∃ g, ofText text = .ok g) ↔
    nonblankLines text ≠ [] ∧ ∀ line ∈ nonblankLines text, ∀ e, ¬ Offends line e := by
  apply Iff.intro
  · intro ⟨g, read⟩
    obtain ⟨rules, some_rule, each, _⟩ := ofText_eq_ok_iff.1 read
    rw [textLines_eq, List.forall₂_map_left_iff] at each
    refine ⟨fun blank => ?_, fun line mem e offends => ?_⟩
    · rw [blank, List.forall₂_nil_left_iff] at each
      exact some_rule each
    · obtain ⟨r, _, rule⟩ := exists_of_mem_left each mem
      rw [Rule.ofLine_eq_error_iff.2 offends] at rule
      cases rule
  · intro ⟨some_line, fine⟩
    cases read : ofText text with
    | ok g => exact ⟨g, rfl⟩
    | error e =>
        cases ofText_eq_error_iff.1 read with
        | empty blank => exact absurd blank some_line
        | line split _ offends =>
            exact absurd offends (fine _ (by simp [split]) _)

theorem presents_of_ofText (read : ofText text = .ok g) : ∃ rules,
    Forall₂ (fun line rule => Reads line rule.1 rule.2) (nonblankLines text) rules ∧
      Presents rules g := by
  obtain ⟨rules, some_rule, each, rfl⟩ := ofText_eq_ok_iff.1 read
  have wf := Rule.wellFormed_of_each each
  rw [textLines_eq, List.forall₂_map_left_iff] at each
  refine ⟨rules.map Rule.spelled, ?_, presents_ofRules some_rule wf⟩
  rw [List.forall₂_map_right_iff]
  exact each.imp fun _ _ => Rule.reads_of_ofLine

theorem ofText_presents (text : String) :
    (∀ e, ofText text = .error e ↔ Refused text e) ∧
    ((∃ g, ofText text = .ok g) ↔
      nonblankLines text ≠ [] ∧ ∀ line ∈ nonblankLines text, ∀ e, ¬ Offends line e) ∧
    ∀ g, ofText text = .ok g → ∃ rules,
      Forall₂ (fun line rule => Reads line rule.1 rule.2) (nonblankLines text) rules ∧
        Presents rules g :=
  ⟨fun _ => ofText_eq_error_iff, exists_ofText_iff, fun _ => presents_of_ofText⟩

/-- Arrows and markers that do not stand alone are parts of words. -/
def edgeWords : Grammar where
  nonterms := .ofList ["S", "X"]
  terms := .ofList ["->x", "a->", "^^", "X1"]
  start := 0
  prods := #[⟨0, [.terminal 0]⟩, ⟨0, [.terminal 1]⟩, ⟨0, [.nonterminal 1]⟩, ⟨1, [.terminal 2]⟩,
    ⟨1, [.terminal 3]⟩, ⟨1, [.empty]⟩]
  augmented := false

theorem read_edgeWords :
    ofText "S -> ->x|a->\nX -> ^^ |X1| ^\n\n S -> a-> | X\nX -> ^" = .ok edgeWords := by
  decide +kernel

/-- The alternatives of a head are gathered from all its lines; a text is refused for the first line
that is wrong, and that line for what comes first in the order of the checks. -/
theorem presents_edgeWords :
    (∃ rules, Presents rules edgeWords ∧ edgeWords.spelledProductions =
      [("S", ["->x"]), ("S", ["a->"]), ("S", ["X"]), ("X", ["^^"]), ("X", ["X1"]), ("X", ["^"])]) ∧
    Refused " \n" .empty ∧
    Refused "S -> a\nT   ->|a\nt -> b" (.emptyBody "T") ∧
    Refused "S -> a ^  b |\nT a" (.misplacedEmpty "S" "a ^ b") ∧
    Refused "s -> |a" (.invalidHead "s") ∧
    Refused "s ->\ta -> |" (.malformed "s -> a -> |") := by
  obtain ⟨rules, _, presents⟩ := (ofText_presents _).2.2 _ read_edgeWords
  have refused {text : String} {e : Refusal} : ofText text = .error e → Refused text e :=
    ((ofText_presents text).1 e).1
  exact ⟨⟨rules, presents, by decide⟩, refused (by decide +kernel), refused (by decide +kernel),
    refused (by decide +kernel), refused (by decide +kernel), refused (by decide +kernel)⟩

end Grammar

end ShiftReduce
