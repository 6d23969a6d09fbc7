import ShiftReduce.Proofs.Text.Rereading
import ShiftReduce.Proofs.Automaton.ItemText
import ShiftReduce.Proofs.Diagram.Quoting
import ShiftReduce.Proofs.Diagram.Copying

/-!
DOT text read back. Every line between the header and the closing brace falls into its strings, and
these show the name and the lines of one node, or the names and the label of one edge
(`record?_nodeLine`, `record?_edgeLine`). So the text of a diagram gives the diagram back, quotes
and backslashes of terminals included, and no two diagrams have the same text (`readable_ofText`).
-/

namespace ShiftReduce

namespace Dot

open Diagram (acceptId dotHeader escape escapeChar label nodeLine edgeLine edgeStyle quoted)

variable {n : Node} {e : Edge} {d : Diagram} {s : String} {marks : List Mark} {ls : List String}

def spelled? (marks : List Mark) : Option String := do
  let cs ← marks.mapM Mark.char?
  return String.ofList cs

/-- The lines that a string shows. The last one may end with the string. -/
def shownLines : List Mark → List (List Char)
  | [] => []
  | .char c :: marks =>
      match shownLines marks with
      | [] => [[c]]
      | line :: lines => (c :: line) :: lines
  | _ :: marks => [] :: shownLines marks

/-- A state shows its name and a blank line over its items. -/
def Line.node? : Line → Option Node
  | ⟨front, [(name, middle), (shown, behind)]⟩ =>
      if front = "    ".toList ∧ middle = " [label=".toList then do
        let id ← spelled? name
        let lines := (shownLines shown).map String.ofList
        if behind = ", shape=doublecircle];".toList then return ⟨id, lines⟩
        else if behind = "];".toList then return ⟨id, ← lines.dropPrefix? [id, ""]⟩
        else none
      else none
  | _ => none

def edgeKind? (behind : List Char) : Option EdgeKind :=
  if behind = "];".toList then some .shift
  else if behind = ", style=dashed];".toList then some .goto
  else if behind = ", style=bold];".toList then some .accept
  else none

def Line.edge? : Line → Option Edge
  | ⟨front, [(source, arrow), (target, middle), (label, behind)]⟩ =>
      if front = "    ".toList ∧ arrow = " -> ".toList ∧ middle = " [label=".toList then do
        return ⟨← spelled? source, ← spelled? target, ← spelled? label, ← edgeKind? behind⟩
      else none
  | _ => none

def record? (line : String) : Option (Node ⊕ Edge) := do
  let parts ← Line.read? line.toList
  parts.node?.map .inl <|> parts.edge?.map .inr

def diagram? (text : String) : Option Diagram := do
  let behind ← (Text.lines text).dropPrefix? dotHeader
  let records ← (← behind.dropSuffix? ["\x7d", ""]).mapM record?
  return ⟨records.filterMap Sum.getLeft?, records.filterMap Sum.getRight?⟩

def chars (s : String) : List Mark := s.toList.map .char

theorem spelled?_chars (s : String) : spelled? (chars s) = some s := by
  have read : (chars s).mapM Mark.char? = some s.toList := mapM_map_eq_some fun _ _ => rfl
  rw [spelled?, read]
  exact congrArg some String.ofList_toList

theorem writeString_chars (s : String) : writeString (chars s) = (escape s).toList := by
  rw [writeString, chars, List.flatMap_map, escape, String.toList_ofList]
  rfl

theorem newline_mem_chars_iff {s : String} : .char '\n' ∈ chars s ↔ '\n' ∈ s.toList := by
  simp [chars]

def labelMarks (ls : List String) : List Mark := [.lineEnd].intercalate (ls.map chars)

theorem labelMarks_cons_cons (l m : String) (ls : List String) :
    labelMarks (l :: m :: ls) = chars l ++ .lineEnd :: labelMarks (m :: ls) := by
  simp [labelMarks, List.intercalate_cons_cons]

theorem toList_label (ls : List String) : (label ls).toList = writeString (labelMarks ls) := by
  rw [label, String.toList_intercalate]
  induction ls with
  | nil => rfl
  | cons l ls ih =>
      cases ls with
      | nil => simp [labelMarks, writeString_chars]
      | cons m ls =>
          rw [labelMarks_cons_cons, writeString, List.flatMap_append, List.flatMap_cons,
            ← writeString, ← writeString, ← ih, writeString_chars]
          simp [List.intercalate_cons_cons, Mark.write]

theorem newline_not_mem_labelMarks (unbroken : ∀ l ∈ ls, '\n' ∉ l.toList) :
    .char '\n' ∉ labelMarks ls := by
  induction ls with
  | nil => simp [labelMarks]
  | cons l ls ih =>
      obtain ⟨first, others⟩ := List.forall_mem_cons.1 unbroken
      cases ls with
      | nil => simpa [labelMarks, newline_mem_chars_iff] using first
      | cons m ls => simp [labelMarks_cons_cons, newline_mem_chars_iff, first, ih others]

theorem shownLines_append_ended {mark : Mark} (ends : ∀ c, mark ≠ .char c) (l : String)
    (marks : List Mark) :
    shownLines (chars l ++ mark :: marks) = l.toList :: shownLines marks := by
  rw [chars]
  induction l.toList with
  | nil => cases mark <;> simp_all [shownLines]
  | cons c cs ih => rw [List.map_cons, List.cons_append, shownLines, ih]

theorem shownLines_chars {l : String} (some_char : l ≠ "") :
    shownLines (chars l) = [l.toList] := by
  rw [chars]
  rw [Ne, ← String.toList_eq_nil_iff] at some_char
  generalize l.toList = cs at some_char ⊢
  induction cs with
  | nil => exact absurd rfl some_char
  | cons c cs ih =>
      cases cs with
      | nil => rfl
      | cons b cs => rw [List.map_cons, shownLines, ih (List.cons_ne_nil b cs)]

theorem shownLines_labelMarks (last : ls.getLast? ≠ some "") :
    shownLines (labelMarks ls) = ls.map String.toList := by
  induction ls with
  | nil => rfl
  | cons l ls ih =>
      cases ls with
      | nil => simpa [labelMarks] using shownLines_chars (by simpa using last)
      | cons m ls =>
          rw [labelMarks_cons_cons, shownLines_append_ended (by simp), ih last]
          rfl

/-- With a mark behind the last line too, any line can be the last one. -/
theorem shownLines_labelMarks_append (some_line : ls ≠ []) :
    shownLines (labelMarks ls ++ [.lineEnd]) = ls.map String.toList := by
  induction ls with
  | nil => exact absurd rfl some_line
  | cons l ls ih =>
      cases ls with
      | nil => simpa [labelMarks, shownLines] using shownLines_append_ended (by simp) l []
      | cons m ls =>
          rw [labelMarks_cons_cons, List.append_assoc, List.cons_append,
            shownLines_append_ended (by simp), ih (List.cons_ne_nil m ls)]
          rfl

structure IsName (s : String) : Prop where
  quote : '"' ∉ s.toList
  backslash : '\\' ∉ s.toList
  newline : '\n' ∉ s.toList

theorem IsName.writeString_chars (name : IsName s) : writeString (chars s) = s.toList := by
  rw [Dot.writeString_chars, escape, String.toList_ofList]
  refine (List.flatMap_congr fun c hc => ?_).trans (List.flatMap_singleton' _)
  have backslash : c ≠ '\\' := fun same => name.backslash (same ▸ hc)
  have quote : c ≠ '"' := fun same => name.quote (same ▸ hc)
  rw [escapeChar, if_neg backslash, if_neg quote]

/-- A label whose last line is empty looks like one without that line, unless a mark follows. -/
structure LegibleNode (n : Node) : Prop where
  name : IsName n.id
  unbroken : ∀ l ∈ n.lines, '\n' ∉ l.toList
  accept : n.id = acceptId → n.lines.getLast? ≠ some ""
  state : n.id ≠ acceptId → n.lines ≠ []

structure LegibleEdge (e : Edge) : Prop where
  source : IsName e.source
  target : IsName e.target
  unbroken : '\n' ∉ e.label.toList

structure Legible (d : Diagram) : Prop where
  nodes : ∀ n ∈ d.nodes, LegibleNode n
  edges : ∀ e ∈ d.edges, LegibleEdge e

def nodeParts (n : Node) : Line :=
  if n.id = acceptId then
    ⟨"    ".toList, [(chars n.id, " [label=".toList),
      (labelMarks n.lines, ", shape=doublecircle];".toList)]⟩
  else
    ⟨"    ".toList, [(chars n.id, " [label=".toList),
      (chars n.id ++ .lineBreak :: .lineBreak :: (labelMarks n.lines ++ [.lineEnd]),
        "];".toList)]⟩

def edgeParts (e : Edge) : Line :=
  ⟨"    ".toList, [(chars e.source, " -> ".toList), (chars e.target, " [label=".toList),
    (chars e.label, (edgeStyle e.kind ++ "];").toList)]⟩

theorem plain_nodeParts (n : Node) : (nodeParts n).Plain := by
  rw [nodeParts]
  split <;> constructor <;> simp

theorem plain_edgeParts (e : Edge) : (edgeParts e).Plain := by
  rw [edgeParts]
  cases e.kind <;> constructor <;> simp [edgeStyle]

theorem edge?_edgeParts (e : Edge) : (edgeParts e).edge? = some e := by
  have kind : edgeKind? (edgeStyle e.kind ++ "];").toList = some e.kind := by
    cases e.kind <;> rfl
  simp only [Line.edge?, edgeParts, and_self, if_true, spelled?_chars, kind]
  rfl

namespace LegibleNode

variable (legible : LegibleNode n)

include legible

theorem toList_nodeLine : (nodeLine n).toList = (nodeParts n).write := by
  rw [nodeLine, nodeParts]
  split
  · simp [Line.write, writeStrings, quoted, legible.name.writeString_chars, toList_label]
  · have shown : (n.id ++ "\\n\\n" ++ label n.lines ++ "\\l").toList = writeString
        (chars n.id ++ .lineBreak :: .lineBreak :: (labelMarks n.lines ++ [.lineEnd])) := by
      rw [writeString, List.flatMap_append, List.flatMap_cons, List.flatMap_cons,
        List.flatMap_append, ← writeString, ← writeString, legible.name.writeString_chars,
        ← toList_label]
      simp [Mark.write]
    simp [Line.write, writeStrings, quoted, legible.name.writeString_chars, ← shown]

theorem newline_not_mem : '\n' ∉ (nodeLine n).toList := by
  rw [legible.toList_nodeLine]
  apply Line.newline_not_mem_write
  have name := legible.name.newline
  have lines := newline_not_mem_labelMarks legible.unbroken
  rw [nodeParts]
  split <;> constructor <;> simp [newline_mem_chars_iff, name, lines]

theorem node?_nodeParts : (nodeParts n).node? = some n := by
  rw [nodeParts]
  split
  · rename_i accept
    simp [Line.node?, spelled?_chars, shownLines_labelMarks (legible.accept accept)]
  · rename_i state
    have lines : shownLines (chars n.id ++ .lineBreak :: .lineBreak ::
        (labelMarks n.lines ++ [.lineEnd])) = [n.id, ""].map String.toList ++
          n.lines.map String.toList := by
      rw [shownLines_append_ended (by simp), shownLines,
        shownLines_labelMarks_append (legible.state state)]
      · rfl
      · simp
    have front : (n.id :: "" :: n.lines).dropPrefix? [n.id, ""] = some n.lines :=
      List.dropPrefix?_eq_some_iff.2 ⟨[n.id, ""], rfl, beq_self_eq_true _⟩
    simp [Line.node?, spelled?_chars, lines, front]

theorem record?_nodeLine : record? (nodeLine n) = some (.inl n) := by
  rw [record?, legible.toList_nodeLine, Line.read?_write (plain_nodeParts n)]
  simp [legible.node?_nodeParts]

end LegibleNode

namespace LegibleEdge

variable (legible : LegibleEdge e)

include legible

theorem toList_edgeLine : (edgeLine e).toList = (edgeParts e).write := by
  simp [edgeLine, edgeParts, Line.write, writeStrings, quoted, legible.source.writeString_chars,
    legible.target.writeString_chars, writeString_chars]

theorem newline_not_mem : '\n' ∉ (edgeLine e).toList := by
  rw [legible.toList_edgeLine]
  apply Line.newline_not_mem_write
  have source := legible.source.newline
  have target := legible.target.newline
  have label := legible.unbroken
  rw [edgeParts]
  cases e.kind <;> constructor <;>
    simp [edgeStyle, newline_mem_chars_iff, source, target, label]

theorem record?_edgeLine : record? (edgeLine e) = some (.inr e) := by
  rw [record?, legible.toList_edgeLine, Line.read?_write (plain_edgeParts e)]
  have no_node : (edgeParts e).node? = none := rfl
  simp [no_node, edge?_edgeParts]

end LegibleEdge

namespace Legible

variable (legible : Legible d)

include legible

theorem lines_toDot : Text.lines d.toDot = dotHeader ++
    (d.nodes.map nodeLine ++ d.edges.map edgeLine) ++ ["\x7d", ""] := by
  have unbroken : ∀ line ∈ d.dotLines, '\n' ∉ line.toList := by
    have header : ∀ line ∈ dotHeader, '\n' ∉ line.toList := by decide
    have brace : '\n' ∉ "\x7d".toList := by decide
    have nodes := fun n hn => (legible.nodes n hn).newline_not_mem
    have edges := fun e he => (legible.edges e he).newline_not_mem
    simp only [Diagram.dotLines, List.forall_mem_append, List.forall_mem_map,
      List.forall_mem_singleton]
    exact ⟨⟨⟨header, nodes⟩, edges⟩, brace⟩
  rw [Diagram.toDot, Text.lines_unlines unbroken, Diagram.dotLines]
  simp

theorem mapM_record? : (d.nodes.map nodeLine ++ d.edges.map edgeLine).mapM record? =
    some (d.nodes.map .inl ++ d.edges.map .inr) := by
  have lines : d.nodes.map nodeLine ++ d.edges.map edgeLine =
      (d.nodes.map Sum.inl ++ d.edges.map Sum.inr).map (Sum.elim nodeLine edgeLine) := by
    simp
  rw [lines]
  refine mapM_map_eq_some fun r hr => ?_
  rcases List.mem_append.1 hr with mem | mem
  · obtain ⟨n, hn, rfl⟩ := List.mem_map.1 mem
    exact (legible.nodes n hn).record?_nodeLine
  · obtain ⟨e, he, rfl⟩ := List.mem_map.1 mem
    exact (legible.edges e he).record?_edgeLine

theorem diagram?_toDot : diagram? d.toDot = some d := by
  have front : (Text.lines d.toDot).dropPrefix? dotHeader =
      some (d.nodes.map nodeLine ++ d.edges.map edgeLine ++ ["\x7d", ""]) := by
    rw [legible.lines_toDot, List.append_assoc]
    exact List.dropPrefix?_append_of_beq _ (beq_self_eq_true _)
  have behind : (d.nodes.map nodeLine ++ d.edges.map edgeLine ++ ["\x7d", ""]).dropSuffix?
      ["\x7d", ""] = some (d.nodes.map nodeLine ++ d.edges.map edgeLine) :=
    List.dropSuffix?_eq_some_iff.2 ⟨_, rfl, beq_self_eq_true _⟩
  simp only [diagram?, front, behind, legible.mapM_record?, Option.bind_eq_bind, Option.bind_some,
    List.filterMap_append, List.filterMap_map]
  simp [Function.comp_def]

end Legible

theorem isName_stateId (s : Nat) : IsName (Diagram.stateId s) := by
  have chars : ∀ c ∈ (Diagram.stateId s).toList, c = 'I' ∨ c.isDigit := by
    intro c hc
    rw [Diagram.stateId, String.toList_append, List.mem_append] at hc
    exact hc.imp (by simp) Text.isDigit_of_mem_toString
  constructor <;> exact fun mem => absurd (chars _ mem) (by decide)

theorem isName_acceptId : IsName acceptId := by
  constructor <;> decide

/-- What can be read of DOT text, line by line and as a whole. -/
structure Readable (d : Diagram) : Prop where
  lines_eq : Text.lines d.toDot = dotHeader ++
    (d.nodes.map nodeLine ++ d.edges.map edgeLine) ++ ["\x7d", ""]
  node : ∀ n ∈ d.nodes, ∃ parts : Line, parts.Plain ∧ (nodeLine n).toList = parts.write ∧
    parts.node? = some n
  edge : ∀ e ∈ d.edges, ∃ parts : Line, parts.Plain ∧ (edgeLine e).toList = parts.write ∧
    parts.edge? = some e
  diagram?_eq : diagram? d.toDot = some d

theorem Legible.readable (legible : Legible d) : Readable d where
  lines_eq := legible.lines_toDot
  node n hn := ⟨nodeParts n, plain_nodeParts n, (legible.nodes n hn).toList_nodeLine,
    (legible.nodes n hn).node?_nodeParts⟩
  edge e he := ⟨edgeParts e, plain_edgeParts e, (legible.edges e he).toList_edgeLine,
    edge?_edgeParts e⟩
  diagram?_eq := legible.diagram?_toDot

end Dot

namespace Construction

open Diagram (edgeLine)
open Dot (Legible Readable)

variable {c d : Construction} {start : Nat}

theorem Built.legible (built : c.Built start)
    (words : ∀ x ∈ c.grammar.symbols, Text.IsWord (c.grammar.symbolName x)) :
    Legible c.diagram where
  nodes n hn := by
    rcases Diagram.mem_nodes_iff.1 hn with ⟨s, items, state, rfl⟩ | ⟨_, rfl⟩
    · have some_item : items.toList ≠ [] := by
        obtain ⟨p, first⟩ := built.exists_first
        have mem := List.mem_of_getElem? state
        rw [built.automaton_eq] at mem
        exact fun none_left => Automaton.ne_empty_of_mem_states first mem
          (OrderedSet.isEmpty_iff.1 (List.isEmpty_iff.2 none_left))
      refine ⟨Dot.isName_stateId s, List.forall_mem_map.2 fun i _ => ?_,
        fun accept => absurd accept (Diagram.stateId_ne_acceptId s), fun _ => ?_⟩
      · exact Item.newline_not_mem_text built.augmented.toWellFormed words i
      · simpa [Diagram.stateNode] using some_item
    · exact ⟨Dot.isName_acceptId, by decide, fun _ => by decide, fun state => absurd rfl state⟩
  edges e he := by
    rcases built.mem_edges_iff.1 he with ⟨s, x, j, target, rfl⟩ | ⟨j, _, rfl⟩
    · exact ⟨Dot.isName_stateId s, Dot.isName_stateId j,
        (words x (built.mem_symbols_of_transition target)).newline_not_mem⟩
    · exact ⟨Dot.isName_stateId j, Dot.isName_acceptId,
        Grammar.isWord_endSpelling.newline_not_mem⟩

theorem readable_ofText {text : String} (built : ofText text = .ok c) :
    Readable c.diagram ∧
      ∀ other d, ofText other = .ok d → c.diagram.toDot = d.diagram.toDot →
        c.diagram = d.diagram := by
  have legible {text c} (built : ofText text = .ok c) : Legible c.diagram := by
    obtain ⟨g, read, rfl⟩ := exists_read built
    exact (built_ofGrammar (Grammar.plain_of_ofText read)).legible fun x hx =>
      Grammar.isWord_symbolName_augment read hx
  refine ⟨(legible built).readable, fun other d built' same => ?_⟩
  have whole := (legible built).diagram?_toDot
  rw [same, (legible built').diagram?_toDot] at whole
  exact (Option.some.inj whole).symm

/-- Terminals that look like the marks in a label and like its end. -/
def marked : Grammar where
  nonterms := .ofList ["S"]
  terms := .ofList ["\\l", "\"];", "\\", "n\\n"]
  start := 0
  prods := #[⟨0, [.terminal 0, .terminal 1]⟩, ⟨0, [.terminal 2, .terminal 3]⟩]
  augmented := false

theorem read_marked : Grammar.ofText "S -> \\l \"]; | \\ n\\n" = .ok marked := by
  decide +kernel

theorem readable_marked : Readable (ofGrammar marked).diagram ∧
    (ofGrammar marked).diagram.edges.map edgeLine = [
      "    \"I0\" -> \"I1\" [label=\"S\", style=dashed];",
      "    \"I0\" -> \"I2\" [label=\"\\\\l\"];",
      "    \"I0\" -> \"I3\" [label=\"\\\\\"];",
      "    \"I1\" -> \"acc\" [label=\"$\", style=bold];",
      "    \"I2\" -> \"I4\" [label=\"\\\"];\"];",
      "    \"I3\" -> \"I5\" [label=\"n\\\\n\"];"] :=
  ⟨(readable_ofText (ofText_of_read read_marked)).1, by decide +kernel⟩

end Construction

end ShiftReduce
