import ShiftReduce.Diagram
import ShiftReduce.Grammar.Reader
import ShiftReduce.Table.Basic

/-!
Everything that is built for one grammar: the augmented grammar, its FIRST and FOLLOW sets, the
automaton and the table. A table with conflicts is built like any other. The report on all this is
plain text, one record per line: `PS`/`P` count and list productions, `CS`/`C` states and their
items, `FIRST` and `FOLLOW` the sets, `TAB` the table cells.
-/

namespace ShiftReduce

namespace Listing

def recordLine (fields : List String) : String := ",".intercalate fields

def setText (names : List String) : String := "\x7b" ++ ", ".intercalate names ++ "\x7d"

def productionLines (g : Grammar) : List String :=
  [recordLine ["PS", toString g.prods.size], ""] ++
    g.prods.toList.zipIdx.map fun (p, n) => recordLine ["P", toString n, g.productionText p]

/-- A blank line follows the items of each state. -/
def stateLines (g : Grammar) (a : Automaton) : List String :=
  [recordLine ["CS", toString a.size], ""] ++
    a.states.zipIdx.flatMap fun (items, s) =>
      items.toList.map (fun i => recordLine ["C", toString s, i.text g]) ++ [""]

/-- FIRST names the empty string where the nonterminal is nullable, in front of the terminals. -/
def firstNames (g : Grammar) (ff : TerminalSets) (a : Nat) : List String :=
  (if ff.nullable a then [Grammar.emptySpelling] else []) ++
    (ff.first a).toList.map g.termName

def followNames (g : Grammar) (ff : TerminalSets) (a : Nat) : List String :=
  (ff.follow a).toList.map g.termName

def setLines (g : Grammar) (ff : TerminalSets) : List String :=
  (List.range g.nonterms.size).map (fun a =>
      recordLine ["FIRST", g.nontermName a, setText (firstNames g ff a)]) ++
    (List.range g.nonterms.size).map fun a =>
      recordLine ["FOLLOW", g.nontermName a, setText (followNames g ff a)]

def tableLines (g : Grammar) (tab : Table) : List String :=
  (List.range tab.size).flatMap fun s =>
    (tab.row s).map fun (x, entry) => recordLine ["TAB", toString s, g.symbolName x, entry.text]

end Listing

structure Construction where
  grammar : Grammar
  sets : TerminalSets
  automaton : Automaton
  table : Table
deriving DecidableEq

namespace Construction

def ofGrammar (g : Grammar) : Construction :=
  let grammar := g.augment
  let sets := TerminalSets.ofGrammar grammar
  let automaton := Automaton.ofGrammar grammar
  ⟨grammar, sets, automaton, Table.build grammar sets automaton⟩

def ofText (text : String) : Except Refusal Construction :=
  (Grammar.ofText text).map ofGrammar

def conflicts (c : Construction) : List Conflict := c.table.conflicts

def isSLR1 (c : Construction) : Bool := c.table.isSLR1

def diagram (c : Construction) : Diagram := Diagram.ofAutomaton c.grammar c.automaton

def actionSymbols (c : Construction) : List Symbol :=
  c.grammar.terminals ++ [.terminal c.grammar.eof]

/-- The columns for gotos: no state has one on the start symbol. -/
def gotoSymbols (c : Construction) : List Symbol :=
  c.grammar.nonterminals.filter fun x => x != .nonterminal c.grammar.start

/-- The same construction with both alphabets read back from their lists of spellings. -/
def relisted (c : Construction) : Construction :=
  { c with grammar :=
    { c.grammar with
      nonterms := Alphabet.ofList c.grammar.nonterms.names
      terms := Alphabet.ofList c.grammar.terms.names } }

def listingLines (c : Construction) (states sets : Bool) : List String :=
  Listing.productionLines c.grammar ++ [""] ++
    (if states then Listing.stateLines c.grammar c.automaton else []) ++
    (if sets then Listing.setLines c.grammar c.sets ++ [""] else []) ++
    Listing.tableLines c.grammar c.table

def listing (c : Construction) (states : Bool) : String :=
  Text.unlines (c.listingLines states true)

end Construction

end ShiftReduce
