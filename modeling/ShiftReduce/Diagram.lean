import ShiftReduce.Automaton

/-!
The automaton as a labelled graph for drawing: a node per state that lists its items, an edge per
transition, and one extra edge on the end marker from each accepting state to a node of its own. In
the DOT language quotes and backslashes of a label are escaped, so the two-character marks that end
a line of a label never occur inside one.
-/

namespace ShiftReduce

inductive EdgeKind where
  | shift
  | goto
  | accept
deriving DecidableEq

structure Node where
  id : String
  lines : List String
deriving DecidableEq

structure Edge where
  source : String
  target : String
  label : String
  kind : EdgeKind
deriving DecidableEq

structure Diagram where
  nodes : List Node
  edges : List Edge
deriving DecidableEq

namespace Diagram

def stateId (s : Nat) : String := "I" ++ toString s

def acceptId : String := "acc"

def stateNode (g : Grammar) (items : ItemSet) (s : Nat) : Node :=
  ⟨stateId s, items.toList.map (Item.text g)⟩

def transitionEdge (g : Grammar) (s : Nat) (x : Symbol) (target : Nat) : Edge where
  source := stateId s
  target := stateId target
  label := g.symbolName x
  kind := match x with
    | .nonterminal _ => .goto
    | _ => .shift

def stateEdges (g : Grammar) (a : Automaton) (items : ItemSet) (s : Nat) : List Edge :=
  (a.transitions s).map (fun (x, target) => transitionEdge g s x target) ++
    if Automaton.accepts items then [⟨stateId s, acceptId, g.termName g.eof, .accept⟩] else []

def ofAutomaton (g : Grammar) (a : Automaton) : Diagram where
  nodes := a.states.zipIdx.map (fun (items, s) => stateNode g items s) ++
    if a.states.any Automaton.accepts then [⟨acceptId, ["accept"]⟩] else []
  edges := a.states.zipIdx.flatMap fun (items, s) => stateEdges g a items s

def node? (d : Diagram) (id : String) : Option Node := d.nodes.find? fun n => n.id == id

def escapeChar (c : Char) : List Char :=
  if c = '\\' then ['\\', '\\'] else if c = '"' then ['\\', '"'] else [c]

def escape (s : String) : String := String.ofList (s.toList.flatMap escapeChar)

def quoted (s : String) : String := "\"" ++ s ++ "\""

/-- The lines of a node, each but the last followed by the mark that ends a line on the left. -/
def label (lines : List String) : String := "\\l".intercalate (lines.map escape)

def nodeLine (n : Node) : String :=
  if n.id = acceptId then
    "    " ++ quoted n.id ++ " [label=" ++ quoted (label n.lines) ++ ", shape=doublecircle];"
  else
    "    " ++ quoted n.id ++ " [label=" ++ quoted (n.id ++ "\\n\\n" ++ label n.lines ++ "\\l") ++
      "];"

def edgeStyle : EdgeKind → String
  | .shift => ""
  | .goto => ", style=dashed"
  | .accept => ", style=bold"

def edgeLine (e : Edge) : String :=
  "    " ++ quoted e.source ++ " -> " ++ quoted e.target ++ " [label=" ++
    quoted (escape e.label) ++ edgeStyle e.kind ++ "];"

def dotHeader : List String :=
  ["digraph automaton \x7b", "    rankdir=LR;", "    node [shape=box, style=rounded];"]

def dotLines (d : Diagram) : List String :=
  dotHeader ++ d.nodes.map nodeLine ++ d.edges.map edgeLine ++ ["\x7d"]

def toDot (d : Diagram) : String := Text.unlines d.dotLines

end Diagram

end ShiftReduce
