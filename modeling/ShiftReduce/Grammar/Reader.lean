import ShiftReduce.Text.Uppercase
import ShiftReduce.Grammar.Basic

/-!
From text to grammar, line by line: `HEAD -> body | body`, by spelling. A line is cut at blanks and
around every bar; the arrow is one only where it stands alone. The shape of the line is judged
before its head, and the head before the bodies from left to right; each cause of a refusal carries
the fragment to show. Symbols are numbered as they are first written; productions follow the heads
in the order in which they first stand as heads, and under each head its distinct bodies in the
order in which they first occur.
-/

namespace ShiftReduce

inductive Refusal where
  | empty
  | invalidHead (head : String)
  | emptyBody (head : String)
  | misplacedEmpty (head body : String)
  | malformed (line : String)
deriving DecidableEq

def Refusal.message : Refusal → String
  | empty => "Grammar definition cannot be empty."
  | invalidHead head => "Nonterminal head '" ++ head ++ "' must be uppercase."
  | emptyBody head => "'" ++ head ++ " -> ': Cannot have an empty body."
  | misplacedEmpty head body =>
      "'" ++ head ++ " -> " ++ body ++ "': Empty symbol '^' is not allowed here."
  | malformed line =>
      "'" ++ line ++ "': Expected a production of the form 'HEAD -> body | body'."

inductive Word where
  | nonterminal (name : String)
  | terminal (name : String)
  | empty
deriving DecidableEq

namespace Word

def ofSpelling (s : String) : Word :=
  if s = Grammar.emptySpelling then empty
  else if Text.isNonterminalName s then nonterminal s
  else terminal s

def spelling : Word → String
  | nonterminal name => name
  | terminal name => name
  | empty => Grammar.emptySpelling

theorem spelling_ofSpelling (s : String) : (ofSpelling s).spelling = s := by
  unfold ofSpelling
  split
  · simp_all [spelling]
  · split <;> rfl

end Word

inductive Piece where
  | word (w : Word)
  | arrow
  | bar
deriving DecidableEq

namespace Piece

def ofSpelling (s : String) : Piece :=
  if s = "->" then arrow else if s = "|" then bar else word (Word.ofSpelling s)

def spaceBars (s : String) : String :=
  String.ofList (s.toList.flatMap fun c => if c = '|' then [' ', '|', ' '] else [c])

def ofLine (line : String) : List Piece :=
  (Text.words (spaceBars line)).map ofSpelling

end Piece

structure Rule where
  head : String
  bodies : List (List Word)
deriving DecidableEq

namespace Rule

/-- What stands between the bars, or nothing where an arrow stands among it. -/
def bodies? : List Piece → Option (List (List Word))
  | [] => some [[]]
  | .arrow :: _ => none
  | .bar :: rest => (bodies? rest).map ([] :: ·)
  | .word w :: rest => (bodies? rest).map fun
      | [] => [[w]]
      | body :: others => (w :: body) :: others

def bodyError? (head : String) (body : List Word) : Option Refusal :=
  if body.isEmpty then some (.emptyBody head)
  else if body.length > 1 && body.contains .empty then
    some (.misplacedEmpty head (Text.spaced (body.map Word.spelling)))
  else none

/-- Reads a line whose gaps are single spaces. -/
def ofLine (line : String) : Except Refusal Rule :=
  match Piece.ofLine line with
  | .word head :: .arrow :: rest =>
      match bodies? rest with
      | none => .error (.malformed line)
      | some bodies =>
          match head with
          | .nonterminal name =>
              match bodies.findSome? (bodyError? name) with
              | some e => .error e
              | none => .ok ⟨name, bodies⟩
          | other => .error (.invalidHead other.spelling)
  | _ => .error (.malformed line)

def words (r : Rule) : List Word := .nonterminal r.head :: r.bodies.flatten

end Rule

namespace Grammar

def textLines (text : String) : List String :=
  (((Text.lines text).map Text.words).filter fun ws => !ws.isEmpty).map Text.spaced

def ruleWords (rules : List Rule) : List Word := rules.flatMap Rule.words

def nontermsOf (rules : List Rule) : Alphabet :=
  Alphabet.ofList ((ruleWords rules).filterMap fun
    | .nonterminal name => some name
    | _ => none)

def termsOf (rules : List Rule) : Alphabet :=
  Alphabet.ofList ((ruleWords rules).filterMap fun
    | .terminal name => some name
    | _ => none)

def headsOf (rules : List Rule) : List String := (rules.map Rule.head).eraseDups

def bodiesOf (rules : List Rule) (head : String) : List (List Word) :=
  ((rules.filter fun r => r.head == head).flatMap Rule.bodies).eraseDups

def encode (nonterms terms : Alphabet) : Word → Symbol
  | .nonterminal name => .nonterminal (nonterms.indexOf name)
  | .terminal name => .terminal (terms.indexOf name)
  | .empty => .empty

def ofRules (rules : List Rule) : Grammar :=
  let nonterms := nontermsOf rules
  let terms := termsOf rules
  { nonterms
    terms
    start := nonterms.indexOf ((headsOf rules).headD "")
    prods := ((headsOf rules).flatMap fun head =>
      (bodiesOf rules head).map fun body =>
        ⟨nonterms.indexOf head, body.map (encode nonterms terms)⟩).toArray
    augmented := false }

/-- Stops at the first line that is no rule. -/
def ofText (text : String) : Except Refusal Grammar :=
  match textLines text with
  | [] => .error .empty
  | ls => (ls.mapM Rule.ofLine).map ofRules

end Grammar

end ShiftReduce
