import ShiftReduce.Text.Words
import ShiftReduce.Table.Action

/-!
What a parse leaves behind: one record per step with the stacks and the input before it, and the
counters at the end. Only the last step can accept or fail.
-/

namespace ShiftReduce

inductive Failure where
  | unrecognizedSymbol (symbol : String) (position : Nat)
  | noAction (state : Nat) (symbol : String)
  | conflict (kind : ConflictKind) (state : Nat) (symbol : String)
  | missingGoto (state : Nat) (nonterm : String)
deriving DecidableEq

def Failure.message : Failure → String
  | unrecognizedSymbol symbol _ => "unrecognized symbol " ++ symbol
  | noAction _ _ => "input cannot be parsed by given grammar"
  | conflict kind state symbol =>
      kind.text ++ " conflict at state " ++ toString state ++ ", symbol " ++ symbol
  | missingGoto state nonterm => "no goto from state " ++ toString state ++ " on " ++ nonterm

inductive Move where
  | shift (state : Nat)
  | reduce (prod : Nat) (rule : String)
  | accept
  | fail (cause : Failure)
deriving DecidableEq

def Move.text : Move → String
  | shift _ => "shift"
  | reduce _ rule => "reduce by " ++ rule
  | accept => "accept"
  | fail cause => "ERROR: " ++ cause.message

/-- The stacks from the bottom and the input that is left, before the move. -/
structure Step where
  states : List Nat
  symbols : List String
  input : List String
  move : Move
deriving DecidableEq

/-- `tokens` counts the tokens looked at, the end marker among them. -/
structure Counters where
  tokens : Nat
  shifts : Nat
  reductions : Nat
deriving DecidableEq

structure Trace where
  steps : List Step
  counters : Counters
deriving DecidableEq

namespace Trace

def last? (t : Trace) : Option Step := t.steps.getLast?

def isAccepted (t : Trace) : Bool := t.last?.any fun step => step.move == .accept

def failure? (t : Trace) : Option Failure :=
  t.last?.bind fun step =>
    match step.move with
    | .fail cause => some cause
    | _ => none

def stepLine (step : Step) (n : Nat) : String :=
  ",".intercalate ["T", toString n, Text.spaced (step.states.map toString),
    Text.spaced step.symbols, Text.spaced step.input, step.move.text]

def lines (t : Trace) : List String :=
  ["TS," ++ toString t.steps.length, ""] ++ t.steps.zipIdx.map fun (step, n) => stepLine step n

def text (t : Trace) : String := Text.unlines t.lines

end Trace

end ShiftReduce
