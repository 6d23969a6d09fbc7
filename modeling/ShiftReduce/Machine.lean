import ShiftReduce.Construction
import ShiftReduce.Trace

/-!
The shift/reduce machine. A configuration is a stack of frames over the bottom state 0 and the
tokens that are left; the end marker is looked at where no token is left, so no token can be taken
for it. A table that was not built from its grammar can make a step fault: by a reduction with an
unknown production or by shifting the end marker.
-/

namespace ShiftReduce

structure Frame where
  state : Nat
  symbol : String
deriving DecidableEq

/-- The stack has its top in front and leaves out the bottom state. -/
structure Config where
  stack : List Frame
  position : Nat
  rest : List String
  counters : Counters
deriving DecidableEq

inductive Fault where
  | unknownProduction (prod : Nat)
  | shiftedEnd
deriving DecidableEq

inductive Outcome where
  | next (move : Move) (config : Config)
  | halt (move : Move)
  | fault (f : Fault)
deriving DecidableEq

inductive Run where
  | ended (trace : Trace)
  | faulted (f : Fault)
  | unfinished
deriving DecidableEq

namespace Config

/-- The first configuration has looked at one token and taken none. -/
def initial (tokens : List String) : Config := ⟨[], 0, tokens, ⟨1, 0, 0⟩⟩

def topState : List Frame → Nat
  | [] => 0
  | frame :: _ => frame.state

def states (k : Config) : List Nat := 0 :: (k.stack.map Frame.state).reverse

def symbols (k : Config) : List String := (k.stack.map Frame.symbol).reverse

/-- The tokens that are left, with the end marker behind them. -/
def input (k : Config) : List String := k.rest ++ [Grammar.endSpelling]

def lookahead (k : Config) : String := k.rest.headD Grammar.endSpelling

def record (k : Config) (move : Move) : Step := ⟨k.states, k.symbols, k.input, move⟩

theorem length_states (k : Config) : k.states.length = k.symbols.length + 1 := by
  simp [states, symbols]

def shifted (k : Config) (state : Nat) (rest : List String) : Config where
  stack := ⟨state, k.lookahead⟩ :: k.stack
  position := k.position + 1
  rest := rest
  counters :=
    { k.counters with tokens := k.counters.tokens + 1, shifts := k.counters.shifts + 1 }

def reduced (k : Config) (below : List Frame) (state : Nat) (symbol : String) : Config where
  stack := ⟨state, symbol⟩ :: below
  position := k.position
  rest := k.rest
  counters := { k.counters with reductions := k.counters.reductions + 1 }

end Config

namespace Construction

/-- The terminal that the machine looks at, unless it is unknown to the grammar. -/
def lookaheadTerm? (c : Construction) (k : Config) : Option Nat :=
  match k.rest with
  | [] => some c.grammar.eof
  | token :: _ => c.grammar.terms.index? token

/-- A reduction takes off one frame per symbol, and never the bottom state. -/
def reduceBy (c : Construction) (k : Config) (n : Nat) (p : Production) : Outcome :=
  let below := k.stack.drop p.rhs.length
  match c.table.goto (Config.topState below) p.head with
  | none => .halt (.fail (.missingGoto (Config.topState below) (c.grammar.nontermName p.head)))
  | some state =>
      .next (.reduce n (c.grammar.productionText p))
        (k.reduced below state (c.grammar.nontermName p.head))

def step (c : Construction) (k : Config) : Outcome :=
  match c.lookaheadTerm? k with
  | none => .halt (.fail (.unrecognizedSymbol k.lookahead k.position))
  | some t =>
      match c.table.action (Config.topState k.stack) t with
      | some (.shift state) =>
          match k.rest with
          | [] => .fault .shiftedEnd
          | _ :: rest => .next (.shift state) (k.shifted state rest)
      | some (.reduce n) =>
          match c.grammar.prod? n with
          | none => .fault (.unknownProduction n)
          | some p => c.reduceBy k n p
      | some .accept => .halt .accept
      | some (.conflict entries) =>
          .halt (.fail (.conflict (.ofEntries entries) (Config.topState k.stack) k.lookahead))
      | _ => .halt (.fail (.noAction (Config.topState k.stack) k.lookahead))

/-- At most `limit` steps from `k`, where `past` holds the steps before it, latest first. -/
def runFrom (c : Construction) : Nat → List Step → Config → Run
  | 0, _, _ => .unfinished
  | limit + 1, past, k =>
      match c.step k with
      | .next move next => c.runFrom limit (k.record move :: past) next
      | .halt move => .ended ⟨(k.record move :: past).reverse, k.counters⟩
      | .fault f => .faulted f

def run (c : Construction) (limit : Nat) (tokens : List String) : Run :=
  c.runFrom limit [] (.initial tokens)

theorem runFrom_of_le {c : Construction} {n m : Nat} {past : List Step} {k : Config}
    (ended : c.runFrom n past k ≠ .unfinished) (le : n ≤ m) :
    c.runFrom m past k = c.runFrom n past k := by
  induction n generalizing m past k with
  | zero => exact absurd rfl ended
  | succ n ih =>
      obtain ⟨m, rfl⟩ : ∃ j, m = j + 1 := ⟨m - 1, by omega⟩
      simp only [runFrom] at ended ⊢
      split <;> simp_all

/-- More steps than a machine has time for; a grammar with a nonterminal that derives no string of
terminals can make a run endless. -/
def stepLimit : Nat := Nat.pow 2 62

def parseTokens (c : Construction) (tokens : List String) : Run := c.run stepLimit tokens

def parse (c : Construction) (input : String) : Run := c.parseTokens (Text.words input)

end Construction

end ShiftReduce
