import ShiftReduce.Machine

/-!
The journal of a construction and of its parses: messages with a level, in the order of the work
they report on. A maximum level keeps the messages that are at least as grave.
-/

namespace ShiftReduce

inductive Level where
  | error
  | warn
  | info
  | debug
  | trace
deriving DecidableEq

structure Entry where
  level : Level
  message : String
deriving DecidableEq

namespace Level

/-- Higher levels are more talkative. -/
def rank : Level → Nat
  | error => 1
  | warn => 2
  | info => 3
  | debug => 4
  | trace => 5

def name : Level → String
  | error => "error"
  | warn => "warn"
  | info => "info"
  | debug => "debug"
  | trace => "trace"

end Level

namespace Journal

/-- The entries up to a level; without one, none. -/
def upTo (maximum : Option Level) (entries : List Entry) : List Entry :=
  entries.filter fun e => maximum.any fun m => e.level.rank ≤ m.rank

def ofGrammar (g : Grammar) : List Entry :=
  g.undefinedNonterms.map (fun a =>
      ⟨.warn, "nonterminal " ++ g.nontermName a ++ " has no productions"⟩) ++
    [⟨.debug, "grammar: " ++ toString g.nonterms.size ++ " nonterminals, " ++
      toString g.terms.size ++ " terminals, " ++ toString g.prods.size ++ " productions"⟩]

def ofConflict (g : Grammar) (c : Conflict) : Entry :=
  ⟨.warn, c.kind.text ++ " conflict at state " ++ toString c.state ++ ", symbol " ++
    g.symbolName c.symbol ++ ": " ++ (Action.conflict c.entries).text⟩

def ofTable (g : Grammar) (tab : Table) : List Entry :=
  tab.conflicts.map (ofConflict g) ++
    [⟨.debug, "table: " ++ toString tab.size ++ " states x " ++ toString tab.width ++
      " columns, " ++ toString tab.conflicts.length ++ " conflicts"⟩]

def ofConstruction (g : Grammar) (c : Construction) : List Entry :=
  ofGrammar g ++
    [⟨.debug, "first/follow: fixpoint after " ++ toString (TerminalSets.passes c.grammar) ++
      " passes"⟩,
     ⟨.debug, "lr0: " ++ toString c.automaton.size ++ " states"⟩] ++
    ofTable c.grammar c.table

def stackText (step : Step) : String :=
  let mark := fun (s : Nat) => "<" ++ toString s ++ "> "
  String.join ((step.states.take 1).map mark ++
    List.zipWith (fun name s => name ++ " " ++ mark s) step.symbols (step.states.drop 1)) ++
    " <-  " ++ Text.spaced step.input

/-- A goto that is missing is not announced: it never is in a table built from its grammar. -/
def decision? : Move → Option String
  | .shift s => some ("Shift " ++ toString s)
  | .reduce p _ => some ("Reduce " ++ toString p)
  | .accept => some "Accept"
  | .fail (.unrecognizedSymbol symbol _) => some ("Unrecognized " ++ symbol)
  | .fail (.conflict kind _ _) => some ("Conflict " ++ kind.text)
  | .fail (.noAction _ symbol) => some ("Error on " ++ symbol)
  | .fail (.missingGoto _ _) => none

def ofStep (step : Step) : List Entry :=
  ⟨.trace, stackText step⟩ :: ((decision? step.move).map fun text => ⟨.trace, text⟩).toList

def countersText (s : Counters) : String :=
  "ParserStats \x7b tokens: " ++ toString s.tokens ++ ", shifts: " ++ toString s.shifts ++
    ", reductions: " ++ toString s.reductions ++ " \x7d"

def ofTrace (t : Trace) : List Entry :=
  t.steps.flatMap ofStep ++
    [⟨.debug, "parse: " ++ toString t.steps.length ++ " steps, accepted=" ++
      (if t.isAccepted then "true" else "false") ++ ", " ++ countersText t.counters⟩]

end Journal

end ShiftReduce
