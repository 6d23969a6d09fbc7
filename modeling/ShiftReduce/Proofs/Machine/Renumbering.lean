import ShiftReduce.Proofs.Grammar.Rearrangement
import ShiftReduce.Proofs.Machine.Path
import ShiftReduce.Proofs.Table.Renumbering

/-!
Runs under other numbers. One step of the machine on renumbered stacks is the renumbered step
(`step_eq`), so the runs on a list of tokens keep pace with each other (`run_eq`). With this all
that is built for a grammar goes over to any text that spells the same productions
(`exists_renumbering`).
-/

namespace ShiftReduce

namespace Renumbering

def frame (r : Renumbering) (f : Frame) : Frame := ⟨r.state f.state, f.symbol⟩

def config (r : Renumbering) (k : Config) : Config := { k with stack := k.stack.map r.frame }

def failure (r : Renumbering) : Failure → Failure
  | .unrecognizedSymbol symbol position => .unrecognizedSymbol symbol position
  | .noAction state symbol => .noAction (r.state state) symbol
  | .conflict kind state symbol => .conflict kind (r.state state) symbol
  | .missingGoto state nonterm => .missingGoto (r.state state) nonterm

/-- A move by other numbers; the text of a rule stays. -/
def move (r : Renumbering) : Move → Move
  | .shift state => .shift (r.state state)
  | .reduce prod rule => .reduce (r.prod prod) rule
  | .accept => .accept
  | .fail cause => .fail (r.failure cause)

def fault (r : Renumbering) : Fault → Fault
  | .unknownProduction prod => .unknownProduction (r.prod prod)
  | .shiftedEnd => .shiftedEnd

def outcome (r : Renumbering) : Outcome → Outcome
  | .next move k => .next (r.move move) (r.config k)
  | .halt move => .halt (r.move move)
  | .fault f => .fault (r.fault f)

def step (r : Renumbering) (s : Step) : Step :=
  ⟨s.states.map r.state, s.symbols, s.input, r.move s.move⟩

def run (r : Renumbering) : Run → Run
  | .ended trace => .ended ⟨trace.steps.map r.step, trace.counters⟩
  | .faulted f => .faulted (r.fault f)
  | .unfinished => .unfinished

variable {r : Renumbering}

theorem topState_map (zero : r.state 0 = 0) (stack : List Frame) :
    Config.topState (stack.map r.frame) = r.state (Config.topState stack) := by
  cases stack with
  | nil => exact zero.symm
  | cons frame stack => rfl

theorem record_config (zero : r.state 0 = 0) (k : Config) (move : Move) :
    (r.config k).record (r.move move) = r.step (k.record move) := by
  have symbols : (k.stack.map r.frame).map Frame.symbol = k.stack.map Frame.symbol := by
    rw [List.map_map]
    rfl
  have states : (k.stack.map r.frame).map Frame.state = (k.stack.map Frame.state).map r.state := by
    rw [List.map_map, List.map_map]
    rfl
  simp [Config.record, Config.states, Config.symbols, config, step, symbols, states, zero,
    Config.input]

namespace Matches

variable {c d : Construction} {m n : Nat} (rel : r.Matches c.grammar d.grammar)
  (built : c.Built m) (built' : d.Built n)

include rel

theorem lookaheadTerm?_eq (k : Config) :
    d.lookaheadTerm? (r.config k) = (c.lookaheadTerm? k).map r.term := by
  rw [Construction.lookaheadTerm?, Construction.lookaheadTerm?, config]
  cases k.rest with
  | nil => exact congrArg some rel.eof.symm
  | cons token rest => exact rel.index? token

include built built'

theorem goto_eq (s a : Nat) :
    d.table.goto (r.state s) (r.nonterm a) = (c.table.goto s a).map r.state := by
  rw [built.goto_eq_transition, built'.goto_eq_transition]
  exact rel.transition_of_built built built' s (.nonterminal a)

theorem reduceBy_eq (k : Config) (q : Nat) (p : Production) :
    d.reduceBy (r.config k) (r.prod q) (r.production p) = r.outcome (c.reduceBy k q p) := by
  have below : (r.config k).stack.drop (r.production p).rhs.length =
      (k.stack.drop p.rhs.length).map r.frame := by
    rw [rhs_production, List.length_map, List.map_drop]
    rfl
  have target := rel.goto_eq built built' (Config.topState (k.stack.drop p.rhs.length)) p.head
  have head : (r.production p).head = r.nonterm p.head := rfl
  simp only [Construction.reduceBy, below, topState_map rel.state_zero, head, target,
    rel.nontermName, rel.productionText]
  cases c.table.goto (Config.topState (k.stack.drop p.rhs.length)) p.head with
  | none => rfl
  | some j => rfl

theorem step_eq (k : Config) : d.step (r.config k) = r.outcome (c.step k) := by
  rw [Construction.step, Construction.step, rel.lookaheadTerm?_eq]
  cases c.lookaheadTerm? k with
  | none => rfl
  | some t =>
      have alike : r.Alike (c.table.action (Config.topState k.stack) t)
          (d.table.action (r.state (Config.topState k.stack)) (r.term t)) :=
        rel.alike_terminal built built' (Config.topState k.stack) t
      have top : Config.topState (r.config k).stack = r.state (Config.topState k.stack) :=
        topState_map rel.state_zero k.stack
      simp only [Option.map_some, top]
      generalize c.table.action (Config.topState k.stack) t = cell at alike ⊢
      generalize d.table.action (r.state (Config.topState k.stack)) (r.term t) = cell' at alike ⊢
      cases alike with
      | none => rfl
      | @single e flat =>
          cases e with
          | shift s =>
              have rest : (r.config k).rest = k.rest := rfl
              simp only [action, rest]
              cases k.rest with
              | nil => rfl
              | cons token rest => rfl
          | reduce q =>
              simp only [action, rel.prods]
              cases c.grammar.prod? q with
              | none => rfl
              | some p => exact rel.reduceBy_eq built built' k q p
          | accept =>
              simp only [action]
              rfl
          | goto s =>
              simp only [action]
              rfl
          | conflict es => exact absurd rfl (flat es)
      | conflict perm =>
          simp only [kind_eq perm]
          rfl

theorem path {k last : Config} {steps : List Step} (path : c.Path k steps last) :
    d.Path (r.config k) (steps.map r.step) (r.config last) := by
  induction path with
  | nil k => exact .nil _
  | @cons k next last move steps step _ ih =>
      have same := rel.step_eq built built' k
      rw [step] at same
      rw [List.map_cons, ← record_config rel.state_zero]
      exact .cons same ih

theorem runFrom_eq (limit : Nat) (past : List Step) (k : Config) :
    d.runFrom limit (past.map r.step) (r.config k) = r.run (c.runFrom limit past k) := by
  induction limit generalizing past k with
  | zero => rfl
  | succ limit ih =>
      rw [Construction.runFrom, Construction.runFrom, rel.step_eq built built']
      cases c.step k with
      | next move next =>
          have longer := ih (k.record move :: past) next
          rw [List.map_cons, ← record_config rel.state_zero] at longer
          exact longer
      | halt move =>
          simp only [outcome, record_config rel.state_zero, run, List.map_reverse, List.map_cons]
          rfl
      | fault f => rfl

theorem run_eq (limit : Nat) (tokens : List String) :
    d.run limit tokens = r.run (c.run limit tokens) :=
  rel.runFrom_eq built built' limit [] (.initial tokens)

end Matches

/-- All that is built for one grammar goes over to what is built for the other, and what the machine
does with it. -/
structure Carries (r : Renumbering) (c d : Construction) : Prop
    extends r.Relates c.grammar d.grammar where
  nonterms_size : d.grammar.nonterms.size = c.grammar.nonterms.size
  terms_size : d.grammar.terms.size = c.grammar.terms.size
  prods_size : d.grammar.prods.size = c.grammar.prods.size
  spelled : ∀ p, d.grammar.spell (r.production p) = c.grammar.spell p
  nullable : ∀ a, d.sets.nullable (r.nonterm a) = c.sets.nullable a
  mem_first : ∀ a t, r.term t ∈ d.sets.first (r.nonterm a) ↔ t ∈ c.sets.first a
  mem_follow : ∀ a t, r.term t ∈ d.sets.follow (r.nonterm a) ↔ t ∈ c.sets.follow a
  state_zero : r.state 0 = 0
  size : d.automaton.size = c.automaton.size
  states : ∀ s, d.automaton.states[r.state s]? = c.automaton.states[s]?.map r.items
  transitions : ∀ s x,
    d.automaton.transition (r.state s) (r.symbol x) = (c.automaton.transition s x).map r.state
  cells : ∀ s x, r.Alike (c.table.lookup s x) (d.table.lookup (r.state s) (r.symbol x))
  isSLR1 : d.isSLR1 = c.isSLR1
  conflicts : (d.conflicts.map fun k => (k.state, k.symbol, k.kind)).Perm
    (c.conflicts.map fun k => (r.state k.state, r.symbol k.symbol, k.kind))
  conflicts_length : d.conflicts.length = c.conflicts.length
  step : ∀ k, d.step (r.config k) = r.outcome (c.step k)
  paths : ∀ tokens steps last, c.Path (.initial tokens) steps last →
    d.Path (.initial tokens) (steps.map r.step) (r.config last)
  run : ∀ limit tokens, d.run limit tokens = r.run (c.run limit tokens)

theorem Relates.spell_eq {g h : Grammar} (rel : r.Relates g h) (p : Production) :
    h.spell (r.production p) = g.spell p :=
  Prod.ext (rel.nontermName p.head) (rel.map_symbolName p.body)

theorem Matches.carries {c d : Construction} {m n : Nat} (rel : r.Matches c.grammar d.grammar)
    (built : c.Built m) (built' : d.Built n) : r.Carries c d where
  toRelates := rel.toRelates
  nonterms_size := rel.nonterms_size
  terms_size := rel.terms_size
  prods_size := rel.prods_size
  spelled := rel.spell_eq
  nullable a := by
    rw [built.sets_eq, built'.sets_eq]
    exact rel.nullable_eq built.augmented.toWellFormed built'.augmented.toWellFormed a
  mem_first a t := by
    rw [built.sets_eq, built'.sets_eq]
    exact rel.mem_first_iff built.augmented.toWellFormed built'.augmented.toWellFormed
  mem_follow _ _ := rel.follow_iff built built'
  state_zero := rel.state_zero
  size := by
    rw [built.automaton_eq, built'.automaton_eq]
    exact rel.length_states
  states := rel.states_of_built built built'
  transitions := rel.transition_of_built built built'
  cells := rel.alike_lookup built built'
  isSLR1 := rel.isSLR1_eq built built'
  conflicts := rel.conflicts_perm built built'
  conflicts_length := by simpa using (rel.conflicts_perm built built').length_eq
  step := rel.step_eq built built'
  paths _ _ _ := rel.path built built'
  run := rel.run_eq built built'

end Renumbering

namespace Construction

variable {text text' : String} {g h : Grammar} {c d : Construction}

theorem exists_renumbering (read : Grammar.ofText text = .ok g)
    (read' : Grammar.ofText text' = .ok h) (built : ofText text = .ok c)
    (built' : ofText text' = .ok d) (same : g.SameSpelling h) :
    ∃ r : Renumbering, r.Carries c d := by
  have pg := Grammar.presented_of_ofText read
  have ph := Grammar.presented_of_ofText read'
  obtain rfl := eq_ofGrammar read built
  obtain rfl := eq_ofGrammar read' built'
  have built := built_ofGrammar pg.toPlain
  have built' := built_ofGrammar ph.toPlain
  obtain ⟨r, rel⟩ := same.exists_relates pg ph
  obtain ⟨σ, zero, states⟩ := rel.exists_states built.augmented built'.augmented
  have matched : Renumbering.Matches { r with state := σ } g.augment h.augment :=
    { rel with state_zero := zero, states := states }
  exact ⟨_, matched.carries built built'⟩

/-- A block in which `L` is written before `E`. -/
def block : Grammar where
  nonterms := .ofList ["S", "L", "E"]
  terms := .ofList [";", "+", "id"]
  start := 0
  prods := #[⟨0, [.nonterminal 1, .terminal 0, .nonterminal 2]⟩, ⟨0, [.nonterminal 2]⟩,
    ⟨1, [.nonterminal 0]⟩, ⟨1, [.empty]⟩, ⟨2, [.nonterminal 2, .terminal 1, .nonterminal 2]⟩,
    ⟨2, [.terminal 2]⟩]
  augmented := false

def shuffledBlock : Grammar where
  nonterms := .ofList ["S", "E", "L"]
  terms := .ofList ["id", "+", ";"]
  start := 0
  prods := #[⟨0, [.nonterminal 1]⟩, ⟨0, [.nonterminal 2, .terminal 2, .nonterminal 1]⟩,
    ⟨1, [.terminal 0]⟩, ⟨1, [.nonterminal 1, .terminal 1, .nonterminal 1]⟩, ⟨2, [.empty]⟩,
    ⟨2, [.nonterminal 0]⟩]
  augmented := false

theorem read_block : Grammar.ofText "S -> L ; E | E\nL -> S | ^\nE -> E + E | id" = .ok block := by
  decide +kernel

theorem read_shuffledBlock :
    Grammar.ofText "S -> E\nE -> id | E + E\nL -> ^ | S | S\nS -> L ; E" = .ok shuffledBlock := by
  decide +kernel

theorem sameSpelling_block : block.SameSpelling shuffledBlock where
  start := by decide
  productions q := by
    have perm : block.spelledProductions.Perm shuffledBlock.spelledProductions := by decide +kernel
    exact perm.mem_iff

theorem exists_renumbering_block : ∃ r : Renumbering,
    r.Carries (ofGrammar block) (ofGrammar shuffledBlock) ∧ r.nonterm 2 = 3 := by
  obtain ⟨r, carries⟩ := exists_renumbering read_block read_shuffledBlock
    (ofText_of_read read_block) (ofText_of_read read_shuffledBlock) sameSpelling_block
  refine ⟨r, carries, ?_⟩
  have name : (ofGrammar shuffledBlock).grammar.nonterms.name? (r.nonterm 2) = some "L" :=
    (carries.nonterms 2).trans (by decide +kernel)
  have index : (ofGrammar shuffledBlock).grammar.nonterms.index? "L" = some 3 := by decide +kernel
  exact Option.some.inj ((Alphabet.index?_eq_some_iff.2 name).symm.trans index)

end Construction

end ShiftReduce
