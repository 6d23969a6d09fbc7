import ShiftReduce.Proofs.Machine.Registers
import ShiftReduce.Proofs.Table.Views

/-!
Runs on a table whose cells have been overwritten. Nothing that holds of built tables is left, but
as long as no cell of the end marker shifts and reductions name productions, no step faults
(`Operable.not_faults`); so the registers stay in step and no index is out of range
(`survives_of_patched`). A state past the end of the table has no entries, and a reduction that
takes off more than there is leaves the bottom state.
-/

namespace ShiftReduce

namespace Construction

open Config (topState)

variable {c d : Construction} {k : Config} {r r' : Registers} {step : Step} {tokens : List String}

inductive Patched (c : Construction) : Construction → Prop
  | refl : Patched c c
  | cell {d : Construction} {tab : Table} {s col : Nat} {entry : Option Action}
      (before : Patched c d) (patch : d.table.patch? s col entry = some tab) :
      Patched c { d with table := tab }

/-- No cell of the end marker shifts, and every cell that reduces names a production. -/
structure Operable (c : Construction) : Prop where
  not_shift : ∀ row ∈ c.table.rows, ∀ s,
    row[c.table.nonterms + c.table.eof]? ≠ some (some (.shift s))
  known : ∀ row ∈ c.table.rows, ∀ n, some (.reduce n) ∈ row → n < c.grammar.prods.size

theorem Patched.eof_eq (patched : c.Patched d) (same : c.table.eof = c.grammar.eof) :
    d.table.eof = d.grammar.eof := by
  induction patched with
  | refl => exact same
  | cell _ patch ih =>
      obtain ⟨_, _, _, rfl⟩ := Table.patch?_eq_some_iff.1 patch
      exact ih

theorem Operable.not_faults (operable : c.Operable) (same : c.table.eof = c.grammar.eof)
    (k : Config) (f : Fault) : ¬ c.Faults k f := by
  intro faults
  cases faults with
  | @shiftedEnd t s look action none_ahead =>
      rw [lookaheadTerm?, none_ahead, Option.some.injEq] at look
      obtain ⟨row, mem, _, col, column, cell⟩ := Table.exists_row_of_lookup action
      rw [← look, ← same, Table.column?, if_pos le_rfl, Option.some.injEq] at column
      exact operable.not_shift row mem s (column ▸ cell)
  | @unknownProduction t n look action unknown =>
      obtain ⟨row, mem, _, col, _, cell⟩ := Table.exists_row_of_lookup action
      have known := operable.known row mem n (List.mem_of_getElem? cell)
      rw [Grammar.prod?, Array.getElem?_eq_none_iff] at unknown
      exact absurd known (Nat.not_lt.2 unknown)

/-- What a run on the tokens can rely on, whatever entries the table holds. -/
structure Survives (c : Construction) (tokens : List String) : Prop where
  drive?_eq : ∀ limit, c.drive? limit tokens = some (c.run limit tokens)
  in_range : ∀ r, c.Reached tokens r → ∃ turn, c.turn? tokens r = some turn
  length_states : ∀ r, c.Reached tokens r → r.states.length = r.symbols.length + 1
  bottom : ∀ r, c.Reached tokens r → r.states[0]? = some 0
  position_le : ∀ r, c.Reached tokens r → r.position ≤ tokens.length
  past_end : ∀ r name, c.Reached tokens r → c.table.size ≤ r.top →
    (tokens ++ [Grammar.endSpelling])[r.position]? = some name →
    ∃ step, c.turn? tokens r = some (.last step r) ∧ step.move = .fail
      (if r.position < tokens.length ∧ name ∉ c.grammar.terms.names then
        .unrecognizedSymbol name r.position else .noAction r.top name)
  keeps_bottom : ∀ r r' step n rule p, c.Reached tokens r →
    c.turn? tokens r = some (.next step r') → step.move = .reduce n rule →
    c.grammar.prod? n = some p → r.symbols.length ≤ p.rhs.length →
    ∃ s, r'.states = [0, s] ∧ r'.symbols = [c.grammar.nontermName p.head]

theorem lookaheadTerm?_eq_none_iff (on : k.On tokens) : c.lookaheadTerm? k = none ↔
    k.position < tokens.length ∧ k.lookahead ∉ c.grammar.terms.names := by
  rw [← term?_position on, Alphabet.index?]
  split <;> simp [*]

section

variable (safe : ∀ k f, ¬ c.Faults k f)

include safe

theorem Reached.exists_config (reached : c.Reached tokens r) :
    ∃ k, k.On tokens ∧ r = .ofConfig k := by
  obtain ⟨_, k, path, rfl⟩ := reached.exists_path safe
  exact ⟨k, path.on (on_initial tokens), rfl⟩

theorem exists_turn?_of_past_end (reached : c.Reached tokens r) (beyond : c.table.size ≤ r.top)
    {name : String} (here : (tokens ++ [Grammar.endSpelling])[r.position]? = some name) :
    ∃ step, c.turn? tokens r = some (.last step r) ∧ step.move = .fail
      (if r.position < tokens.length ∧ name ∉ c.grammar.terms.names then
        .unrecognizedSymbol name r.position else .noAction r.top name) := by
  obtain ⟨k, on, rfl⟩ := reached.exists_config safe
  obtain rfl : k.lookahead = name := Option.some.inj ((getElem?_position on).symm.trans here)
  rw [top_ofConfig] at beyond ⊢
  cases look : c.lookaheadTerm? k with
  | none =>
      refine ⟨_, turn?_of_halts on (.unrecognized look), ?_⟩
      exact congrArg Move.fail (if_pos ((lookaheadTerm?_eq_none_iff on).1 look)).symm
  | some t =>
      have known : ¬ (k.position < tokens.length ∧ k.lookahead ∉ c.grammar.terms.names) := by
        rw [← lookaheadTerm?_eq_none_iff on, look]
        exact Option.some_ne_none t
      refine ⟨_, turn?_of_halts on (.noAction look (.inl (Table.lookup_of_size_le beyond _))), ?_⟩
      exact congrArg Move.fail (if_neg known).symm

theorem eq_bottom_of_reduce (reached : c.Reached tokens r)
    (turn : c.turn? tokens r = some (.next step r')) {n : Nat} {rule : String}
    (move : step.move = .reduce n rule) {p : Production} (found : c.grammar.prod? n = some p)
    (all : r.symbols.length ≤ p.rhs.length) :
    ∃ s, r'.states = [0, s] ∧ r'.symbols = [c.grammar.nontermName p.head] := by
  obtain ⟨k, on, rfl⟩ := reached.exists_config safe
  have none_left : k.stack.drop p.rhs.length = [] := by
    simpa [Registers.ofConfig, Config.symbols] using all
  rcases moves_or_halts_of_not_faults (safe k) with ⟨made, k', moves⟩ | ⟨made, halts⟩
  · rw [turn?_of_moves on moves] at turn
    cases turn
    cases moves with
    | shift _ _ _ => cases move
    | @reduce t m s q look action found' goto =>
        cases move
        obtain rfl : p = q := Option.some.inj (found.symm.trans found')
        refine ⟨s, ?_, ?_⟩
        · simp [Registers.ofConfig, Config.reduced, Config.states, none_left]
        · simp [Registers.ofConfig, Config.reduced, Config.symbols, none_left]
  · rw [turn?_of_halts on halts] at turn
    cases turn

theorem survives_of_safe (tokens : List String) : c.Survives tokens where
  drive?_eq limit := drive?_eq (runFrom_ne_faulted safe limit [] (.initial tokens))
  in_range r reached := by
    obtain ⟨k, on, rfl⟩ := reached.exists_config safe
    rcases moves_or_halts_of_not_faults (safe k) with ⟨_, _, moves⟩ | ⟨_, halts⟩
    · exact ⟨_, turn?_of_moves on moves⟩
    · exact ⟨_, turn?_of_halts on halts⟩
  length_states r reached := by
    obtain ⟨k, _, rfl⟩ := reached.exists_config safe
    exact k.length_states
  bottom r reached := by
    obtain ⟨k, _, rfl⟩ := reached.exists_config safe
    rfl
  position_le r reached := by
    obtain ⟨k, on, rfl⟩ := reached.exists_config safe
    exact on.le
  past_end _ _ reached beyond here := exists_turn?_of_past_end safe reached beyond here
  keeps_bottom _ _ _ _ _ _ reached turn move found all :=
    eq_bottom_of_reduce safe reached turn move found all

end

theorem survives_of_patched {text : String} (built : ofText text = .ok c)
    (patched : c.Patched d) (operable : d.Operable) (tokens : List String) : d.Survives tokens := by
  have same : c.table.eof = c.grammar.eof := by
    obtain ⟨g, _, rfl⟩ := exists_read built
    rfl
  exact survives_of_safe (operable.not_faults (patched.eof_eq same)) tokens

/-- Two tokens of one spelling. -/
def couple : Grammar where
  nonterms := .ofList ["S"]
  terms := .ofList ["a"]
  start := 0
  prods := #[⟨0, [.terminal 0, .terminal 0]⟩]
  augmented := false

theorem ofText_couple : ofText "S -> a a" = .ok (ofGrammar couple) :=
  ofText_of_read (by decide +kernel)

/-- State 0 shifts to a state that there is not, and reduces where nothing is on the stack. -/
def strayed : Construction where
  grammar := couple.augment
  sets := (ofGrammar couple).sets
  automaton := (ofGrammar couple).automaton
  table :=
    { rows := [
        [none, some (.goto 1), some (.shift 99), some (.reduce 1)],
        [none, none, none, some .accept],
        [none, none, some (.shift 3), none],
        [none, none, none, some (.reduce 1)]]
      nonterms := 2
      eof := 1 }

theorem patched_strayed : (ofGrammar couple).Patched strayed := by
  let tab : Table :=
    { strayed.table with
      rows := strayed.table.rows.set 0 [none, some (.goto 1), some (.shift 99), none] }
  have shift : (ofGrammar couple).table.patch? 0 2 (some (.shift 99)) = some tab := by
    decide +kernel
  have reduce : tab.patch? 0 3 (some (.reduce 1)) = some strayed.table := by
    decide +kernel
  exact .cell (.cell .refl shift) reduce

theorem operable_strayed : strayed.Operable where
  not_shift := by simp [strayed]
  known := by
    have size : 1 < couple.augment.prods.size := by decide +kernel
    simpa [strayed] using size

/-- The reduction takes two symbols off an empty stack. -/
theorem survives_strayed : strayed.Survives [] ∧
    strayed.turn? [] .initial = some (.next ⟨[0], [], ["$"], .reduce 1 "S -> a a"⟩
      ⟨[0, 1], ["S"], 0, ⟨1, 0, 1⟩⟩) :=
  ⟨survives_of_patched ofText_couple patched_strayed operable_strayed [], by decide +kernel⟩

/-- A token that is no terminal is not looked up, also in a state that is not in the table. -/
theorem unrecognized_strayed :
    ¬ ∀ (text : String) (c d : Construction), ofText text = .ok c → c.Patched d → d.Operable →
      ∀ tokens r, d.Reached tokens r → d.table.size ≤ r.top →
        ∃ step name, d.turn? tokens r = some (.last step r) ∧
          step.move = .fail (.noAction r.top name) := by
  intro always
  have shift : strayed.turn? ["a", "x"] .initial =
      some (.next ⟨[0], [], ["a", "x", "$"], .shift 99⟩ ⟨[0, 99], ["a"], 1, ⟨2, 1, 0⟩⟩) := by
    decide +kernel
  have reached := Reached.next .initial shift
  obtain ⟨step, name, turn, move⟩ := always _ _ _ ofText_couple patched_strayed operable_strayed
    _ _ reached (by decide)
  have unknown : strayed.turn? ["a", "x"] ⟨[0, 99], ["a"], 1, ⟨2, 1, 0⟩⟩ =
      some (.last ⟨[0, 99], ["a"], ["x", "$"], .fail (.unrecognizedSymbol "x" 1)⟩
        ⟨[0, 99], ["a"], 1, ⟨2, 1, 0⟩⟩) := by
    decide +kernel
  rw [unknown] at turn
  cases turn
  cases move

end Construction

end ShiftReduce
