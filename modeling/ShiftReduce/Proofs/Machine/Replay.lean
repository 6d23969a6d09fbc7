import ShiftReduce.Proofs.Machine.Patching

/-!
What a trace says by its moves alone. Made again from the bottom state and the whole input, they
give the stacks and the input of every step (`Path.replayAll?_eq`), and the counters of the run are
counts of its steps (`Path.counters_eq`). Both hold of every table on which a run ends
(`replays_of_ended`), for a reduction is recorded before it changes a stack, and fails before it is
counted.
-/

namespace ShiftReduce

structure Snapshot where
  states : List Nat
  symbols : List String
  input : List String
deriving DecidableEq

def Snapshot.initial (tokens : List String) : Snapshot :=
  ⟨[0], [], tokens ++ [Grammar.endSpelling]⟩

def Step.snapshot (s : Step) : Snapshot := ⟨s.states, s.symbols, s.input⟩

def Config.snapshot (k : Config) : Snapshot := ⟨k.states, k.symbols, k.input⟩

namespace Construction

open Config (topState)

variable {c : Construction} {k k' last : Config} {move : Move} {steps : List Step}
  {tokens : List String}

/-- Makes a move that has been recorded. A reduction takes off one symbol and one state for each
symbol of the right-hand side, but never the bottom state. -/
def replay? (c : Construction) (v : Snapshot) : Move → Option Snapshot
  | .shift s =>
      match v.input with
      | [] => none
      | name :: rest => some ⟨v.states ++ [s], v.symbols ++ [name], rest⟩
  | .reduce n _ => do
      let p ← c.grammar.prod? n
      let states := v.states.take (max (v.states.length - p.rhs.length) 1)
      let symbols := v.symbols.take (v.symbols.length - p.rhs.length)
      let exposed ← states.getLast?
      let s ← c.table.goto exposed p.head
      return ⟨states ++ [s], symbols ++ [c.grammar.nontermName p.head], v.input⟩
  | .accept => none
  | .fail _ => none

def replayAll? (c : Construction) (v : Snapshot) (moves : List Move) : Option Snapshot :=
  moves.foldlM c.replay? v

theorem take_states (k : Config) (n : Nat) :
    k.states.take (max (k.states.length - n) 1) =
      0 :: ((k.stack.drop n).map Frame.state).reverse := by
  have keep : max (k.states.length - n) 1 = (k.stack.drop n).length + 1 := keep_ofConfig k n
  rw [keep, Config.states, List.take_succ_cons, List.length_drop, take_reverse_map]

theorem take_symbols (k : Config) (n : Nat) :
    k.symbols.take (k.symbols.length - n) = ((k.stack.drop n).map Frame.symbol).reverse := by
  have length : k.symbols.length = k.stack.length := by simp [Config.symbols]
  rw [length, Config.symbols, take_reverse_map]

theorem getLast?_states (frames : List Frame) :
    (0 :: (frames.map Frame.state).reverse).getLast? = some (topState frames) := by
  cases frames with
  | nil => rfl
  | cons frame below => simp [topState, List.getLast?_cons]

theorem Moves.replay?_eq (moves : c.Moves k move k') :
    c.replay? k.snapshot move = some k'.snapshot := by
  cases moves with
  | shift look action ahead =>
      simp [replay?, Config.snapshot, Config.input, Config.shifted, Config.states, Config.symbols,
        Config.lookahead, ahead]
  | reduce look action found goto =>
      simp only [replay?, Config.snapshot, found, take_states, take_symbols, getLast?_states, goto,
        Option.bind_eq_bind, Option.bind_some]
      simp [Config.reduced, Config.states, Config.symbols, Config.input]

theorem Path.replayAll?_eq (path : c.Path k steps last) :
    c.replayAll? k.snapshot (steps.map Step.move) = some last.snapshot := by
  induction path with
  | nil _ => rfl
  | cons step _ ih =>
      rw [replayAll?, List.map_cons, List.foldlM_cons, Config.record,
        (step_eq_next_iff.1 step).replay?_eq]
      exact ih

theorem Path.exists_at (path : c.Path k steps last) {i : Nat} {s : Step}
    (here : (steps ++ [last.record move])[i]? = some s) :
    ∃ k' made, c.Path k ((steps ++ [last.record move]).take i) k' ∧ s = k'.record made := by
  induction path generalizing i with
  | nil k =>
      cases i with
      | zero => exact ⟨k, move, .nil k, (Option.some.inj here).symm⟩
      | succ i => cases here
  | @cons k next last made steps step _ ih =>
      cases i with
      | zero => exact ⟨k, made, .nil k, (Option.some.inj here).symm⟩
      | succ i =>
          obtain ⟨k', other, path, same⟩ := ih here
          exact ⟨k', other, .cons step path, same⟩

theorem Moves.counters_eq (moves : c.Moves k move k') :
    k'.counters = ⟨k.counters.tokens + move.isShift.toNat, k.counters.shifts + move.isShift.toNat,
      k.counters.reductions + move.reduction?.toList.length⟩ := by
  cases moves <;> rfl

theorem Path.counters_eq (path : c.Path k steps last) :
    last.counters = ⟨k.counters.tokens + shiftsOf steps, k.counters.shifts + shiftsOf steps,
      k.counters.reductions + (reductionsOf steps).length⟩ := by
  induction path with
  | nil _ => rfl
  | cons step _ ih =>
      rw [ih, (step_eq_next_iff.1 step).counters_eq, shiftsOf_cons, reductionsOf_cons,
        List.length_append]
      simp only [Counters.mk.injEq]
      omega

theorem Path.move_of_mem (path : c.Path k steps last) {s : Step} (mem : s ∈ steps) :
    (∃ state, s.move = .shift state) ∨ ∃ n rule, s.move = .reduce n rule := by
  induction path with
  | nil _ => cases mem
  | cons step _ ih =>
      cases mem with
      | tail _ mem => exact ih mem
      | head =>
          cases step_eq_next_iff.1 step with
          | shift _ _ _ => exact .inl ⟨_, rfl⟩
          | reduce _ _ _ _ => exact .inr ⟨_, _, rfl⟩

theorem Halts.move_eq (halts : c.Halts k move) : move = .accept ∨ ∃ cause, move = .fail cause := by
  cases halts with
  | accept _ _ => exact .inl rfl
  | unrecognized _ => exact .inr ⟨_, rfl⟩
  | missingGoto _ _ _ _ => exact .inr ⟨_, rfl⟩
  | conflict _ _ => exact .inr ⟨_, rfl⟩
  | noAction _ _ => exact .inr ⟨_, rfl⟩

theorem eq_of_turn?_eq_last {r r' : Registers} {step : Step}
    (turn : c.turn? tokens r = some (.last step r')) :
    r' = r ∧ step.states = r.states ∧ step.symbols = r.symbols := by
  simp only [turn?, Option.bind_eq_bind, Option.bind_eq_some_iff] at turn
  obtain ⟨_, _, _, _, _, _, turn⟩ := turn
  unfold act? at turn
  split at turn
  · cases turn
    exact ⟨rfl, rfl, rfl⟩
  · split at turn
    · cases turn
    · simp only [Option.bind_eq_bind, Option.bind_eq_some_iff] at turn
      obtain ⟨_, _, _, _, turn⟩ := turn
      split at turn
      · cases turn
        exact ⟨rfl, rfl, rfl⟩
      · cases turn
    all_goals
      cases turn
      exact ⟨rfl, rfl, rfl⟩

structure Replays (c : Construction) (tokens : List String) (t : Trace) : Prop where
  driven : ∃ limit, c.drive? limit tokens = some (.ended t)
  ends : ∃ before last, t.steps = before ++ [last] ∧
    (∀ s ∈ before, (∃ state, s.move = .shift state) ∨ ∃ n rule, s.move = .reduce n rule) ∧
    (last.move = .accept ∨ ∃ cause, last.move = .fail cause)
  replayed : ∀ i s, t.steps[i]? = some s →
    c.replayAll? (.initial tokens) ((t.steps.take i).map Step.move) = some s.snapshot
  shifts_eq : t.counters.shifts = t.shifts
  reductions_eq : t.counters.reductions = t.reductions.length
  tokens_eq : t.counters.tokens = t.counters.shifts + 1
  length_steps : t.steps.length = t.counters.shifts + t.counters.reductions + 1
  stuck : ∀ r step r' state name, c.Reached tokens r → c.turn? tokens r = some (.last step r') →
    step.move = .fail (.missingGoto state name) →
    r' = r ∧ step.states = r.states ∧ step.symbols = r.symbols

theorem replays_of_ended {limit : Nat} {t : Trace} (ended : c.run limit tokens = .ended t) :
    c.Replays tokens t := by
  obtain ⟨steps, last, move, path, halts, rfl⟩ := run_eq_ended_iff.1 ⟨limit, ended⟩
  have counters := path.counters_eq
  have progress := path.progress
  have position := path.position_eq
  simp only [Config.initial, Nat.zero_add] at counters progress position
  refine ⟨⟨limit, ?_⟩, ?_, ?_, ?_, ?_, ?_, ?_, ?_⟩
  · rw [drive?_eq (by simp [ended]), ended]
  · exact ⟨steps, _, rfl, fun s mem => path.move_of_mem mem, halts.move_eq⟩
  · intro i s here
    obtain ⟨k, made, front, rfl⟩ := path.exists_at here
    exact front.replayAll?_eq
  · rw [halts.shifts_eq, counters]
  · rw [halts.reductions_eq, counters]
  · rw [counters, Nat.add_comm]
  · simp only [List.length_append, List.length_singleton, counters]
    omega
  · intro r step r' _ _ _ turn _
    exact eq_of_turn?_eq_last turn

/-- The start symbol leads nowhere any more. -/
def unled : Construction where
  grammar := couple.augment
  sets := (ofGrammar couple).sets
  automaton := (ofGrammar couple).automaton
  table :=
    { rows := [
        [none, none, some (.shift 2), none],
        [none, none, none, some .accept],
        [none, none, some (.shift 3), none],
        [none, none, none, some (.reduce 1)]]
      nonterms := 2
      eof := 1 }

theorem patched_unled : (ofGrammar couple).Patched unled := by
  have patch : (ofGrammar couple).table.patch? 0 1 none = some unled.table := by decide +kernel
  exact .cell .refl patch

/-- The reduction fails with both tokens still on the stack, and is not counted. -/
theorem replays_unled : (ofGrammar couple).Patched unled ∧ unled.Replays ["a", "a"]
    ⟨[⟨[0], [], ["a", "a", "$"], .shift 2⟩,
      ⟨[0, 2], ["a"], ["a", "$"], .shift 3⟩,
      ⟨[0, 2, 3], ["a", "a"], ["$"], .fail (.missingGoto 0 "S")⟩], ⟨3, 2, 0⟩⟩ := by
  have ended : unled.run 3 ["a", "a"] = .ended
      ⟨[⟨[0], [], ["a", "a", "$"], .shift 2⟩,
        ⟨[0, 2], ["a"], ["a", "$"], .shift 3⟩,
        ⟨[0, 2, 3], ["a", "a"], ["$"], .fail (.missingGoto 0 "S")⟩], ⟨3, 2, 0⟩⟩ := by
    decide +kernel
  exact ⟨patched_unled, replays_of_ended ended⟩

end Construction

end ShiftReduce
