import ShiftReduce.Proofs.Machine.Path
import ShiftReduce.Proofs.Table.Entries

/-!
The machine looks at one token. Where two lists of tokens agree up to a place, the runs on them go
abreast: same stacks, same moves, same counters, until the token at that place has been shifted
(`Abreast.moves`, `Abreast.path`). What is left of the input is all that their steps differ in, so
`Step.sight` leaves it out. The end marker comes into sight at the end of a list only, whatever the
terminals are spelled like, and the entries of the table do not matter.
-/

namespace ShiftReduce

structure Sight where
  states : List Nat
  symbols : List String
  move : Move
deriving DecidableEq

def Step.sight (s : Step) : Sight := ⟨s.states, s.symbols, s.move⟩

def Trace.sights (t : Trace) : List Sight := t.steps.map Step.sight

def shiftsSeen (sights : List Sight) : Nat := sights.countP fun sight => sight.move.isShift

theorem shiftsSeen_map_sight (steps : List Step) :
    shiftsSeen (steps.map Step.sight) = shiftsOf steps := by
  rw [shiftsSeen, List.countP_map]
  rfl

namespace Construction

variable {c : Construction} {k k' next last : Config} {move : Move} {steps : List Step}
  {xs ys : List String} {n : Nat}

/-- These are the first steps of the run on the tokens. -/
def Shows (c : Construction) (tokens : List String) (sights : List Sight) : Prop :=
  ∃ steps k move, c.Path (.initial tokens) steps k ∧
    ((∃ k', c.step k = .next move k') ∨ c.step k = .halt move) ∧
    sights = (steps ++ [k.record move]).map Step.sight

/-- After these steps the run goes on by a shift to the state `s`, and then has the stacks. -/
def Shifts (c : Construction) (tokens : List String) (before : List Sight) (s : Nat)
    (states : List Nat) (symbols : List String) : Prop :=
  ∃ steps k next, c.Path (.initial tokens) steps k ∧ steps.map Step.sight = before ∧
    c.step k = .next (.shift s) next ∧ next.states = states ∧ next.symbols = symbols

def Leaves (c : Construction) (limit : Nat) (tokens : List String) (sights : List Sight)
    (counters : Counters) : Prop :=
  ∃ t, c.run limit tokens = .ended t ∧ t.sights = sights ∧ t.counters = counters

structure Abreast (xs ys : List String) (k k' : Config) : Prop where
  on_left : k.On xs
  on_right : k'.On ys
  stack_eq : k'.stack = k.stack
  position_eq : k'.position = k.position
  counters_eq : k'.counters = k.counters

theorem length_le_of_runFrom {limit : Nat} {past : List Step} {t : Trace}
    (ended : c.runFrom limit past k = .ended t) : t.steps.length ≤ past.length + limit := by
  induction limit generalizing past k with
  | zero => cases ended
  | succ limit ih =>
      rw [runFrom] at ended
      split at ended
      · have le := ih ended
        simp only [List.length_cons] at le
        omega
      · cases ended
        simp only [List.length_reverse, List.length_cons]
        omega
      · cases ended

theorem lookaheadTerm?_congr (ahead : k'.rest.head? = k.rest.head?) :
    c.lookaheadTerm? k' = c.lookaheadTerm? k := by
  rw [lookaheadTerm?, lookaheadTerm?]
  cases here : k.rest <;> cases there : k'.rest <;> simp_all

theorem lookahead_congr (ahead : k'.rest.head? = k.rest.head?) : k'.lookahead = k.lookahead := by
  rw [Config.lookahead, Config.lookahead, List.headD_eq_head?_getD, List.headD_eq_head?_getD, ahead]

theorem abreast_initial (xs ys : List String) : Abreast xs ys (.initial xs) (.initial ys) where
  on_left := on_initial xs
  on_right := on_initial ys
  stack_eq := rfl
  position_eq := rfl
  counters_eq := rfl

namespace Abreast

theorem sight_eq (abreast : Abreast xs ys k k') (move : Move) :
    (k'.record move).sight = (k.record move).sight := by
  simp [Step.sight, Config.record, Config.states, Config.symbols, abreast.stack_eq]

section

variable (same : xs.take (n + 1) = ys.take (n + 1)) (abreast : Abreast xs ys k k')
  (within : k.position ≤ n)

include same abreast within

theorem head?_rest_eq : k'.rest.head? = k.rest.head? := by
  have inside : k.position < n + 1 := Nat.lt_succ_of_le within
  calc
    k'.rest.head? = ys[k.position]? := by
      rw [abreast.on_right.rest_eq, List.head?_drop, abreast.position_eq]
    _ = (ys.take (n + 1))[k.position]? := (List.getElem?_take_of_lt inside).symm
    _ = xs[k.position]? := by rw [← same, List.getElem?_take_of_lt inside]
    _ = k.rest.head? := by rw [abreast.on_left.rest_eq, List.head?_drop]

theorem moves (moves : c.Moves k move next) :
    ∃ next', c.Moves k' move next' ∧ Abreast xs ys next next' := by
  have ahead := abreast.head?_rest_eq same within
  have look_eq := lookaheadTerm?_congr (c := c) ahead
  have on_left := moves.on abreast.on_left
  cases moves with
  | @shift t s token rest look action here =>
      obtain ⟨rest', there⟩ : ∃ rest', k'.rest = token :: rest' := by
        rw [here, List.head?_cons, List.head?_eq_some_iff] at ahead
        exact ahead
      have moves' : c.Moves k' (.shift s) (k'.shifted s rest') :=
        .shift (look_eq.trans look) (abreast.stack_eq ▸ action) there
      refine ⟨_, moves', on_left, moves'.on abreast.on_right, ?_, ?_, ?_⟩
      · simp [Config.shifted, abreast.stack_eq, lookahead_congr ahead]
      · simp [Config.shifted, abreast.position_eq]
      · simp [Config.shifted, abreast.counters_eq]
  | @reduce t m s p look action found goto =>
      have moves' : c.Moves k' (.reduce m (c.grammar.productionText p)) _ :=
        .reduce (look_eq.trans look) (abreast.stack_eq ▸ action) found (abreast.stack_eq ▸ goto)
      refine ⟨_, moves', on_left, moves'.on abreast.on_right, ?_, abreast.position_eq, ?_⟩
      · simp [Config.reduced, abreast.stack_eq]
      · simp [Config.reduced, abreast.counters_eq]

theorem halts (halts : c.Halts k move) : c.Halts k' move := by
  have ahead := abreast.head?_rest_eq same within
  have look_eq := lookaheadTerm?_congr (c := c) ahead
  have top := congrArg Config.topState abreast.stack_eq
  cases halts with
  | unrecognized look =>
      rw [← lookahead_congr ahead, ← abreast.position_eq]
      exact .unrecognized (look_eq.trans look)
  | missingGoto look action found goto =>
      rw [← abreast.stack_eq]
      exact .missingGoto (look_eq.trans look) (top ▸ action) found (abreast.stack_eq ▸ goto)
  | accept look action => exact .accept (look_eq.trans look) (top ▸ action)
  | conflict look action =>
      rw [← lookahead_congr ahead, ← top]
      exact .conflict (look_eq.trans look) (top ▸ action)
  | noAction look action =>
      rw [← lookahead_congr ahead, ← top]
      exact .noAction (look_eq.trans look) (top ▸ action)

end

theorem path (same : xs.take (n + 1) = ys.take (n + 1)) (abreast : Abreast xs ys k k')
    (path : c.Path k steps last) (within : last.position ≤ n) :
    ∃ steps' last', c.Path k' steps' last' ∧
      steps'.map Step.sight = steps.map Step.sight ∧ Abreast xs ys last last' := by
  induction path generalizing k' with
  | nil k => exact ⟨[], k', .nil k', rfl, abreast⟩
  | @cons k next last move steps step rest ih =>
      have start_le := (Path.cons step rest).position_eq
      obtain ⟨next', moves', after⟩ := abreast.moves same (by omega) (step_eq_next_iff.1 step)
      obtain ⟨steps', last', path', sights, final⟩ := ih after within
      refine ⟨_, last', .cons (step_eq_next_iff.2 moves') path', ?_, final⟩
      rw [List.map_cons, List.map_cons, sights, abreast.sight_eq]

end Abreast

section

variable (same : xs.take (n + 1) = ys.take (n + 1))

include same

theorem Path.exists_abreast (path : c.Path (.initial xs) steps last) (within : shiftsOf steps ≤ n) :
    ∃ steps' last', c.Path (.initial ys) steps' last' ∧
      steps'.map Step.sight = steps.map Step.sight ∧ Abreast xs ys last last' ∧
      last.position ≤ n := by
  have inside : last.position ≤ n := path.position_initial.trans_le within
  obtain ⟨steps', last', path', sights, abreast⟩ := (abreast_initial xs ys).path same path inside
  exact ⟨steps', last', path', sights, abreast, inside⟩

theorem Shows.of_take_eq {before : List Sight} {sight : Sight} (within : shiftsSeen before ≤ n)
    (shows : c.Shows xs (before ++ [sight])) : c.Shows ys (before ++ [sight]) := by
  obtain ⟨steps, k, move, path, made, whole⟩ := shows
  rw [List.map_append] at whole
  obtain ⟨rfl, last⟩ := List.append_inj' whole rfl
  obtain rfl : sight = (k.record move).sight := List.head_eq_of_cons_eq last
  rw [shiftsSeen_map_sight] at within
  obtain ⟨steps', k', path', sights, abreast, inside⟩ := path.exists_abreast same within
  refine ⟨steps', k', move, path', ?_, ?_⟩
  · cases made with
    | inl made =>
        obtain ⟨next, step⟩ := made
        obtain ⟨next', moves', _⟩ := abreast.moves same inside (step_eq_next_iff.1 step)
        exact .inl ⟨next', step_eq_next_iff.2 moves'⟩
    | inr step =>
        exact .inr (step_eq_halt_iff.2 (abreast.halts same inside (step_eq_halt_iff.1 step)))
  · rw [List.map_append, sights, List.map_singleton, abreast.sight_eq]

theorem Shifts.of_take_eq {before : List Sight} {s : Nat} {states : List Nat}
    {symbols : List String} (within : shiftsSeen before ≤ n)
    (shifts : c.Shifts xs before s states symbols) : c.Shifts ys before s states symbols := by
  obtain ⟨steps, k, next, path, rfl, step, rfl, rfl⟩ := shifts
  rw [shiftsSeen_map_sight] at within
  obtain ⟨steps', k', path', sights, abreast, inside⟩ := path.exists_abreast same within
  obtain ⟨next', moves', after⟩ := abreast.moves same inside (step_eq_next_iff.1 step)
  refine ⟨steps', k', next', path', sights, step_eq_next_iff.2 moves', ?_, ?_⟩
  · rw [Config.states, Config.states, after.stack_eq]
  · rw [Config.symbols, Config.symbols, after.stack_eq]

theorem Leaves.of_take_eq {limit : Nat} {sights : List Sight} {counters : Counters}
    (within : shiftsSeen sights ≤ n) (leaves : c.Leaves limit xs sights counters) :
    c.Leaves limit ys sights counters := by
  obtain ⟨t, ended, rfl, rfl⟩ := leaves
  have short := length_le_of_runFrom ended
  obtain ⟨steps, last, move, path, halts, rfl⟩ := run_eq_ended_iff.1 ⟨limit, ended⟩
  rw [Trace.sights, shiftsSeen_map_sight] at within
  have shifts : shiftsOf steps ≤ n := halts.shifts_eq last.counters ▸ within
  obtain ⟨steps', last', path', sights, abreast, inside⟩ := path.exists_abreast same shifts
  have halts' := abreast.halts same inside halts
  have length : steps'.length = steps.length := by
    rw [← List.length_map (f := Step.sight), sights, List.length_map]
  have le : steps'.length + 1 ≤ limit := by simpa [length] using short
  refine ⟨_, run_of_le (path'.runFrom halts' []) le, ?_, abreast.counters_eq⟩
  simp [Trace.sights, sights, abreast.sight_eq]

end

theorem failure?_eq_of_sights_eq {t t' : Trace} (same : t'.sights = t.sights) :
    t'.failure? = t.failure? := by
  have last : t'.last?.map (fun step => step.sight.move) =
      t.last?.map (fun step => step.sight.move) := by
    have last := congrArg (fun sights => sights.getLast?.map Sight.move) same
    simpa [Trace.sights, Trace.last?, List.getLast?_map, Function.comp_def] using last
  rw [Trace.failure?, Trace.failure?]
  cases here : t.last? <;> cases there : t'.last? <;> simp_all [Step.sight]

def FailsWithin (c : Construction) (n limit : Nat) (tokens : List String) (cause : Failure) :
    Prop :=
  ∃ t, c.run limit tokens = .ended t ∧ t.shifts ≤ n ∧ t.failure? = some cause

theorem FailsWithin.of_take_eq {limit : Nat} {cause : Failure}
    (same : xs.take (n + 1) = ys.take (n + 1)) (fails : c.FailsWithin n limit xs cause) :
    c.FailsWithin n limit ys cause := by
  obtain ⟨t, ended, within, caused⟩ := fails
  rw [Trace.shifts, ← shiftsSeen_map_sight] at within
  obtain ⟨t', ended', sights, _⟩ := Leaves.of_take_eq same within ⟨t, ended, rfl, rfl⟩
  refine ⟨t', ended', ?_, (failure?_eq_of_sights_eq sights).trans caused⟩
  rw [Trace.shifts, ← shiftsSeen_map_sight]
  exact (congrArg shiftsSeen sights).trans_le within

/-- What the runs on two lists of tokens have in common up to the token at place `n`. -/
structure Agree (c : Construction) (n : Nat) (xs ys : List String) : Prop where
  shows_iff : ∀ before sight, shiftsSeen before ≤ n →
    (c.Shows xs (before ++ [sight]) ↔ c.Shows ys (before ++ [sight]))
  shifts_iff : ∀ before s states symbols, shiftsSeen before = n →
    (c.Shifts xs before s states symbols ↔ c.Shifts ys before s states symbols)
  leaves_iff : ∀ limit sights counters, shiftsSeen sights ≤ n →
    (c.Leaves limit xs sights counters ↔ c.Leaves limit ys sights counters)
  fails_iff : ∀ limit cause, c.FailsWithin n limit xs cause ↔ c.FailsWithin n limit ys cause

/-- The machine is not affected by what lies behind the next token, and its table may have any
entries. -/
theorem agree_of_take_eq (c : Construction) (same : xs.take (n + 1) = ys.take (n + 1)) :
    c.Agree n xs ys where
  shows_iff _ _ within := ⟨Shows.of_take_eq same within, Shows.of_take_eq same.symm within⟩
  shifts_iff _ _ _ _ here :=
    ⟨Shifts.of_take_eq same here.le, Shifts.of_take_eq same.symm here.le⟩
  leaves_iff _ _ _ within := ⟨Leaves.of_take_eq same within, Leaves.of_take_eq same.symm within⟩
  fails_iff _ _ := ⟨FailsWithin.of_take_eq same, FailsWithin.of_take_eq same.symm⟩

/-- A terminal is spelled like the end marker. -/
def priced : Grammar where
  nonterms := .ofList ["S"]
  terms := .ofList ["$", "a"]
  start := 0
  prods := #[⟨0, [.terminal 0, .nonterminal 0]⟩, ⟨0, [.terminal 1]⟩]
  augmented := false

theorem failsWithin_priced :
    (["$", "a", "a", "$"].take 3 = ["$", "a", "a"].take 3) ∧
      (ofGrammar priced).FailsWithin 2 4 ["$", "a", "a"] (.noAction 3 "a") := by
  have failed : (ofGrammar priced).FailsWithin 2 4 ["$", "a", "a", "$"] (.noAction 3 "a") := by
    refine ⟨⟨[⟨[0], [], ["$", "a", "a", "$", "$"], .shift 2⟩,
      ⟨[0, 2], ["$"], ["a", "a", "$", "$"], .shift 3⟩,
      ⟨[0, 2, 3], ["$", "a"], ["a", "$", "$"], .fail (.noAction 3 "a")⟩], ⟨3, 2, 0⟩⟩, ?_⟩
    decide +kernel
  have same : ["$", "a", "a", "$"].take 3 = ["$", "a", "a"].take 3 := rfl
  exact ⟨same, ((agree_of_take_eq (ofGrammar priced) same).fails_iff 4 (.noAction 3 "a")).1 failed⟩

end Construction

end ShiftReduce
