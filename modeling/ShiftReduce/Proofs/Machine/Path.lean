import ShiftReduce.Machine

/-!
Runs of the machine as paths. What a step can do is said once, by the cell that it looks up
(`step_spec`): it goes on with a shift or a reduction, or halts, or faults. A path is a chain of
steps that go on, and a proof opens one of them by `step_eq_next_iff`; a run that ends is a path and
one more step that halts (`run_eq_ended_iff`). Along a path from the first configuration the
position counts the shifts (`Path.position_initial`), and the tokens behind it are those that are
left (`Path.on`).
-/

namespace ShiftReduce

def Move.reduction? : Move → Option Nat
  | .reduce n _ => some n
  | _ => none

def Move.isShift : Move → Bool
  | .shift _ => true
  | _ => false

def reductionsOf (steps : List Step) : List Nat :=
  steps.filterMap fun step => step.move.reduction?

def shiftsOf (steps : List Step) : Nat := steps.countP fun step => step.move.isShift

def Trace.reductions (t : Trace) : List Nat := reductionsOf t.steps

def Trace.shifts (t : Trace) : Nat := shiftsOf t.steps

theorem reductionsOf_cons (k : Config) (move : Move) (steps : List Step) :
    reductionsOf (k.record move :: steps) = move.reduction?.toList ++ reductionsOf steps := by
  rw [reductionsOf, List.filterMap_cons, Config.record]
  cases move.reduction? <;> rfl

theorem shiftsOf_cons (k : Config) (move : Move) (steps : List Step) :
    shiftsOf (k.record move :: steps) = shiftsOf steps + move.isShift.toNat := by
  rw [shiftsOf, List.countP_cons, Config.record]
  cases move.isShift <;> rfl

/-- The configuration has shifted the tokens in front of its position. -/
structure Config.On (k : Config) (tokens : List String) : Prop where
  rest_eq : k.rest = tokens.drop k.position
  le : k.position ≤ tokens.length

namespace Construction

variable {c : Construction} {k k' last : Config} {move : Move} {steps : List Step}

theorem getElem?_states {above below : List Frame} (split : k.stack = above ++ below) :
    k.states[below.length]? = some (Config.topState below) := by
  rw [Config.states, split]
  cases below with
  | nil => rfl
  | cons frame below => simp [Config.topState]

/-- What a step that goes on does. -/
inductive Moves (c : Construction) (k : Config) : Move → Config → Prop
  | shift {t s : Nat} {token : String} {rest : List String}
      (look : c.lookaheadTerm? k = some t)
      (action : c.table.action (Config.topState k.stack) t = some (.shift s))
      (ahead : k.rest = token :: rest) : Moves c k (.shift s) (k.shifted s rest)
  | reduce {t n s : Nat} {p : Production}
      (look : c.lookaheadTerm? k = some t)
      (action : c.table.action (Config.topState k.stack) t = some (.reduce n))
      (found : c.grammar.prod? n = some p)
      (goto : c.table.goto (Config.topState (k.stack.drop p.rhs.length)) p.head = some s) :
      Moves c k (.reduce n (c.grammar.productionText p))
        (k.reduced (k.stack.drop p.rhs.length) s (c.grammar.nontermName p.head))

inductive Halts (c : Construction) (k : Config) : Move → Prop
  | unrecognized (look : c.lookaheadTerm? k = none) :
      Halts c k (.fail (.unrecognizedSymbol k.lookahead k.position))
  | missingGoto {t n : Nat} {p : Production} (look : c.lookaheadTerm? k = some t)
      (action : c.table.action (Config.topState k.stack) t = some (.reduce n))
      (found : c.grammar.prod? n = some p)
      (goto : c.table.goto (Config.topState (k.stack.drop p.rhs.length)) p.head = none) :
      Halts c k (.fail (.missingGoto (Config.topState (k.stack.drop p.rhs.length))
        (c.grammar.nontermName p.head)))
  | accept {t : Nat} (look : c.lookaheadTerm? k = some t)
      (action : c.table.action (Config.topState k.stack) t = some .accept) : Halts c k .accept
  | conflict {t : Nat} {entries : List Action} (look : c.lookaheadTerm? k = some t)
      (action : c.table.action (Config.topState k.stack) t = some (.conflict entries)) :
      Halts c k (.fail (.conflict (.ofEntries entries) (Config.topState k.stack) k.lookahead))
  | noAction {t : Nat} (look : c.lookaheadTerm? k = some t)
      (action : c.table.action (Config.topState k.stack) t = none ∨
        ∃ s, c.table.action (Config.topState k.stack) t = some (.goto s)) :
      Halts c k (.fail (.noAction (Config.topState k.stack) k.lookahead))

/-- How a table that was not built from its grammar makes a step fault. -/
inductive Faults (c : Construction) (k : Config) : Fault → Prop
  | shiftedEnd {t s : Nat} (look : c.lookaheadTerm? k = some t)
      (action : c.table.action (Config.topState k.stack) t = some (.shift s))
      (none_ahead : k.rest = []) : Faults c k .shiftedEnd
  | unknownProduction {t n : Nat} (look : c.lookaheadTerm? k = some t)
      (action : c.table.action (Config.topState k.stack) t = some (.reduce n))
      (unknown : c.grammar.prod? n = none) : Faults c k (.unknownProduction n)

theorem step_spec (c : Construction) (k : Config) :
    match c.step k with
    | .next move k' => c.Moves k move k'
    | .halt move => c.Halts k move
    | .fault f => c.Faults k f := by
  cases look : c.lookaheadTerm? k with
  | none =>
      simp only [step, look]
      exact .unrecognized look
  | some t =>
      cases action : c.table.action (Config.topState k.stack) t with
      | none =>
          simp only [step, look, action]
          exact .noAction look (.inl action)
      | some e =>
          cases e with
          | shift s =>
              cases ahead : k.rest with
              | nil =>
                  simp only [step, look, action, ahead]
                  exact .shiftedEnd look action ahead
              | cons token rest =>
                  simp only [step, look, action, ahead]
                  exact .shift look action ahead
          | reduce n =>
              cases found : c.grammar.prod? n with
              | none =>
                  simp only [step, look, action, found]
                  exact .unknownProduction look action found
              | some p =>
                  cases goto : c.table.goto (Config.topState (k.stack.drop p.rhs.length))
                      p.head with
                  | none =>
                      simp only [step, look, action, found, reduceBy, goto]
                      exact .missingGoto look action found goto
                  | some s =>
                      simp only [step, look, action, found, reduceBy, goto]
                      exact .reduce look action found goto
          | accept =>
              simp only [step, look, action]
              exact .accept look action
          | conflict entries =>
              simp only [step, look, action]
              exact .conflict look action
          | goto s =>
              simp only [step, look, action]
              exact .noAction look (.inr ⟨s, action⟩)

theorem step_eq_next_iff : c.step k = .next move k' ↔ c.Moves k move k' := by
  apply Iff.intro
  · intro h
    have spec := c.step_spec k
    rwa [h] at spec
  · intro h
    cases h with
    | shift look action ahead => simp [step, look, action, ahead]
    | reduce look action found goto => simp [step, look, action, found, reduceBy, goto]

theorem step_eq_halt_iff : c.step k = .halt move ↔ c.Halts k move := by
  apply Iff.intro
  · intro h
    have spec := c.step_spec k
    rwa [h] at spec
  · intro h
    cases h with
    | unrecognized look => simp [step, look]
    | missingGoto look action found goto => simp [step, look, action, found, reduceBy, goto]
    | accept look action => simp [step, look, action]
    | conflict look action => simp [step, look, action]
    | noAction look action =>
        cases action with
        | inl action => simp [step, look, action]
        | inr action =>
            obtain ⟨s, action⟩ := action
            simp [step, look, action]

theorem faults_of_step_eq {f : Fault} (h : c.step k = .fault f) : c.Faults k f := by
  have spec := c.step_spec k
  rwa [h] at spec

theorem moves_or_halts_of_not_faults (safe : ∀ f, ¬ c.Faults k f) :
    (∃ move k', c.Moves k move k') ∨ ∃ move, c.Halts k move := by
  cases step : c.step k with
  | next move k' => exact .inl ⟨move, k', step_eq_next_iff.1 step⟩
  | halt move => exact .inr ⟨move, step_eq_halt_iff.1 step⟩
  | fault f => exact absurd (faults_of_step_eq step) (safe f)

theorem Moves.unique {other : Move} {k₂ : Config} (first : c.Moves k move k')
    (second : c.Moves k other k₂) : move = other ∧ k' = k₂ := by
  have same := (step_eq_next_iff.2 first).symm.trans (step_eq_next_iff.2 second)
  exact ⟨(Outcome.next.inj same).1, (Outcome.next.inj same).2⟩

theorem Halts.unique {other : Move} (first : c.Halts k move) (second : c.Halts k other) :
    move = other :=
  Outcome.halt.inj ((step_eq_halt_iff.2 first).symm.trans (step_eq_halt_iff.2 second))

theorem Moves.not_halts {other : Move} (moves : c.Moves k move k') : ¬ c.Halts k other := by
  intro halts
  cases (step_eq_next_iff.2 moves).symm.trans (step_eq_halt_iff.2 halts)

theorem Moves.position_eq (moves : c.Moves k move k') :
    k'.position = k.position + move.isShift.toNat := by
  cases moves <;> rfl

theorem Moves.progress (moves : c.Moves k move k') :
    k'.position + move.reduction?.toList.length = k.position + 1 := by
  cases moves <;> rfl

/-- Steps that go on, one after the other, with what they record. -/
inductive Path (c : Construction) : Config → List Step → Config → Prop
  | nil (k : Config) : Path c k [] k
  | cons {k next last : Config} {move : Move} {steps : List Step}
      (step : c.step k = .next move next) (rest : Path c next steps last) :
      Path c k (k.record move :: steps) last

theorem Path.concat {next : Config} (path : c.Path k steps last)
    (step : c.step last = .next move next) : c.Path k (steps ++ [last.record move]) next := by
  induction path with
  | nil k => exact .cons step (.nil next)
  | cons first _ ih => exact .cons first (ih step)

theorem Path.of_concat {s : Step} (path : c.Path k (steps ++ [s]) last) :
    ∃ k' move, c.Path k steps k' ∧ c.step k' = .next move last ∧ s = k'.record move := by
  induction steps generalizing k with
  | nil =>
      cases path with
      | @cons _ next _ move _ step rest =>
          cases rest with
          | nil _ => exact ⟨k, move, .nil k, step, rfl⟩
  | cons _ steps ih =>
      cases path with
      | cons first rest =>
          obtain ⟨k', move, front, step, same⟩ := ih rest
          exact ⟨k', move, .cons first front, step, same⟩

theorem Path.take (path : c.Path k steps last) (n : Nat) : ∃ k', c.Path k (steps.take n) k' := by
  induction path generalizing n with
  | nil k =>
      rw [List.take_nil]
      exact ⟨k, .nil k⟩
  | cons step _ ih =>
      cases n with
      | zero => exact ⟨_, .nil _⟩
      | succ n =>
          obtain ⟨k', front⟩ := ih n
          exact ⟨k', .cons step front⟩

theorem Path.position_eq (path : c.Path k steps last) :
    last.position = k.position + shiftsOf steps := by
  induction path with
  | nil _ => rfl
  | cons step _ ih =>
      rw [ih, (step_eq_next_iff.1 step).position_eq, shiftsOf_cons]
      omega

theorem Path.position_initial {tokens : List String} (path : c.Path (.initial tokens) steps last) :
    last.position = shiftsOf steps := by
  rw [path.position_eq, Config.initial, Nat.zero_add]

theorem Path.progress (path : c.Path k steps last) :
    last.position + (reductionsOf steps).length = k.position + steps.length := by
  induction path with
  | nil _ => rfl
  | cons step _ ih =>
      have first := (step_eq_next_iff.1 step).progress
      rw [reductionsOf_cons, List.length_append, List.length_cons]
      omega

theorem Path.length_le_of_halts (path : c.Path k steps last) {halting : List Step} {final : Config}
    (other : c.Path k halting final) (halts : c.Halts final move) :
    steps.length ≤ halting.length := by
  induction path generalizing halting with
  | nil _ => exact Nat.zero_le _
  | cons step _ ih =>
      cases other with
      | nil _ => exact absurd halts (step_eq_next_iff.1 step).not_halts
      | cons step' rest =>
          obtain ⟨_, rfl⟩ := Outcome.next.inj (step.symm.trans step')
          exact Nat.succ_le_succ (ih rest)

theorem exists_path_of_runFrom {limit : Nat} {past : List Step} {t : Trace}
    (h : c.runFrom limit past k = .ended t) :
    ∃ steps last move, c.Path k steps last ∧ c.Halts last move ∧
      t = ⟨past.reverse ++ steps ++ [last.record move], last.counters⟩ := by
  induction limit generalizing past k with
  | zero => cases h
  | succ limit ih =>
      rw [runFrom] at h
      split at h
      · rename_i move next step
        obtain ⟨steps, last, halt, path, halts, rfl⟩ := ih h
        exact ⟨_, last, halt, .cons step path, halts, by simp⟩
      · rename_i move step
        cases h
        exact ⟨[], k, move, .nil k, step_eq_halt_iff.1 step, by simp⟩
      · cases h

theorem Path.runFrom (path : c.Path k steps last) (halts : c.Halts last move)
    (past : List Step) :
    c.runFrom (steps.length + 1) past k =
      .ended ⟨past.reverse ++ steps ++ [last.record move], last.counters⟩ := by
  induction path generalizing past with
  | nil k => simp [Construction.runFrom, step_eq_halt_iff.2 halts]
  | @cons k next last made steps step _ ih =>
      rw [List.length_cons, Construction.runFrom, step]
      have rest := ih halts (k.record made :: past)
      simpa using rest

theorem run_eq_ended_iff {tokens : List String} {t : Trace} :
    (∃ limit, c.run limit tokens = .ended t) ↔
      ∃ steps last move, c.Path (.initial tokens) steps last ∧ c.Halts last move ∧
        t = ⟨steps ++ [last.record move], last.counters⟩ := by
  apply Iff.intro
  · intro ⟨limit, h⟩
    exact exists_path_of_runFrom h
  · intro ⟨steps, last, move, path, halts, same⟩
    exact ⟨steps.length + 1, same ▸ path.runFrom halts []⟩

theorem run_of_le {limit more : Nat} {tokens : List String} {t : Trace}
    (ended : c.run limit tokens = .ended t) (le : limit ≤ more) : c.run more tokens = .ended t := by
  have finished : c.runFrom limit [] (.initial tokens) ≠ .unfinished := by
    rw [← run, ended]
    exact Run.noConfusion
  exact (runFrom_of_le finished le).trans ended

theorem ended_unique {limit more : Nat} {tokens : List String} {t u : Trace}
    (first : c.run limit tokens = .ended t) (second : c.run more tokens = .ended u) : t = u := by
  have long := run_of_le first (Nat.le_max_left limit more)
  have long' := run_of_le second (Nat.le_max_right limit more)
  exact Run.ended.inj (long.symm.trans long')

theorem Halts.reductions_eq (halts : c.Halts last move) (counters : Counters) :
    Trace.reductions ⟨steps ++ [last.record move], counters⟩ = reductionsOf steps := by
  have nothing : move.reduction? = none := by cases halts <;> rfl
  simp [Trace.reductions, reductionsOf, Config.record, nothing]

theorem Halts.isShift_eq (halts : c.Halts last move) : move.isShift = false := by
  cases halts <;> rfl

theorem Halts.shifts_eq (halts : c.Halts last move) (counters : Counters) :
    Trace.shifts ⟨steps ++ [last.record move], counters⟩ = shiftsOf steps := by
  simp [Trace.shifts, shiftsOf, Config.record, halts.isShift_eq]

theorem Halts.shiftsOf_take (halts : c.Halts last move) (n : Nat) :
    shiftsOf ((steps ++ [last.record move]).take n) = shiftsOf (steps.take n) := by
  have nothing : shiftsOf ([last.record move].take (n - steps.length)) = 0 := by
    refine List.countP_eq_zero.2 fun s mem => ?_
    rw [List.mem_singleton.1 (List.mem_of_mem_take mem), Config.record, halts.isShift_eq]
    exact Bool.false_ne_true
  rw [List.take_append, shiftsOf, List.countP_append]
  exact congrArg (shiftsOf (steps.take n) + ·) nothing

theorem on_initial (tokens : List String) : (Config.initial tokens).On tokens :=
  ⟨rfl, Nat.zero_le _⟩

theorem Moves.on {tokens : List String} (moves : c.Moves k move k') (h : k.On tokens) :
    k'.On tokens := by
  cases moves with
  | shift _ _ ahead =>
      have behind : tokens.drop k.position = _ := h.rest_eq.symm.trans ahead
      constructor
      · rw [Config.shifted, ← List.drop_drop, behind]
        rfl
      · have some_token : tokens.drop k.position ≠ [] := by simp [behind]
        simpa [Config.shifted, Nat.succ_le_iff] using some_token
  | reduce _ _ _ _ => exact ⟨h.rest_eq, h.le⟩

theorem Path.on {tokens : List String} (path : c.Path k steps last) (h : k.On tokens) :
    last.On tokens := by
  induction path with
  | nil _ => exact h
  | cons step _ ih => exact ih ((step_eq_next_iff.1 step).on h)

end Construction

end ShiftReduce
