import ShiftReduce.Journal
import ShiftReduce.Proofs.Machine.Path

/-!
The machine in registers: two parallel stacks that are cut back by different amounts, with the
bottom state among the states, and a position in the input that ends with the end marker. Every
index is checked, those of the text for the journal too. A turn of the loop does what
a step does (`turn?_of_moves`, `turn?_of_halts`), so a run that does not fault goes through without
an index out of range (`drive?_eq`).
-/

namespace ShiftReduce

structure Registers where
  states : List Nat
  symbols : List String
  position : Nat
  counters : Counters
deriving DecidableEq

inductive Turn where
  | next (step : Step) (r : Registers)
  | last (step : Step) (r : Registers)
deriving DecidableEq

namespace Registers

def initial : Registers := ⟨[0], [], 0, ⟨1, 0, 0⟩⟩

def slice? (input : List String) (position : Nat) : Option (List String) :=
  if position ≤ input.length then some (input.drop position) else none

def mark (s : Nat) : String := "<" ++ toString s ++ "> "

def mark? (r : Registers) (s i : Nat) : Option String :=
  if i = 0 then some (mark s) else (r.symbols[i - 1]?).map fun name => name ++ " " ++ mark s

def dump? (r : Registers) (rest : List String) : Option String := do
  let marks ← r.states.zipIdx.mapM fun (s, i) => r.mark? s i
  return String.join marks ++ " <-  " ++ Text.spaced rest

def shifted (r : Registers) (state : Nat) (name : String) : Registers where
  states := r.states ++ [state]
  symbols := r.symbols ++ [name]
  position := r.position + 1
  counters :=
    { r.counters with tokens := r.counters.tokens + 1, shifts := r.counters.shifts + 1 }

def reduced (r : Registers) (keep state : Nat) (name : String) : Registers where
  states := r.states.take keep ++ [state]
  symbols := r.symbols.take (keep - 1) ++ [name]
  position := r.position
  counters := { r.counters with reductions := r.counters.reductions + 1 }

/-- How many states stay below `n` that are taken off: the bottom one always does. -/
def keep (r : Registers) (n : Nat) : Nat := max (r.states.length - n) 1

def top (r : Registers) : Nat := r.states.getLast?.getD 0

def ofConfig (k : Config) : Registers := ⟨k.states, k.symbols, k.position, k.counters⟩

theorem mark?_succ (r : Registers) (s i : Nat) :
    r.mark? s (i + 1) = (r.symbols[i]?).map fun name => name ++ " " ++ mark s := rfl

theorem mapM_mark? {r : Registers} {below names : List String} (split : r.symbols = below ++ names)
    {ss : List Nat} (length : ss.length = names.length) :
    (ss.zipIdx (below.length + 1)).mapM (fun q => r.mark? q.1 q.2) =
      some (List.zipWith (fun name s => name ++ " " ++ mark s) names ss) := by
  induction ss generalizing below names with
  | nil => simp
  | cons s ss ih =>
      cases names with
      | nil => cases length
      | cons name names =>
          have here : r.symbols[below.length]? = some name := by simp [split]
          have split' : r.symbols = (below ++ [name]) ++ names := by simp [split]
          have rest := ih split' (Nat.succ.inj length)
          rw [List.length_append, List.length_singleton] at rest
          rw [List.zipIdx_cons, List.mapM_cons, mark?_succ, here, rest]
          rfl

theorem dump?_eq {r : Registers} (length : r.states.length = r.symbols.length + 1)
    (rest : List String) (move : Move) :
    r.dump? rest = some (Journal.stackText ⟨r.states, r.symbols, rest, move⟩) := by
  cases states : r.states with
  | nil => simp [states] at length
  | cons s ss =>
      rw [states] at length
      have above := mapM_mark? (List.nil_append r.symbols).symm (Nat.succ.inj length)
      rw [dump?, states, List.zipIdx_cons, List.mapM_cons, Nat.zero_add]
      rw [List.length_nil, Nat.zero_add] at above
      rw [above]
      rfl

end Registers

namespace Construction

open Registers (slice?)
open Config (topState)

/-- What a turn does about a lookahead, which is no terminal where `term?` is nothing. -/
def act? (c : Construction) (r : Registers) (rest : List String) (name : String)
    (term? : Option Nat) : Option Turn := do
  let record (move : Move) : Step := ⟨r.states, r.symbols, rest, move⟩
  match term? with
  | none => return .last (record (.fail (.unrecognizedSymbol name r.position))) r
  | some t =>
      match c.table.action r.top t with
      | some (.shift s) => return .next (record (.shift s)) (r.shifted s name)
      | some (.reduce n) =>
          let p ← c.grammar.prod? n
          let exposed ← r.states[r.keep p.rhs.length - 1]?
          match c.table.goto exposed p.head with
          | none =>
              return .last (record (.fail (.missingGoto exposed (c.grammar.nontermName p.head)))) r
          | some s =>
              return .next (record (.reduce n (c.grammar.productionText p)))
                (r.reduced (r.keep p.rhs.length) s (c.grammar.nontermName p.head))
      | some .accept => return .last (record .accept) r
      | some (.conflict entries) =>
          return .last (record (.fail (.conflict (.ofEntries entries) r.top name))) r
      | _ => return .last (record (.fail (.noAction r.top name))) r

/-- One turn of the loop; nothing where an index is out of range. -/
def turn? (c : Construction) (tokens : List String) (r : Registers) : Option Turn := do
  let input := tokens ++ [Grammar.endSpelling]
  let rest ← slice? input r.position
  let _ ← r.dump? rest
  let name ← input[r.position]?
  c.act? r rest name
    (if r.position < tokens.length then c.grammar.terms.index? name else some c.grammar.eof)

/-- At most `limit` turns, where `past` holds the steps before them, latest first. -/
def driveFrom? (c : Construction) (tokens : List String) :
    Nat → List Step → Registers → Option Run
  | 0, _, _ => some .unfinished
  | limit + 1, past, r => do
      match ← c.turn? tokens r with
      | .next step r => c.driveFrom? tokens limit (step :: past) r
      | .last step r => return .ended ⟨(step :: past).reverse, r.counters⟩

def drive? (c : Construction) (limit : Nat) (tokens : List String) : Option Run :=
  c.driveFrom? tokens limit [] .initial

inductive Reached (c : Construction) (tokens : List String) : Registers → Prop
  | initial : Reached c tokens .initial
  | next {r r' : Registers} {step : Step} (before : Reached c tokens r)
      (turn : c.turn? tokens r = some (.next step r')) : Reached c tokens r'

variable {c : Construction} {k k' : Config} {move : Move} {tokens : List String}

theorem top_ofConfig (k : Config) : (Registers.ofConfig k).top = topState k.stack := by
  rw [Registers.top, Registers.ofConfig, Config.states]
  cases k.stack with
  | nil => rfl
  | cons frame below => simp [topState, List.getLast?_cons]

theorem keep_ofConfig (k : Config) (n : Nat) :
    (Registers.ofConfig k).keep n = (k.stack.drop n).length + 1 := by
  simp only [Registers.keep, Registers.ofConfig, Config.states, List.length_cons,
    List.length_reverse, List.length_map, List.length_drop]
  omega

theorem exposed_ofConfig (k : Config) (n : Nat) :
    (Registers.ofConfig k).states[(Registers.ofConfig k).keep n - 1]? =
      some (topState (k.stack.drop n)) := by
  rw [keep_ofConfig, Nat.add_sub_cancel]
  exact getElem?_states (List.take_append_drop n k.stack).symm

theorem shifted_ofConfig (k : Config) (s : Nat) (rest : List String) :
    (Registers.ofConfig k).shifted s k.lookahead = .ofConfig (k.shifted s rest) := by
  simp [Registers.shifted, Registers.ofConfig, Config.shifted, Config.states, Config.symbols]

theorem take_reverse_map {α β : Type} (f : α → β) (l : List α) (n : Nat) :
    (l.map f).reverse.take (l.length - n) = ((l.drop n).map f).reverse := by
  rw [List.take_reverse, List.length_map, Nat.sub_sub_eq_min, Nat.min_comm, ← l.length_map f,
    ← List.drop_eq_drop_min, List.map_drop]

theorem reduced_ofConfig (k : Config) (n s : Nat) (name : String) :
    (Registers.ofConfig k).reduced ((Registers.ofConfig k).keep n) s name =
      .ofConfig (k.reduced (k.stack.drop n) s name) := by
  rw [keep_ofConfig, List.length_drop]
  simp only [Registers.reduced, Registers.ofConfig, Config.reduced, Config.states, Config.symbols,
    Nat.add_sub_cancel, List.take_succ_cons, take_reverse_map, List.map_cons, List.reverse_cons,
    List.cons_append]

section

variable (on : k.On tokens)

include on

theorem slice?_position :
    slice? (tokens ++ [Grammar.endSpelling]) k.position = some k.input := by
  have le : k.position ≤ (tokens ++ [Grammar.endSpelling]).length := by
    rw [List.length_append]
    exact Nat.le_add_right_of_le on.le
  rw [slice?, if_pos le, List.drop_append_of_le_length on.le, Config.input, on.rest_eq]

theorem getElem?_position :
    (tokens ++ [Grammar.endSpelling])[k.position]? = some k.lookahead := by
  rw [← List.head?_drop, List.drop_append_of_le_length on.le, ← on.rest_eq, Config.lookahead]
  cases k.rest <;> rfl

/-- By its position the end marker is told from a token of its spelling. -/
theorem term?_position :
    (if k.position < tokens.length then c.grammar.terms.index? k.lookahead
      else some c.grammar.eof) = c.lookaheadTerm? k := by
  have rest := on.rest_eq
  rw [lookaheadTerm?, Config.lookahead]
  cases ahead : k.rest with
  | nil =>
      rw [ahead, eq_comm, List.drop_eq_nil_iff] at rest
      rw [if_neg (Nat.not_lt.2 rest)]
  | cons token others =>
      have some_token : tokens.drop k.position ≠ [] := by simp [← rest, ahead]
      rw [if_pos (by simpa using some_token)]
      rfl

theorem turn?_ofConfig :
    c.turn? tokens (.ofConfig k) =
      c.act? (.ofConfig k) k.input k.lookahead (c.lookaheadTerm? k) := by
  have dump := Registers.dump?_eq (r := .ofConfig k) k.length_states k.input .accept
  have position : (Registers.ofConfig k).position = k.position := rfl
  simp only [turn?, position, slice?_position on, dump, getElem?_position on, term?_position on,
    Option.bind_eq_bind, Option.bind_some]

theorem turn?_of_moves (moves : c.Moves k move k') :
    c.turn? tokens (.ofConfig k) = some (.next (k.record move) (.ofConfig k')) := by
  rw [turn?_ofConfig on]
  cases moves with
  | @shift t s token rest look action ahead =>
      rw [← shifted_ofConfig k s rest]
      simp only [act?, look, top_ofConfig, action]
      rfl
  | reduce look action found goto =>
      simp only [act?, look, top_ofConfig, action, found, Option.bind_eq_bind, Option.bind_some,
        exposed_ofConfig, goto, reduced_ofConfig]
      rfl

theorem turn?_of_halts (halts : c.Halts k move) :
    c.turn? tokens (.ofConfig k) = some (.last (k.record move) (.ofConfig k)) := by
  rw [turn?_ofConfig on]
  cases halts with
  | unrecognized look =>
      simp only [act?, look]
      rfl
  | missingGoto look action found goto =>
      simp only [act?, look, top_ofConfig, action, found, Option.bind_eq_bind, Option.bind_some,
        exposed_ofConfig, goto]
      rfl
  | accept look action =>
      simp only [act?, look, top_ofConfig, action]
      rfl
  | conflict look action =>
      simp only [act?, look, top_ofConfig, action]
      rfl
  | noAction look action =>
      obtain action | ⟨s, action⟩ := action
      all_goals
        simp only [act?, look, top_ofConfig, action]
        rfl

end

section

variable {r : Registers} (safe : ∀ k f, ¬ c.Faults k f)

include safe

theorem Reached.exists_path (reached : c.Reached tokens r) :
    ∃ steps k, c.Path (.initial tokens) steps k ∧ r = .ofConfig k := by
  induction reached with
  | initial => exact ⟨[], _, .nil _, rfl⟩
  | next _ turn ih =>
      obtain ⟨steps, k, path, rfl⟩ := ih
      have on := path.on (on_initial tokens)
      rcases moves_or_halts_of_not_faults (safe k) with ⟨move, k', moves⟩ | ⟨move, halts⟩
      · rw [turn?_of_moves on moves] at turn
        cases turn
        exact ⟨_, k', path.concat (step_eq_next_iff.2 moves), rfl⟩
      · rw [turn?_of_halts on halts] at turn
        cases turn

theorem runFrom_ne_faulted (limit : Nat) (past : List Step) (k : Config) (f : Fault) :
    c.runFrom limit past k ≠ .faulted f := by
  induction limit generalizing past k with
  | zero => exact Run.noConfusion
  | succ limit ih =>
      rw [runFrom]
      rcases moves_or_halts_of_not_faults (safe k) with ⟨move, k', moves⟩ | ⟨move, halts⟩
      · rw [step_eq_next_iff.2 moves]
        exact ih _ k'
      · rw [step_eq_halt_iff.2 halts]
        exact Run.noConfusion

end

theorem driveFrom?_eq (on : k.On tokens) (limit : Nat) (past : List Step)
    (safe : ∀ f, c.runFrom limit past k ≠ .faulted f) :
    c.driveFrom? tokens limit past (.ofConfig k) = some (c.runFrom limit past k) := by
  induction limit generalizing past k with
  | zero => rfl
  | succ limit ih =>
      rw [runFrom] at safe
      rw [driveFrom?, runFrom]
      cases step : c.step k with
      | next move k' =>
          have moves := step_eq_next_iff.1 step
          rw [turn?_of_moves on moves]
          exact ih (moves.on on) _ (by simpa [step] using safe)
      | halt move =>
          rw [turn?_of_halts on (step_eq_halt_iff.1 step)]
          rfl
      | fault f => exact absurd (by rw [step]) (safe f)

/-- Unless the machine faults, the loop ends as it does, and no index is out of range before. -/
theorem drive?_eq {limit : Nat} (safe : ∀ f, c.run limit tokens ≠ .faulted f) :
    c.drive? limit tokens = some (c.run limit tokens) :=
  driveFrom?_eq (on_initial tokens) limit [] safe

end Construction

end ShiftReduce
