import ShiftReduce.Proofs.Grammar.Spelling
import ShiftReduce.Proofs.Machine.Soundness

/-!
What the recorded steps of a run show, whether or not the run ends (`Consistent`). The states on the
stack are joined by the transitions over the symbols that are spelled beside them, these symbols
derive the tokens that have been consumed, and every reduction finds its right-hand side spelled on
top and a goto under it.
-/

namespace ShiftReduce.Construction

open Config (topState)

variable {c : Construction} {g : Grammar} {start : Nat} {st : List Frame}
  {γ δ : List Symbol} {k k' last : Config} {move : Move} {tokens : List String} {steps : List Step}
  {s : Step}

inductive Recorded (c : Construction) (tokens : List String) : Step → Prop
  | next {k k' : Config} {steps : List Step} {move : Move}
      (path : c.Path (.initial tokens) steps k) (step : c.step k = .next move k') :
      Recorded c tokens (k.record move)
  | last {k : Config} {steps : List Step} {move : Move}
      (path : c.Path (.initial tokens) steps k) (step : c.step k = .halt move) :
      Recorded c tokens (k.record move)

theorem Path.recorded {before : List Step} (front : c.Path (.initial tokens) before k)
    (path : c.Path k steps last) (mem : s ∈ steps) : c.Recorded tokens s := by
  induction path generalizing before with
  | nil _ => cases mem
  | cons step _ ih =>
      cases mem with
      | head => exact .next front step
      | tail _ mem => exact ih (front.concat step) mem

theorem recorded_of_mem_steps {limit : Nat} {t : Trace} (ended : c.run limit tokens = .ended t)
    (mem : s ∈ t.steps) : c.Recorded tokens s := by
  obtain ⟨steps, last, move, path, halts, rfl⟩ := run_eq_ended_iff.1 ⟨limit, ended⟩
  cases List.mem_append.1 mem with
  | inl inside => exact Path.recorded (.nil _) path inside
  | inr final =>
      rw [List.mem_singleton.1 final]
      exact .last path (step_eq_halt_iff.2 halts)

theorem Stacked.linked {x : Symbol} (h : c.Stacked k.stack (γ ++ x :: δ)) :
    ∃ a b, k.states[γ.length]? = some a ∧ k.states[γ.length + 1]? = some b ∧
      c.automaton.transition a x = some b := by
  have upper : c.Stacked (k.stack.drop δ.length) (γ ++ [x]) :=
    Stacked.drop (by simpa using h)
  obtain ⟨s, below, frames, inside, target⟩ := upper.of_concat
  have split : k.stack = k.stack.take δ.length ++ ⟨s, c.grammar.symbolName x⟩ :: below := by
    rw [← frames, List.take_append_drop]
  have split_below : k.stack =
      (k.stack.take δ.length ++ [⟨s, c.grammar.symbolName x⟩]) ++ below := by simpa using split
  rw [← inside.length_eq]
  exact ⟨_, _, getElem?_states split_below, getElem?_states split, target⟩

/-- The right-hand side of production `n` is spelled on top of the symbols, and the state that is
exposed without it has a goto on the head. -/
def Reducible (c : Construction) (s : Step) (n : Nat) : Prop :=
  ∃ p front a b, c.grammar.prod? n = some p ∧
    s.symbols = front ++ p.rhs.map c.grammar.symbolName ∧ p.rhs.length < s.states.length ∧
    s.states[s.states.length - p.rhs.length - 1]? = some a ∧ c.table.goto a p.head = some b

namespace Built

variable (built : c.Built start)

include built

theorem reducible_of_moves (stacked : c.Stacked k.stack δ) {n : Nat} {rule : String}
    (moves : c.Moves k (.reduce n rule) k') : c.Reducible (k.record (.reduce n rule)) n := by
  cases moves with
  | @reduce t n s p look action found goto =>
      have offers := built.offers_of_action action (by simp)
      obtain ⟨γ, _, rfl, _⟩ := built.pop_of_reduce stacked offers found
      have length := stacked.length_eq
      rw [List.length_append] at length
      have states : k.states.length = k.stack.length + 1 := by simp [Config.states]
      have exposed : k.states.length - p.rhs.length - 1 = (k.stack.drop p.rhs.length).length := by
        rw [List.length_drop]
        omega
      have inside : p.rhs.length < k.states.length := by omega
      refine ⟨p, γ.map c.grammar.symbolName, _, s, found, ?_, inside, ?_, goto⟩
      · rw [Config.record, Config.symbols, stacked.symbols_eq, List.map_append]
      · rw [Config.record, exposed]
        exact getElem?_states (List.take_append_drop p.rhs.length k.stack).symm

theorem not_missingGoto (stacked : c.Stacked k.stack δ) (a : Nat) (name : String) :
    ¬ c.Halts k (.fail (.missingGoto a name)) := by
  generalize failed : Move.fail (.missingGoto a name) = move
  intro halts
  cases halts with
  | @missingGoto t n p look action found goto =>
      have offers := built.offers_of_action action (by simp)
      obtain ⟨γ, j, rfl, _, target⟩ := built.pop_of_reduce stacked offers found
      rw [built.goto_eq_transition, target] at goto
      cases goto
  | unrecognized _ => cases failed
  | accept _ _ => cases failed
  | conflict _ _ => cases failed
  | noAction _ _ => cases failed

theorem action_ne_goto (a t j : Nat) :
    c.table.action a t ≠ some (.goto j) ∧
      ∀ es, c.table.action a t = some (.conflict es) → .goto j ∉ es := by
  apply And.intro
  · intro action
    cases built.offers_of_action action (by simp)
  · intro es action mem
    cases built.offers_of_mem_conflict action mem

end Built

theorem exists_shift_of_stacked (plain : g.Plain) (stacked : (ofGrammar g).Stacked st δ) :
    ∃ γ : List Symbol, δ = γ.map Symbol.shift ∧ ∀ x ∈ γ, x ∈ g.symbols := by
  induction stacked with
  | nil => exact ⟨[], rfl, by simp⟩
  | @push st δ y s below target ih =>
      have built := built_ofGrammar plain
      obtain ⟨γ, rfl, known⟩ := ih
      obtain ⟨items, state, i, hi, next⟩ := built.exists_next_of_transition target
      have mem := Item.next?_mem_symbols built.augmented.toWellFormed next
      obtain rfl | ⟨x, hx, rfl⟩ := (Grammar.Plain.mem_symbols_augment plain).1 mem
      · exact absurd next built.augmented.next?_ne_start
      · refine ⟨γ ++ [x], by simp, fun y hy => ?_⟩
        cases List.mem_append.1 hy with
        | inl hy => exact known y hy
        | inr hy =>
            rw [List.mem_singleton.1 hy]
            exact hx

theorem symbols_eq_of_stacked (plain : g.Plain)
    (stacked : (ofGrammar g).Stacked k.stack (γ.map Symbol.shift)) :
    k.symbols = γ.map g.symbolName := by
  rw [Config.symbols, stacked.symbols_eq, List.map_map]
  exact List.map_congr_left fun x _ => Grammar.Plain.symbolName_shift plain x

theorem exists_link (plain : g.Plain)
    (stacked : (ofGrammar g).Stacked k.stack (γ.map Symbol.shift))
    (known : ∀ x ∈ γ, x ∈ g.symbols) {i : Nat} {name : String}
    (at_i : k.symbols[i]? = some name) :
    ∃ x a b, g.Denotes name x ∧ k.states[i]? = some a ∧ k.states[i + 1]? = some b ∧
      (ofGrammar g).automaton.transition a x.shift = some b := by
  rw [symbols_eq_of_stacked plain stacked, List.getElem?_map, Option.map_eq_some_iff] at at_i
  obtain ⟨x, at_i, rfl⟩ := at_i
  obtain ⟨bound, rfl⟩ := List.getElem?_eq_some_iff.1 at_i
  have split := List.take_append_drop i γ
  rw [List.drop_eq_getElem_cons bound] at split
  rw [← split, List.map_append, List.map_cons] at stacked
  obtain ⟨a, b, lower, upper, target⟩ := stacked.linked
  rw [List.length_map, List.length_take_of_le bound.le] at lower upper
  exact ⟨γ[i], a, b, plain.denotes (known _ (List.getElem_mem bound)), lower, upper, target⟩

structure Consistent (c : Construction) (g : Grammar) (tokens : List String) (s : Step) :
    Prop where
  bottom : s.states.head? = some 0
  length_states : s.states.length = s.symbols.length + 1
  linked : ∀ i name, s.symbols[i]? = some name → ∃ x a b, g.Denotes name x ∧
    s.states[i]? = some a ∧ s.states[i + 1]? = some b ∧ c.automaton.transition a x.shift = some b
  derives : ∃ n γ ts, n ≤ tokens.length ∧ s.input = tokens.drop n ++ [Grammar.endSpelling] ∧
    List.Forall₂ g.Denotes s.symbols γ ∧ g.Spells ts (tokens.take n) ∧
    g.Derives γ (ts.map .terminal)
  reducible : ∀ n rule, s.move = .reduce n rule → c.Reducible s n
  goto_found : ∀ a name, s.move ≠ .fail (.missingGoto a name)

theorem consistent_of_path (plain : g.Plain)
    (path : (ofGrammar g).Path (.initial tokens) steps k)
    (here : (∃ k', (ofGrammar g).Moves k move k') ∨ (ofGrammar g).Halts k move) :
    (ofGrammar g).Consistent g tokens (k.record move) := by
  have built := built_ofGrammar plain
  obtain ⟨δ, ts, stacked, spelled, derives⟩ := path.reads built
  obtain ⟨γ, rfl, known⟩ := exists_shift_of_stacked plain stacked
  have on := path.on (on_initial tokens)
  refine ⟨rfl, k.length_states, fun i name => exists_link plain stacked known, ?_, ?_, ?_⟩
  · refine ⟨k.position, γ, ts, on.le, ?_, ?_, ?_, ?_⟩
    · rw [Config.record, Config.input, on.rest_eq]
    · rw [Config.record, symbols_eq_of_stacked plain stacked, List.forall₂_map_left_iff,
        List.forall₂_same]
      exact fun x hx => plain.denotes (known x hx)
    · rwa [Grammar.Spells, ofGrammar, Grammar.terms_augment plain] at spelled
    · obtain ⟨ns, _, derives⟩ := (Grammar.rightDerives_terminals_augment_iff plain).1 derives
      exact derives.derives
  · rintro n rule rfl
    cases here with
    | inl moves =>
        obtain ⟨k', moves⟩ := moves
        exact built.reducible_of_moves stacked moves
    | inr halts => cases halts
  · rintro a name rfl
    cases here with
    | inl moves =>
        obtain ⟨k', moves⟩ := moves
        cases moves
    | inr halts => exact built.not_missingGoto stacked a name halts

theorem Recorded.consistent (plain : g.Plain) (recorded : (ofGrammar g).Recorded tokens s) :
    (ofGrammar g).Consistent g tokens s := by
  cases recorded with
  | next path step => exact consistent_of_path plain path (.inl ⟨_, step_eq_next_iff.1 step⟩)
  | last path step => exact consistent_of_path plain path (.inr (step_eq_halt_iff.1 step))

theorem consistent_of_recorded {text : String} (read : Grammar.ofText text = .ok g)
    (built : ofText text = .ok c) :
    (∀ tokens s, c.Recorded tokens s → c.Consistent g tokens s) ∧
      (∀ tokens limit t, c.run limit tokens = .ended t →
        ∀ s ∈ t.steps, c.Consistent g tokens s) ∧
      ∀ a t j, c.table.action a t ≠ some (.goto j) ∧
        ∀ es, c.table.action a t = some (.conflict es) → .goto j ∉ es := by
  have plain := Grammar.plain_of_ofText read
  obtain rfl := eq_ofGrammar read built
  refine ⟨fun tokens s recorded => recorded.consistent plain, ?_,
    (built_ofGrammar plain).action_ne_goto⟩
  intro tokens limit t ended s mem
  exact (recorded_of_mem_steps ended mem).consistent plain

theorem consistent_dangling :
    (ofGrammar dangling).run 5 ["i", "a"] = .ended danglingTrace ∧
      (∀ s ∈ danglingTrace.steps, (ofGrammar dangling).Consistent dangling ["i", "a"] s) ∧
      (ofGrammar dangling).Reducible
        ⟨[0, 2, 4], ["i", "S"], ["$"], .reduce 2 "S -> i S"⟩ 2 := by
  have consistent := (consistent_of_recorded read_dangling ofText_dangling).2.1 _ _ _ run_dangling
  exact ⟨run_dangling, consistent, (consistent _ (by decide)).reducible 2 "S -> i S" rfl⟩

end ShiftReduce.Construction
