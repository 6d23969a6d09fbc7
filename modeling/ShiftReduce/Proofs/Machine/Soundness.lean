import ShiftReduce.Proofs.Grammar.BottomUp
import ShiftReduce.Proofs.Machine.Stack

/-!
Accepted tokens are sentences. At every point of a run the reductions made so far, latest first,
derive the tokens that have been consumed from the symbols on the stack (`Reads`); where the machine
accepts, these symbols are the start symbol alone. Nothing depends on FOLLOW or on the absence of
conflicts.
-/

namespace ShiftReduce.Construction

open Config (topState)

variable {c : Construction} {start : Nat} {tokens : List String} {k k' last : Config}
  {ns : List Nat} {steps : List Step} {move : Move}

/-- From the symbols on the stack the reductions `ns` derive the tokens in front of the position. -/
def Reads (c : Construction) (tokens : List String) (k : Config) (ns : List Nat) : Prop :=
  ∃ γ ts, c.Stacked k.stack γ ∧ c.grammar.Spells ts (tokens.take k.position) ∧
    c.grammar.RightDerives ns γ (ts.map .terminal)

theorem lookahead_eq {token : String} {rest : List String} (ahead : k.rest = token :: rest) :
    k.lookahead = token := by
  simp [Config.lookahead, ahead]

theorem Stacked.shift {γ : List Symbol} (stacked : c.Stacked k.stack γ) {t s : Nat}
    {token : String} {rest : List String} (look : c.lookaheadTerm? k = some t)
    (ahead : k.rest = token :: rest)
    (target : c.automaton.transition (topState k.stack) (.terminal t) = some s) :
    c.Stacked (k.shifted s rest).stack (γ ++ [.terminal t]) := by
  rw [lookaheadTerm?_cons ahead] at look
  have pushed := stacked.push target
  rw [Grammar.symbolName, termName_of_index? look, ← lookahead_eq ahead] at pushed
  exact pushed

theorem Stacked.reduce {δ : List Symbol} {below : List Frame} {a s : Nat}
    (stacked : c.Stacked below δ)
    (target : c.automaton.transition (topState below) (.nonterminal a) = some s) :
    c.Stacked (k.reduced below s (c.grammar.nontermName a)).stack (δ ++ [.nonterminal a]) :=
  stacked.push target

theorem Moves.plan (built : c.Built start) (moves : c.Moves k move k') {γ : List Symbol}
    (stacked : c.Stacked k.stack γ) :
    ∃ δ us xs, c.Stacked k'.stack δ ∧ c.grammar.Plan δ γ us move.reduction?.toList ∧
      c.grammar.Spells us xs ∧ k.rest = xs ++ k'.rest := by
  cases moves with
  | @shift t s token rest look action ahead =>
      have target := built.transition_of_shift action
      refine ⟨γ ++ [.terminal t], [t], [token], stacked.shift look ahead target, .shift .done, ?_,
        ahead⟩
      rw [lookaheadTerm?_cons ahead] at look
      simp [Grammar.Spells, look]
  | @reduce t n s p look action found goto =>
      have offers := built.offers_of_action action (by simp)
      obtain ⟨δ, j, rfl, below, target⟩ := built.pop_of_reduce stacked offers found
      rw [built.goto_eq_transition, target, Option.some.injEq] at goto
      subst goto
      exact ⟨δ ++ [.nonterminal p.head], [], [], below.reduce target, .reduce found .done, rfl, rfl⟩

theorem Path.plan (built : c.Built start) (path : c.Path k steps last) {γ : List Symbol}
    (stacked : c.Stacked k.stack γ) :
    ∃ δ us xs, c.Stacked last.stack δ ∧ c.grammar.Plan δ γ us (reductionsOf steps) ∧
      c.grammar.Spells us xs ∧ k.rest = xs ++ last.rest := by
  induction path generalizing γ with
  | nil k => exact ⟨γ, [], [], stacked, .done, rfl, rfl⟩
  | @cons k next last move steps step _ ih =>
      obtain ⟨δ, us, xs, stacked, first, spelled, ahead⟩ :=
        (step_eq_next_iff.1 step).plan built stacked
      obtain ⟨δ', us', xs', stacked', later, spelled', ahead'⟩ := ih stacked
      refine ⟨δ', us ++ us', xs ++ xs', stacked', ?_, spelled.append spelled', ?_⟩
      · rw [reductionsOf_cons]
        exact first.trans later
      · rw [ahead, ahead', List.append_assoc]

theorem Path.plan_initial (built : c.Built start) (path : c.Path (.initial tokens) steps last) :
    ∃ δ us, c.Stacked last.stack δ ∧ c.grammar.Plan δ [] us (reductionsOf steps) ∧
      c.grammar.Spells us (tokens.take last.position) := by
  obtain ⟨δ, us, xs, stacked, plan, spelled, ahead⟩ := path.plan built .nil
  have split : tokens.take last.position ++ last.rest = xs ++ last.rest := by
    rw [(path.on (on_initial tokens)).rest_eq, List.take_append_drop,
      ← (path.on (on_initial tokens)).rest_eq]
    exact ahead
  obtain rfl := List.append_cancel_right split
  exact ⟨δ, us, stacked, plan, spelled⟩

theorem Reads.accepts (built : c.Built start) (on : k.On tokens) (reads : c.Reads tokens k ns)
    (halts : c.Halts k .accept) :
    (∃ s, c.automaton.transition 0 (.nonterminal start) = some s ∧
      k.record .accept =
        ⟨[0, s], [c.grammar.nontermName start], [Grammar.endSpelling], .accept⟩) ∧
    ∃ ts, c.grammar.Spells ts tokens ∧
      c.grammar.RightDerives ns [.nonterminal start] (ts.map .terminal) := by
  obtain ⟨γ, ts, stacked, spelled, derives⟩ := reads
  cases halts with
  | accept look action =>
      have offers := built.offers_of_action action (by simp)
      obtain ⟨rfl, rfl⟩ := built.eq_start_of_accept stacked offers
      have all_read := rest_eq_nil_of_eof look
      have behind : tokens.drop k.position = [] := on.rest_eq.symm.trans all_read
      apply And.intro
      · obtain ⟨s, st, frames, below, target⟩ := Stacked.of_concat (γ := []) stacked
        obtain rfl : st = [] := List.eq_nil_of_length_eq_zero below.length_eq
        refine ⟨s, target, ?_⟩
        simp [Config.record, Config.states, Config.symbols, Config.input, frames, all_read,
          Grammar.symbolName]
      · rw [List.take_of_length_le (List.drop_eq_nil_iff.1 behind)] at spelled
        exact ⟨ts, spelled, derives⟩

theorem Path.reads (built : c.Built start) (path : c.Path (.initial tokens) steps last) :
    c.Reads tokens last (reductionsOf steps).reverse := by
  obtain ⟨δ, us, stacked, plan, spelled⟩ := path.plan_initial built
  exact ⟨δ, us, stacked, spelled, Grammar.plan_iff_rightDerives.1 plan⟩

theorem isAccepted_concat {counters : Counters} :
    Trace.isAccepted ⟨steps ++ [last.record move], counters⟩ ↔ move = .accept := by
  simp [Trace.isAccepted, Trace.last?, Config.record]

theorem failure?_concat {counters : Counters} {cause : Failure} :
    Trace.failure? ⟨steps ++ [last.record move], counters⟩ = some cause ↔ move = .fail cause := by
  cases move <;> simp [Trace.failure?, Trace.last?, Config.record]

theorem exists_path_of_accepted {limit : Nat} {t : Trace} (ended : c.run limit tokens = .ended t)
    (accepted : t.isAccepted) :
    ∃ steps last, c.Path (.initial tokens) steps last ∧ c.Halts last .accept ∧
      t = ⟨steps ++ [last.record .accept], last.counters⟩ := by
  obtain ⟨steps, last, move, path, halts, rfl⟩ := run_eq_ended_iff.1 ⟨limit, ended⟩
  obtain rfl := isAccepted_concat.1 accepted
  exact ⟨steps, last, path, halts, rfl⟩

theorem exists_path_of_failed {limit : Nat} {t : Trace} {cause : Failure}
    (ended : c.run limit tokens = .ended t) (failed : t.failure? = some cause) :
    ∃ steps last, c.Path (.initial tokens) steps last ∧ c.Halts last (.fail cause) ∧
      t = ⟨steps ++ [last.record (.fail cause)], last.counters⟩ := by
  obtain ⟨steps, last, move, path, halts, rfl⟩ := run_eq_ended_iff.1 ⟨limit, ended⟩
  obtain rfl := failure?_concat.1 failed
  exact ⟨steps, last, path, halts, rfl⟩

theorem exists_derivation_of_accepts {g : Grammar} (plain : g.Plain)
    (path : (ofGrammar g).Path (.initial tokens) steps last)
    (halts : (ofGrammar g).Halts last .accept) :
    ∃ ns, (reductionsOf steps).reverse = ns.map (· + 1) ∧
      g.RightmostDerivation ns tokens := by
  have built := built_ofGrammar plain
  obtain ⟨_, ts, spelled, derives⟩ :=
    (path.reads built).accepts built (path.on (on_initial tokens)) halts
  obtain ⟨ns, numbers, derives⟩ := (Grammar.rightDerives_start_augment_iff plain).1 derives
  have spelled : g.Spells ts tokens := by
    rwa [Grammar.Spells, ofGrammar, Grammar.terms_augment plain] at spelled
  exact ⟨ns, numbers, ts, spelled, derives⟩

/-- An accepted run ends with the start symbol alone on the stack, and its reductions, read
backwards, are a rightmost derivation of the tokens. The machine numbers productions with `S' -> S`
in front of all others. -/
theorem rightmostDerivation_of_accepted {text : String} {g : Grammar}
    (read : Grammar.ofText text = .ok g) (built : ofText text = .ok c) {limit : Nat} {t : Trace}
    (ended : c.run limit tokens = .ended t) (accepted : t.isAccepted) :
    g.Sentence tokens ∧
      (∃ s, c.automaton.transition 0 (.nonterminal (g.start + 1)) = some s ∧
        t.last? = some
          ⟨[0, s], [g.nontermName g.start], [Grammar.endSpelling], .accept⟩) ∧
      ∃ ns, t.reductions.reverse = ns.map (· + 1) ∧ g.RightmostDerivation ns tokens := by
  have plain := Grammar.plain_of_ofText read
  obtain rfl := eq_ofGrammar read built
  have whole := built_ofGrammar plain
  obtain ⟨steps, last, path, halts, rfl⟩ := exists_path_of_accepted ended accepted
  obtain ⟨⟨s, target, recorded⟩, _⟩ :=
    (path.reads whole).accepts whole (path.on (on_initial tokens)) halts
  obtain ⟨ns, numbers, derivation⟩ := exists_derivation_of_accepts plain path halts
  refine ⟨Grammar.sentence_iff.2 ⟨ns, derivation⟩, ⟨s, target, ?_⟩, ns, ?_, derivation⟩
  · rw [Trace.last?, List.getLast?_concat, recorded]
    simp [ofGrammar, Grammar.nontermName_augment plain]
  · rw [halts.reductions_eq, numbers]

/-- A grammar with the conflict of the dangling else. -/
def dangling : Grammar where
  nonterms := .ofList ["S"]
  terms := .ofList ["i", "e", "a"]
  start := 0
  prods := #[⟨0, [.terminal 0, .nonterminal 0, .terminal 1, .nonterminal 0]⟩,
    ⟨0, [.terminal 0, .nonterminal 0]⟩, ⟨0, [.terminal 2]⟩]
  augmented := false

theorem read_dangling : Grammar.ofText "S -> i S e S | i S | a" = .ok dangling := by
  decide +kernel

theorem ofText_dangling : ofText "S -> i S e S | i S | a" = .ok (ofGrammar dangling) :=
  ofText_of_read read_dangling

def danglingTrace : Trace where
  steps :=
    [⟨[0], [], ["i", "a", "$"], .shift 2⟩, ⟨[0, 2], ["i"], ["a", "$"], .shift 3⟩,
      ⟨[0, 2, 3], ["i", "a"], ["$"], .reduce 3 "S -> a"⟩,
      ⟨[0, 2, 4], ["i", "S"], ["$"], .reduce 2 "S -> i S"⟩, ⟨[0, 1], ["S"], ["$"], .accept⟩]
  counters := ⟨3, 2, 2⟩

theorem run_dangling : (ofGrammar dangling).run 5 ["i", "a"] = .ended danglingTrace := by
  decide +kernel

def rejectedTrace : Trace where
  steps :=
    [⟨[0], [], ["i", "e", "$"], .shift 2⟩,
      ⟨[0, 2], ["i"], ["e", "$"], .fail (.noAction 2 "e")⟩]
  counters := ⟨2, 1, 0⟩

theorem run_rejected : (ofGrammar dangling).run 2 ["i", "e"] = .ended rejectedTrace := by
  decide +kernel

theorem rightmostDerivation_dangling :
    (ofGrammar dangling).run 5 ["i", "a"] = .ended danglingTrace ∧
      dangling.Sentence ["i", "a"] ∧
      (∃ s, (ofGrammar dangling).automaton.transition 0 (.nonterminal 1) = some s ∧
        danglingTrace.last? = some ⟨[0, s], ["S"], ["$"], .accept⟩) ∧
      ∃ ns, danglingTrace.reductions.reverse = ns.map (· + 1) ∧
        dangling.RightmostDerivation ns ["i", "a"] :=
  ⟨run_dangling, rightmostDerivation_of_accepted read_dangling ofText_dangling run_dangling rfl⟩

end ShiftReduce.Construction
