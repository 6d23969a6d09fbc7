import ShiftReduce.Proofs.Machine.Completeness
import ShiftReduce.Proofs.Machine.CorrectPrefix

/-!
The machine halts on every list of tokens, where there is no conflict and every nonterminal derives
a string of terminals. Its lookahead may be wrong in context, so nothing gets smaller between two
shifts. But what it has recognized is a viable prefix that can be completed, and on the completed
tokens, which are a sentence, the machine makes the same reductions (`exists_path_of_plan`) and
halts. That bounds the reductions in front of each token that a completion can go on with
(`exists_bound_of_lookahead`), and there are finitely many of these.
-/

namespace ShiftReduce.Construction

variable {c : Construction} {start : Nat} {γ δ : List Symbol} {ts us ns ms : List Nat}
  {k : Config}

/-- Without a conflict the machine carries out every plan that can be completed, if the tokens agree
with it up to the one behind it. -/
theorem exists_path_of_plan (built : c.Built start) (deterministic : c.isSLR1)
    (plan : c.grammar.Plan δ γ us ns)
    (behind : c.grammar.Plan [.nonterminal start] δ ts ms) (stacked : c.Stacked k.stack γ)
    (seen : (us ++ [ts.headD c.grammar.eof]).map some <+:
      k.rest.map c.grammar.terms.index? ++ [some c.grammar.eof]) :
    ∃ steps last, c.Path k steps last ∧ steps.length = us.length + ns.length := by
  induction plan generalizing k with
  | done => exact ⟨[], k, .nil k, rfl⟩
  | @shift γ t us ns rest ih =>
      have look := lookahead_of_prefix seen
      obtain ⟨j, token, tokens, ahead, moves, stacked'⟩ :=
        (shift_or_conflict built stacked (rest.trans behind) look).resolve_right
          fun conflicted => conflicted.not_isSLR1 deterministic
      rw [ahead] at seen
      obtain ⟨steps, last, path, length⟩ := ih stacked' (List.cons_prefix_cons.1 seen).2
      refine ⟨_, last, .cons (step_eq_next_iff.2 moves) path, ?_⟩
      simp only [List.length_cons, length]
      omega
  | @reduce γ n p us ns found rest ih =>
      have look : c.lookaheadTerm? k = some ((us ++ ts).headD c.grammar.eof) := by
        cases us with
        | nil => exact lookahead_of_prefix seen
        | cons u us => exact lookahead_of_prefix seen
      obtain ⟨k', moves, stacked', _, ahead⟩ :=
        (reduce_or_conflict built stacked found (rest.trans behind) look).resolve_right
          fun conflicted => conflicted.not_isSLR1 deterministic
      rw [← ahead] at seen
      obtain ⟨steps, last, path, length⟩ := ih stacked' seen
      refine ⟨_, last, .cons (step_eq_next_iff.2 moves) path, ?_⟩
      simp only [List.length_cons, length]
      omega

/-- The reductions are bounded that come before a terminal with which a completion goes on: all
completions with the same one let the machine begin in the same way. -/
theorem exists_bound_of_lookahead (built : c.Built start) (deterministic : c.isSLR1)
    (us : List Nat) (t : Nat) :
    ∃ bound, ∀ δ ns ts ms, c.grammar.Plan δ [] us ns →
      c.grammar.Plan [.nonterminal start] δ ts ms → ts.headD c.grammar.eof = t →
      ns.length ≤ bound := by
  by_cases some_plan : ∃ δ ns ts ms, c.grammar.Plan δ [] us ns ∧
      c.grammar.Plan [.nonterminal start] δ ts ms ∧ ts.headD c.grammar.eof = t
  · obtain ⟨δ, ns, ts, ms, plan, behind, head⟩ := some_plan
    have whole := plan.trans behind
    obtain ⟨w, spelled⟩ := Grammar.exists_spells (built.terminals_lt_of_plan whole)
    obtain ⟨halting, final, move, path, halts⟩ := exists_halt_of_plan built whole spelled
    refine ⟨halting.length, fun δ' ns' ts' ms' plan' behind' head' => ?_⟩
    have agree : us ++ [ts'.headD c.grammar.eof] <+: us ++ ts ++ [c.grammar.eof] := by
      rw [head', ← head, List.append_assoc, List.prefix_append_right_inj]
      cases ts with
      | nil => exact List.prefix_rfl
      | cons u ts => exact List.cons_prefix_cons.2 ⟨rfl, List.nil_prefix⟩
    have seen : (us ++ [ts'.headD c.grammar.eof]).map some <+:
        (Config.initial w).rest.map c.grammar.terms.index? ++ [some c.grammar.eof] := by
      rw [Config.initial, spelled]
      simpa using agree.map some
    obtain ⟨steps, last, path', same⟩ :=
      exists_path_of_plan built deterministic plan' behind' .nil seen
    have le := path'.length_le_of_halts path halts
    omega
  · refine ⟨0, fun δ ns ts ms plan behind head => ?_⟩
    exact absurd ⟨δ, ns, ts, ms, plan, behind, head⟩ some_plan

theorem exists_bound_of_plan (built : c.Built start) (deterministic : c.isSLR1) (us : List Nat) :
    ∃ bound, ∀ δ ns ts ms, c.grammar.Plan δ [] us ns →
      c.grammar.Plan [.nonterminal start] δ ts ms → ns.length ≤ bound := by
  choose bound least using exists_bound_of_lookahead built deterministic us
  refine ⟨(Finset.range (c.grammar.eof + 1)).sup bound, fun δ ns ts ms plan behind => ?_⟩
  have known := built.terminals_lt_of_plan (plan.trans behind)
  have head_le : ts.headD c.grammar.eof ≤ c.grammar.eof := by
    cases ts with
    | nil => exact le_rfl
    | cons t ts => exact (known t (by simp)).le
  exact (least _ δ ns ts ms plan behind rfl).trans
    (Finset.le_sup (Finset.mem_range.2 (Nat.lt_succ_of_le head_le)))

theorem exists_bound_of_tokens (built : c.Built start) (deterministic : c.isSLR1)
    (productive : c.grammar.Productive) (tokens : List String) :
    ∃ bound, ∀ steps last, c.Path (.initial tokens) steps last → steps.length ≤ bound := by
  choose bound least using exists_bound_of_plan built deterministic
  let terms (n : Nat) := (tokens.take n).map c.grammar.terms.indexOf
  refine ⟨tokens.length + (Finset.range (tokens.length + 1)).sup fun n => bound (terms n),
    fun steps last path => ?_⟩
  have le := (path.on (on_initial tokens)).le
  obtain ⟨δ, us, stacked, plan, spelled⟩ := path.plan_initial built
  obtain ⟨ts, ms, behind⟩ := built.exists_plan_of_stacked productive stacked
  obtain rfl : us = terms last.position := spelled.eq_map_indexOf
  have reductions : (reductionsOf steps).length ≤
      (Finset.range (tokens.length + 1)).sup fun n => bound (terms n) :=
    (least _ δ _ ts ms plan behind).trans (Finset.le_sup (f := fun n => bound (terms n))
      (Finset.mem_range.2 (Nat.lt_add_one_of_le le)))
  -- Each step shifts a token or makes a reduction, and there is a bound on both.
  have progress := path.progress
  rw [Config.initial, Nat.zero_add] at progress
  omega

theorem exists_halt_of_bound (built : c.Built start) {bound : Nat}
    (least : ∀ steps last, c.Path k steps last → steps.length < bound) :
    ∃ steps last move, c.Path k steps last ∧ c.Halts last move := by
  induction bound generalizing k with
  | zero => exact absurd (least [] k (.nil k)) (Nat.not_lt_zero 0)
  | succ bound ih =>
      cases built.moves_or_halts k with
      | inl goes_on =>
          obtain ⟨move, k', moves⟩ := goes_on
          obtain ⟨steps, last, halt, path, halts⟩ := ih fun steps last path =>
            Nat.lt_of_succ_lt_succ (least _ _ (.cons (step_eq_next_iff.2 moves) path))
          exact ⟨_, last, halt, .cons (step_eq_next_iff.2 moves) path, halts⟩
      | inr stops =>
          obtain ⟨move, halts⟩ := stops
          exact ⟨[], k, move, .nil k, halts⟩

theorem exists_ended {text : String} {g : Grammar} (read : Grammar.ofText text = .ok g)
    (built : ofText text = .ok c) (deterministic : c.isSLR1) (productive : g.Productive)
    (tokens : List String) :
    ∃ limit t, ∀ more, limit ≤ more → c.run more tokens = .ended t := by
  have plain := Grammar.plain_of_ofText read
  obtain rfl := eq_ofGrammar read built
  have whole := built_ofGrammar plain
  obtain ⟨bound, least⟩ := exists_bound_of_tokens whole deterministic
    (Grammar.productive_augment plain productive) tokens
  obtain ⟨steps, last, move, path, halts⟩ := exists_halt_of_bound whole fun steps last path =>
    Nat.lt_add_one_of_le (least steps last path)
  obtain ⟨limit, ended⟩ := run_eq_ended_iff.2 ⟨steps, last, move, path, halts, rfl⟩
  exact ⟨limit, _, fun more le => run_of_le ended le⟩

theorem productive_nested : nested.Productive := by
  intro a known
  obtain rfl : a = 0 := Nat.lt_one_iff.1 known
  exact ⟨[], Grammar.derives_terminals_iff.2 ⟨[1], Grammar.rightDerives_iff.2 (by decide +kernel)⟩⟩

/-- The first reduction is made on a lookahead that no sentence begins with. -/
theorem ended_nested : ∃ limit t, ∀ more, limit ≤ more →
    (ofGrammar nested).run more [")"] = .ended t :=
  exists_ended read_nested ofText_nested isSLR1_nested productive_nested [")"]

end ShiftReduce.Construction
