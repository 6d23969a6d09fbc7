import ShiftReduce.Proofs.Machine.Completeness

/-!
What the answers of the machine say about the language. A rejection is justified as soon as it is
given: no sentence agrees with the tokens that the machine has looked at. An acceptance leaves no
second derivation, since the run follows them all, so a grammar without conflicts is unambiguous.
-/

namespace ShiftReduce.Construction

variable {c : Construction} {g : Grammar} {text : String} {tokens : List String} {steps : List Step}
  {last : Config} {ns : List Nat}

theorem not_sentence_of_rejected (read : Grammar.ofText text = .ok g)
    (built : ofText text = .ok c) {limit : Nat} {t : Trace}
    (ended : c.run limit tokens = .ended t)
    (rejected : (∃ s x, t.failure? = some (.noAction s x)) ∨
      ∃ x n, t.failure? = some (.unrecognizedSymbol x n)) :
    t.shifts ≤ tokens.length ∧
      (t.shifts < tokens.length → ∀ unseen,
        ¬ g.Sentence (tokens.take (t.shifts + 1) ++ unseen)) ∧
      (t.shifts = tokens.length → ¬ g.Sentence tokens) := by
  have plain := Grammar.plain_of_ofText read
  obtain rfl := eq_ofGrammar read built
  obtain ⟨steps, last, move, path, halts, rfl⟩ := run_eq_ended_iff.1 ⟨limit, ended⟩
  -- A run that agrees with a derivation accepts or stops in a conflict, and this one does neither.
  have neither : ∀ {P : Prop},
      ¬ ((move = .accept ∧ P) ∨ ∃ kind s x, move = .fail (.conflict kind s x)) := by
    intro P verdict
    cases verdict with
    | inl accepts => simp [accepts.1, failure?_concat] at rejected
    | inr conflict =>
        obtain ⟨kind, s, x, same⟩ := conflict
        simp [same, failure?_concat] at rejected
  have shifts_eq : Trace.shifts ⟨steps ++ [last.record move], last.counters⟩ = last.position := by
    rw [halts.shifts_eq, path.position_initial]
  rw [shifts_eq]
  refine ⟨(path.on (on_initial tokens)).le, ?_, ?_⟩
  · intro ahead unseen sentence
    obtain ⟨ns, derivation⟩ := Grammar.sentence_iff.1 sentence
    have first := List.take_prefix (last.position + 1) tokens
    have behind : last.position < (tokens.take (last.position + 1)).length := by
      rw [List.length_take]
      omega
    exact neither (halts_of_seen plain derivation first path halts behind)
  · intro _ sentence
    obtain ⟨ns, derivation⟩ := Grammar.sentence_iff.1 sentence
    exact neither (halts_of_derivation plain derivation path halts)

theorem not_sentence_dangling :
    (ofGrammar dangling).run 2 ["i", "e"] = .ended rejectedTrace ∧ rejectedTrace.shifts = 1 ∧
      ∀ unseen, ¬ dangling.Sentence (["i", "e"] ++ unseen) := by
  have rejected := not_sentence_of_rejected read_dangling ofText_dangling run_rejected
    (.inl ⟨2, "e", rfl⟩)
  exact ⟨run_rejected, rfl, rejected.2.1 (by decide)⟩

theorem derivation_unique_of_accepts (plain : g.Plain)
    (path : (ofGrammar g).Path (.initial tokens) steps last)
    (halts : (ofGrammar g).Halts last .accept) {ms : List Nat}
    (first : g.RightmostDerivation ns tokens) (second : g.RightmostDerivation ms tokens) :
    ns = ms := by
  have reductions : ∀ {ls : List Nat}, g.RightmostDerivation ls tokens →
      (ls.map (· + 1)).reverse = reductionsOf steps := by
    intro ls derivation
    cases halts_of_derivation plain derivation path halts with
    | inl accepts => exact accepts.2
    | inr conflict =>
        obtain ⟨kind, s, x, same⟩ := conflict
        cases same
  have same := List.reverse_injective ((reductions first).trans (reductions second).symm)
  exact List.map_injective_iff.2 (add_left_injective 1) same

theorem unambiguous_of_isSLR1 (plain : g.Plain) (deterministic : (ofGrammar g).isSLR1) :
    g.Unambiguous := by
  intro tokens ns ms first second
  obtain ⟨steps, last, move, path, halts⟩ := exists_halt_of_derivation plain first
  cases halts_of_derivation plain first path halts with
  | inl accepts =>
      obtain ⟨rfl, _⟩ := accepts
      exact derivation_unique_of_accepts plain path halts first second
  | inr conflict =>
      obtain ⟨kind, s, x, rfl⟩ := conflict
      exact absurd deterministic halts.not_isSLR1

theorem unique_derivation_of_accepted (read : Grammar.ofText text = .ok g)
    (built : ofText text = .ok c) :
    (∀ tokens limit t, c.run limit tokens = .ended t → t.isAccepted →
      ∃! ns, g.RightmostDerivation ns tokens) ∧
    (c.isSLR1 → g.Unambiguous) ∧
    ∀ tokens ns ms, ns ≠ ms → g.RightmostDerivation ns tokens → g.RightmostDerivation ms tokens →
      c.conflicts ≠ [] := by
  have plain := Grammar.plain_of_ofText read
  obtain rfl := eq_ofGrammar read built
  refine ⟨?_, unambiguous_of_isSLR1 plain, ?_⟩
  · intro tokens limit t ended accepted
    obtain ⟨steps, last, path, halts, rfl⟩ := exists_path_of_accepted ended accepted
    obtain ⟨ns, _, derivation⟩ := exists_derivation_of_accepts plain path halts
    refine ⟨ns, derivation, fun ms other => ?_⟩
    exact derivation_unique_of_accepts plain path halts other derivation
  · intro tokens ns ms different first second no_conflict
    have deterministic := Table.isSLR1_of_conflicts_eq_nil no_conflict
    exact different (unambiguous_of_isSLR1 plain deterministic tokens ns ms first second)

/-- The token `e` goes with either `i`. -/
theorem two_derivations_dangling :
    dangling.RightmostDerivation [1, 0, 2, 2] ["i", "i", "a", "e", "a"] ∧
      dangling.RightmostDerivation [0, 2, 1, 2] ["i", "i", "a", "e", "a"] := by
  decide +kernel

theorem unique_derivation_samples :
    (ofGrammar dangling).run 5 ["i", "a"] = .ended danglingTrace ∧
      (∃! ns, dangling.RightmostDerivation ns ["i", "a"]) ∧
      (ofGrammar dangling).conflicts ≠ [] ∧ nested.Unambiguous := by
  obtain ⟨unique, _, conflicting⟩ := unique_derivation_of_accepted read_dangling ofText_dangling
  obtain ⟨_, unambiguous, _⟩ := unique_derivation_of_accepted read_nested ofText_nested
  obtain ⟨inner, outer⟩ := two_derivations_dangling
  exact ⟨run_dangling, unique _ _ _ run_dangling rfl, conflicting _ _ _ (by decide) inner outer,
    unambiguous isSLR1_nested⟩

end ShiftReduce.Construction
