import ShiftReduce.Proofs.Automaton.Completion
import ShiftReduce.Proofs.Grammar.Checking
import ShiftReduce.Proofs.Machine.Soundness

/-!
The tokens that have been shifted can always be completed to a sentence, where every nonterminal
derives a string of terminals. The symbols on the stack are a viable prefix whatever the lookahead
was that let the machine reduce (`Built.exists_valid_of_stacked`), so a plan leads down to the start
symbol, and behind the plan that the run has carried out it reads a sentence (`Path.exists_plan`).
Conflicts do no harm, and a run need not end.
-/

namespace ShiftReduce

def Grammar.Begins (g : Grammar) (tokens : List String) (n : Nat) : Prop :=
  n ≤ tokens.length ∧ ∃ unseen, g.Sentence (tokens.take n ++ unseen)

namespace Construction

variable {c : Construction} {start : Nat} {st : List Frame} {γ : List Symbol} {k : Config}
  {tokens : List String} {steps : List Step}

namespace Built

variable (built : c.Built start)

include built

theorem exists_valid_of_stacked (stacked : c.Stacked st γ) : ∃ i, Valid c.grammar γ i := by
  obtain ⟨p, first⟩ := built.exists_first
  have walk := stacked.walk_eq
  rw [built.automaton_eq] at walk
  exact Automaton.exists_valid_of_walk first walk

theorem exists_plan_of_stacked (productive : c.grammar.Productive) (stacked : c.Stacked st γ) :
    ∃ ts ns, c.grammar.Plan [.nonterminal start] γ ts ns := by
  obtain ⟨i, valid⟩ := built.exists_valid_of_stacked stacked
  exact valid.exists_plan built.augmented productive

theorem terminals_lt_of_plan {ts ns : List Nat}
    (plan : c.grammar.Plan [.nonterminal start] [] ts ns) : ∀ t ∈ ts, t < c.grammar.terms.size := by
  refine built.augmented.terminals_lt_of_derives plan.rightDerives.derives fun x hx => ?_
  rw [List.mem_singleton.1 hx]
  exact built.augmented.mem_symbols_of_mem_rhs (Grammar.mem_of_prod? built.augmented.first)
    List.mem_cons_self

end Built

theorem Path.exists_plan (built : c.Built start) (productive : c.grammar.Productive)
    (path : c.Path (.initial tokens) steps k) :
    ∃ unseen ts ns, c.grammar.Spells ts (tokens.take k.position ++ unseen) ∧
      c.grammar.Plan [.nonterminal start] [] ts (reductionsOf steps ++ ns) := by
  obtain ⟨δ, us, stacked, plan, spelled⟩ := path.plan_initial built
  obtain ⟨ts, ns, behind⟩ := built.exists_plan_of_stacked productive stacked
  have whole := plan.trans behind
  obtain ⟨unseen, spelled'⟩ := Grammar.exists_spells fun t ht =>
    built.terminals_lt_of_plan whole t (List.mem_append_right us ht)
  exact ⟨unseen, us ++ ts, ns, spelled.append spelled', whole⟩

theorem Path.begins {g : Grammar} (plain : g.Plain) (productive : g.Productive)
    (path : (ofGrammar g).Path (.initial tokens) steps k) : g.Begins tokens (shiftsOf steps) := by
  rw [← path.position_initial]
  obtain ⟨unseen, ts, ns, spelled, plan⟩ :=
    path.exists_plan (built_ofGrammar plain) (Grammar.productive_augment plain productive)
  obtain ⟨ms, _, derives⟩ := (Grammar.rightDerives_start_augment_iff plain).1 plan.rightDerives
  refine ⟨(path.on (on_initial tokens)).le, unseen, ts, ?_, derives.derives⟩
  rwa [Grammar.Spells, ofGrammar, Grammar.terms_augment plain] at spelled

/-- The tokens that have been shifted begin a sentence, after every number of steps and also where
the steps never end. -/
theorem exists_sentence_of_path {text : String} {g : Grammar}
    (read : Grammar.ofText text = .ok g) (built : ofText text = .ok c)
    (productive : g.Productive) :
    (∀ tokens steps k, c.Path (.initial tokens) steps k →
      k.rest = tokens.drop (shiftsOf steps) ∧ g.Begins tokens (shiftsOf steps)) ∧
      ∀ tokens limit t, c.run limit tokens = .ended t →
        ∀ n, g.Begins tokens (shiftsOf (t.steps.take n)) := by
  have plain := Grammar.plain_of_ofText read
  obtain rfl := eq_ofGrammar read built
  apply And.intro
  · intro tokens steps k path
    refine ⟨?_, path.begins plain productive⟩
    rw [← path.position_initial]
    exact (path.on (on_initial tokens)).rest_eq
  · intro tokens limit t ended n
    obtain ⟨steps, last, move, path, halts, rfl⟩ := run_eq_ended_iff.1 ⟨limit, ended⟩
    obtain ⟨k, front⟩ := path.take n
    rw [halts.shiftsOf_take]
    exact front.begins plain productive

theorem productive_dangling : dangling.Productive := by
  intro a known
  obtain rfl : a = 0 := Nat.lt_one_iff.1 known
  exact ⟨[2], Grammar.derives_terminals_iff.2 ⟨[2], Grammar.rightDerives_iff.2 (by decide +kernel)⟩⟩

/-- The tokens are no sentence, but the one that is shifted begins one. -/
theorem exists_sentence_dangling :
    (ofGrammar dangling).step (.initial ["i", "e"]) =
        .next (.shift 2) ⟨[⟨2, "i"⟩], 1, ["e"], ⟨2, 1, 0⟩⟩ ∧
      (∃ unseen, dangling.Sentence (["i"] ++ unseen)) ∧
      (ofGrammar dangling).run 2 ["i", "e"] = .ended rejectedTrace ∧
      ∀ n, dangling.Begins ["i", "e"] (shiftsOf (rejectedTrace.steps.take n)) := by
  have begins := exists_sentence_of_path read_dangling ofText_dangling productive_dangling
  have step : (ofGrammar dangling).step (.initial ["i", "e"]) =
      .next (.shift 2) ⟨[⟨2, "i"⟩], 1, ["e"], ⟨2, 1, 0⟩⟩ := by decide +kernel
  obtain ⟨_, _, sentence⟩ := begins.1 _ _ _ (.cons step (.nil _))
  exact ⟨step, sentence, run_rejected, begins.2 _ _ _ run_rejected⟩

end Construction

end ShiftReduce
