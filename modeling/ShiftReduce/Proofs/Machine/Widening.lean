import ShiftReduce.Proofs.Grammar.Widening
import ShiftReduce.Proofs.Machine.Calls

/-!
Machines for a grammar and for a wider one, whose new rules are never reached. Both have the same
viable prefixes with the same items (`Valid.carry`), but FOLLOW may be larger in the wider grammar:
it counts what stands behind a symbol in any rule. So the wider machine has all calls of the other
one and may have more reductions (`mirrors_of_widens`). It has all conflicts, and where it accepts,
the other machine does (`Mirrors.accepts`). Where FOLLOW has not grown, the same holds the other way
round (`mirrors_back`).
-/

namespace ShiftReduce

variable {g h : Grammar} {γ : List Symbol} {i : Item} {p : Production} {a t : Nat}

theorem Grammar.Augmented.eq_zero_iff {s n : Nat} (augmented : g.Augmented s)
    (found : g.prod? n = some p) : n = 0 ↔ p.head = 0 := by
  apply Iff.intro
  · rintro rfl
    rw [augmented.first, Option.some.injEq] at found
    rw [← found]
  · exact augmented.only_first n p found

theorem Valid.carry {s : Nat} (augmented : g.Augmented s) (augmented' : h.Augmented s)
    (kept : ∀ γ i p, Valid g γ i → g.prod? i.prod = some p → p ∈ h.prods) (valid : Valid g γ i)
    (found : g.prod? i.prod = some p) :
    ∃ m, h.prod? m = some p ∧ Valid h γ ⟨m, i.dot⟩ := by
  induction valid generalizing p with
  | start =>
      rw [augmented.first, Option.some.injEq] at found
      exact ⟨0, found ▸ augmented'.first, .start⟩
  | @advance γ i x valid here ih =>
      obtain ⟨m, found', valid'⟩ := ih found
      obtain ⟨q, found_q, at_dot⟩ := Item.next?_eq_some_iff.1 here
      obtain rfl : q = p := Option.some.inj (found_q.symm.trans found)
      exact ⟨m, found', valid'.advance (Item.next?_eq_some_iff.2 ⟨q, found', at_dot⟩)⟩
  | @predict γ i n q valid await found_q ih =>
      obtain rfl : q = p := Option.some.inj (found_q.symm.trans found)
      obtain ⟨r, found_r, at_dot⟩ := Item.next?_eq_some_iff.1 await
      obtain ⟨k, found_k, valid'⟩ := ih found_r
      have mem := kept γ ⟨n, 0⟩ q (.predict valid await found_q) found_q
      obtain ⟨m, found_m⟩ := Array.getElem?_of_mem mem
      have await' : (⟨k, i.dot⟩ : Item).next? h = some (.nonterminal q.head) :=
        Item.next?_eq_some_iff.2 ⟨r, found_k, at_dot⟩
      exact ⟨m, found_m, .predict valid' await' found_m⟩

theorem Valid.occurs {s : Nat} (augmented : g.Augmented s) (valid : Valid g γ i)
    (found : g.prod? i.prod = some p) : g.Occurs p.head := by
  induction valid generalizing p with
  | start =>
      rw [augmented.first, Option.some.injEq] at found
      rw [← found, ← augmented.start_eq]
      exact ⟨[], [], .refl⟩
  | advance _ _ ih => exact ih found
  | @predict γ i n q _ await found_q ih =>
      obtain rfl : q = p := Option.some.inj (found_q.symm.trans found)
      obtain ⟨r, found_r, at_dot⟩ := Item.next?_eq_some_iff.1 await
      exact (ih found_r).of_mem_rhs (Grammar.mem_of_prod? found_r) (List.mem_of_getElem? at_dot)

namespace Grammar

inductive SameTerm (g h : Grammar) : Nat → Nat → Prop
  | terminal {t : Nat} (known : t < g.eof) (known' : t < h.eof) : SameTerm g h t t
  | eof : SameTerm g h g.eof h.eof

theorem SameTerm.unique {u v : Nat} (first : g.SameTerm h t u) (second : g.SameTerm h t v) :
    u = v := by
  cases first with
  | terminal known _ =>
      cases second with
      | terminal _ _ => rfl
      | eof => exact absurd known (Nat.lt_irrefl _)
  | eof =>
      cases second with
      | terminal known _ => exact absurd known (Nat.lt_irrefl _)
      | eof => rfl

theorem SameTerm.eq_of_lt {u : Nat} (same : g.SameTerm h t u) (known : t < g.eof) :
    u = t ∧ t < h.eof := by
  cases same with
  | terminal _ known' => exact ⟨rfl, known'⟩
  | eof => exact absurd known (Nat.lt_irrefl _)

theorem SameTerm.eq_eof {u : Nat} (same : g.SameTerm h t u) (eof : t = g.eof) : u = h.eof := by
  cases same with
  | terminal known _ => exact absurd known (Nat.not_lt_of_ge eof.ge)
  | eof => rfl

end Grammar

namespace Grammar.Widens

variable (widens : g.Widens h)

include widens

theorem sameTerm_of_le (le : t ≤ g.eof) : ∃ u, g.SameTerm h t u := by
  cases le.lt_or_eq with
  | inl known => exact ⟨t, .terminal known (known.trans_le widens.eof_le)⟩
  | inr same => exact ⟨h.eof, same ▸ .eof⟩

theorem exists_mem_follow (wf : g.WellFormed) (wf' : h.WellFormed)
    (mem : t ∈ (TerminalSets.ofGrammar g).follow a) :
    ∃ u, g.SameTerm h t u ∧ u ∈ (TerminalSets.ofGrammar h).follow a := by
  have le := (TerminalSets.fits_ofGrammar wf).le_of_mem_follow mem
  obtain ⟨u, same⟩ := widens.sameTerm_of_le le
  refine ⟨u, same, ?_⟩
  rcases (TerminalSets.mem_follow_iff_derivable wf).1 mem with
    ⟨b, known, left, right, derives⟩ | ⟨eof, left, derives⟩
  · have lt : t < g.eof := by
      refine le.lt_of_ne fun eof => ?_
      rw [List.append_cons, eof] at derives
      exact TerminalSets.not_derives_eof wf known derives
    obtain ⟨rfl, _⟩ := same.eq_of_lt lt
    exact (TerminalSets.settled_ofGrammar wf').mem_follow_of_derives (widens.derives derives)
  · refine (TerminalSets.mem_follow_iff_derivable wf').2 (.inr ⟨same.eq_eof eof, left, ?_⟩)
    rw [widens.start_eq]
    exact widens.derives derives

end Grammar.Widens

namespace Construction

open Config (topState)

variable {c d : Construction} {start : Nat} {k k' last : Config} {move : Move}
  {steps : List Step} {tokens : List String} {o r : Call}

/-- Whatever the first machine is called on to do, so is the second one, by the same string and the
same terminal. -/
structure Mirrors (c d : Construction) : Prop where
  name?_eq : ∀ t < c.grammar.eof, t < d.grammar.eof →
    d.grammar.terms.name? t = c.grammar.terms.name? t
  exists_calls : ∀ γ t o, c.Calls γ t o → ∃ u, c.grammar.SameTerm d.grammar t u ∧ d.Calls γ u o

namespace Mirrors

variable (mirrors : Mirrors c d)

include mirrors

theorem calls_of_calls {u : Nat} (calls : c.Calls γ t o) (same : c.grammar.SameTerm d.grammar t u) :
    d.Calls γ u o := by
  obtain ⟨v, same', calls'⟩ := mirrors.exists_calls γ t o calls
  exact same'.unique same ▸ calls'

theorem isSLR1 (built : c.Built start) (built' : d.Built start)
    (distinct : c.grammar.prods.toList.Nodup) (distinct' : d.grammar.prods.toList.Nodup)
    (deterministic : d.isSLR1) : c.isSLR1 := by
  rw [built.isSLR1_iff_calls distinct]
  rw [built'.isSLR1_iff_calls distinct'] at deterministic
  intro γ t o r first second
  obtain ⟨u, same, calls⟩ := mirrors.exists_calls γ t o first
  exact deterministic γ u o r calls (mirrors.calls_of_calls second same)

theorem lookaheadTerm?_eq {u : Nat} (ahead : k'.rest = k.rest) (look : c.lookaheadTerm? k = some t)
    (same : c.grammar.SameTerm d.grammar t u) : d.lookaheadTerm? k' = some u := by
  cases rest : k.rest with
  | nil =>
      rw [lookaheadTerm?_nil rest, Option.some.injEq] at look
      rw [lookaheadTerm?_nil (ahead.trans rest), same.eq_eof look.symm]
  | cons token tokens =>
      rw [lookaheadTerm?_cons rest] at look
      have known := lt_eof_of_index? look
      obtain ⟨rfl, known'⟩ := same.eq_of_lt known
      rw [lookaheadTerm?_cons (ahead.trans rest), Alphabet.index?_eq_some_iff,
        mirrors.name?_eq _ known known']
      exact Alphabet.index?_eq_some_iff.1 look

end Mirrors

def Accepts (c : Construction) (tokens : List String) : Prop :=
  ∃ limit t, c.run limit tokens = .ended t ∧ t.isAccepted

def StopsInConflict (c : Construction) (tokens : List String) : Prop :=
  ∃ limit t kind s x, c.run limit tokens = .ended t ∧ t.failure? = some (.conflict kind s x)

def Level (c d : Construction) (k k' : Config) : Prop :=
  ∃ γ, c.Stacked k.stack γ ∧ d.Stacked k'.stack γ ∧ k'.rest = k.rest

section

variable (mirrors : Mirrors c d) (built : c.Built start) (built' : d.Built start)
  (distinct : c.grammar.prods.toList.Nodup) (distinct' : d.grammar.prods.toList.Nodup)

include mirrors built built'

theorem Level.moves_or_conflict (level : Level c d k k') {next : Config}
    (moves : c.Moves k move next) :
    (∃ move' next', d.Moves k' move' next' ∧ Level c d next next') ∨ d.Conflicted k' := by
  obtain ⟨γ, stacked, stacked', ahead⟩ := level
  cases moves with
  | @shift t s token rest look action here =>
      have target := built.transition_of_shift action
      have known := built.lt_eof_of_transition target
      obtain ⟨o, calls, answers⟩ := built.exists_call stacked (.shift target)
      -- The second state is called on for the same move, and other entries can only compete with it.
      obtain ⟨u, same, calls'⟩ := mirrors.exists_calls γ t o calls
      have look' := mirrors.lookaheadTerm?_eq ahead look same
      obtain ⟨rfl, _⟩ := same.eq_of_lt known
      obtain ⟨e, offers, answers'⟩ := built'.exists_offers stacked' calls'
      cases answers with
      | shift _ =>
          cases answers' with
          | @shift j target' =>
              refine (action_or_conflict built' look' offers).imp_left fun action' => ?_
              have here' := ahead.trans here
              exact ⟨_, _, .shift look' action' here', _, stacked.shift look here target,
                stacked'.shift look' here' target', rfl⟩
  | @reduce t n s p look action found goto =>
      have offers := built.offers_of_action action (by simp)
      obtain ⟨δ, j, rfl, below, target⟩ := built.pop_of_reduce stacked offers found
      obtain ⟨o, calls, answers⟩ := built.exists_call stacked offers
      obtain ⟨u, same, calls'⟩ := mirrors.exists_calls _ t o calls
      have look' := mirrors.lookaheadTerm?_eq ahead look same
      obtain ⟨e, offers', answers'⟩ := built'.exists_offers stacked' calls'
      obtain rfl := answers.call_eq (.reduce found)
      cases answers' with
      | @reduce m _ found' =>
          refine (action_or_conflict built' look' offers').imp_left fun action' => ?_
          obtain ⟨δ', j', split, below', target'⟩ := built'.pop_of_reduce stacked' offers' found'
          obtain rfl := List.append_cancel_right split
          rw [built.goto_eq_transition, target, Option.some.injEq] at goto
          subst goto
          have goto' := (built'.goto_eq_transition _ _).trans target'
          exact ⟨_, _, .reduce look' action' found' goto', _, below.reduce target,
            below'.reduce target', ahead⟩

include distinct distinct'

theorem Level.conflicted (level : Level c d k k') (conflicted : c.Conflicted k) :
    d.Conflicted k' := by
  obtain ⟨γ, stacked, stacked', ahead⟩ := level
  obtain ⟨kind, s, x, halts⟩ := conflicted
  cases halts with
  | conflict look action =>
      obtain ⟨o, r, apart, first, second⟩ := (built.conflict_iff distinct stacked).1 ⟨_, action⟩
      obtain ⟨u, same, calls⟩ := mirrors.exists_calls γ _ o first
      obtain ⟨es, action'⟩ := (built'.conflict_iff distinct' stacked').2
        ⟨o, r, apart, calls, mirrors.calls_of_calls second same⟩
      exact ⟨_, _, _, .conflict (mirrors.lookaheadTerm?_eq ahead look same) action'⟩

theorem Level.exists_conflicted (level : Level c d k k') (path : c.Path k steps last)
    (conflicted : c.Conflicted last) : ∃ steps' last', d.Path k' steps' last' ∧
      d.Conflicted last' := by
  induction path generalizing k' with
  | nil k =>
      exact ⟨[], k', .nil k', level.conflicted mirrors built built' distinct distinct' conflicted⟩
  | cons step _ ih =>
      rcases level.moves_or_conflict mirrors built built' (step_eq_next_iff.1 step) with
        ⟨_, next', moves', level'⟩ | conflicted'
      · obtain ⟨steps', last', path', stuck⟩ := ih level' conflicted
        exact ⟨_, last', .cons (step_eq_next_iff.2 moves') path', stuck⟩
      · exact ⟨[], k', .nil k', conflicted'⟩

end

theorem accepts_iff : c.Accepts tokens ↔
    ∃ steps last, c.Path (.initial tokens) steps last ∧ c.Halts last .accept := by
  apply Iff.intro
  · intro ⟨limit, t, ended, accepted⟩
    obtain ⟨steps, last, path, halts, _⟩ := exists_path_of_accepted ended accepted
    exact ⟨steps, last, path, halts⟩
  · intro ⟨steps, last, path, halts⟩
    obtain ⟨limit, ended⟩ := run_eq_ended_iff.2 ⟨steps, last, _, path, halts, rfl⟩
    exact ⟨limit, _, ended, isAccepted_concat.2 rfl⟩

theorem stopsInConflict_iff : c.StopsInConflict tokens ↔
    ∃ steps last, c.Path (.initial tokens) steps last ∧ c.Conflicted last := by
  apply Iff.intro
  · intro ⟨limit, t, kind, s, x, ended, failed⟩
    obtain ⟨steps, last, path, halts, _⟩ := exists_path_of_failed ended failed
    exact ⟨steps, last, path, kind, s, x, halts⟩
  · intro ⟨steps, last, path, kind, s, x, halts⟩
    obtain ⟨limit, ended⟩ := run_eq_ended_iff.2 ⟨steps, last, _, path, halts, rfl⟩
    exact ⟨limit, _, kind, s, x, ended, failure?_concat.2 rfl⟩

theorem StopsInConflict.not_isSLR1 (stops : c.StopsInConflict tokens) : ¬ c.isSLR1 := by
  obtain ⟨_, _, _, conflicted⟩ := stopsInConflict_iff.1 stops
  exact conflicted.not_isSLR1

theorem Accepts.not_stopsInConflict (accepts : c.Accepts tokens) : ¬ c.StopsInConflict tokens := by
  intro ⟨limit', t', kind, s, x, ended', failed⟩
  obtain ⟨limit, t, ended, accepted⟩ := accepts
  obtain rfl := ended_unique ended ended'
  obtain ⟨steps, last, _, _, rfl⟩ := exists_path_of_accepted ended accepted
  cases failure?_concat.1 failed

theorem Mirrors.accepts (mirrors : Mirrors c d) (built : c.Built start) (built' : d.Built start)
    (distinct : c.grammar.prods.toList.Nodup) (distinct' : d.grammar.prods.toList.Nodup)
    (accepts : d.Accepts tokens) (ends : c.Accepts tokens ∨ c.StopsInConflict tokens) :
    c.Accepts tokens := by
  refine ends.resolve_right fun stops => accepts.not_stopsInConflict ?_
  obtain ⟨steps, last, path, conflicted⟩ := stopsInConflict_iff.1 stops
  have level : Level c d (.initial tokens) (.initial tokens) := ⟨[], .nil, .nil, rfl⟩
  exact stopsInConflict_iff.2
    (level.exists_conflicted mirrors built built' distinct distinct' path conflicted)

theorem sentence_of_accepts (plain : g.Plain) (accepts : (ofGrammar g).Accepts tokens) :
    g.Sentence tokens := by
  obtain ⟨steps, last, path, halts⟩ := accepts_iff.1 accepts
  obtain ⟨ns, _, derivation⟩ := exists_derivation_of_accepts plain path halts
  exact Grammar.sentence_iff.2 ⟨ns, derivation⟩

theorem accepts_or_stops_of_sentence (plain : g.Plain) (sentence : g.Sentence tokens) :
    (ofGrammar g).Accepts tokens ∨ (ofGrammar g).StopsInConflict tokens := by
  obtain ⟨ns, derivation⟩ := Grammar.sentence_iff.1 sentence
  obtain ⟨steps, last, move, path, halts⟩ := exists_halt_of_derivation plain derivation
  rcases halts_of_derivation plain derivation path halts with ⟨rfl, _⟩ | ⟨kind, s, x, rfl⟩
  · exact .inl (accepts_iff.2 ⟨steps, last, path, halts⟩)
  · exact .inr (stopsInConflict_iff.2 ⟨steps, last, path, kind, s, x, halts⟩)

theorem mirrors_of_kept (built : c.Built start) (built' : d.Built start)
    (name?_eq : ∀ t < c.grammar.eof, t < d.grammar.eof →
      d.grammar.terms.name? t = c.grammar.terms.name? t)
    (kept : ∀ γ i p, Valid c.grammar γ i → c.grammar.prod? i.prod = some p → p ∈ d.grammar.prods)
    (follow : ∀ γ i p t, Valid c.grammar γ i → c.grammar.prod? i.prod = some p →
      t ∈ c.sets.follow p.head →
      ∃ u, c.grammar.SameTerm d.grammar t u ∧ u ∈ d.sets.follow p.head) : Mirrors c d where
  name?_eq := name?_eq
  exists_calls γ t o calls := by
    have carry {i : Item} {p : Production} (valid : Valid c.grammar γ i)
        (found : c.grammar.prod? i.prod = some p) :=
      valid.carry built.augmented built'.augmented kept found
    cases calls with
    | @shift i valid next =>
        obtain ⟨p, found, at_dot⟩ := Item.next?_eq_some_iff.1 next
        obtain ⟨m, found', valid'⟩ := carry valid found
        have next' : (⟨m, i.dot⟩ : Item).next? d.grammar = some (.terminal t) :=
          Item.next?_eq_some_iff.2 ⟨p, found', at_dot⟩
        have known := Item.next?_mem_symbols built.augmented.toWellFormed next
        have known' := Item.next?_mem_symbols built'.augmented.toWellFormed next'
        refine ⟨t, .terminal ?_ ?_, .shift valid' next'⟩
        · simpa [Grammar.mem_symbols, Grammar.eof] using known
        · simpa [Grammar.mem_symbols, Grammar.eof] using known'
    | reduce positive found valid mem =>
        obtain ⟨m, found', valid'⟩ := carry valid found
        obtain ⟨u, same, mem'⟩ := follow γ _ _ t valid found mem
        refine ⟨u, same, .reduce (fun zero => positive ?_) found' valid' mem'⟩
        exact (built.augmented.eq_zero_iff found).2 ((built'.augmented.eq_zero_iff found').1 zero)
    | accept valid eof =>
        obtain ⟨m, found', valid'⟩ := carry valid built.augmented.first
        obtain rfl := (built'.augmented.eq_zero_iff found').2 rfl
        exact ⟨d.grammar.eof, eof ▸ .eof, .accept valid' rfl⟩

/-- No FOLLOW set of a symbol that is reached has a terminal that it has not in the first
construction. -/
def FollowKept (c d : Construction) : Prop :=
  ∀ a t, d.grammar.Occurs a → t ∈ d.sets.follow a →
    ∃ u, d.grammar.SameTerm c.grammar t u ∧ u ∈ c.sets.follow a

section

variable (plain : g.Plain) (plain' : h.Plain) (widens : g.Widens h)

include plain plain' widens

theorem mirrors_of_widens : Mirrors (ofGrammar g) (ofGrammar h) := by
  have wider := widens.augment plain plain'
  have built' := built_ofGrammar plain'
  rw [widens.start_eq] at built'
  refine mirrors_of_kept (built_ofGrammar plain) built' (fun t known _ => wider.name?_eq known)
    (fun γ i p _ found => wider.kept p (Grammar.mem_of_prod? found)) fun γ i p t _ _ mem => ?_
  exact wider.exists_mem_follow (Grammar.wellFormed_augment plain)
    (Grammar.wellFormed_augment plain') mem

theorem mirrors_back (kept : FollowKept (ofGrammar g) (ofGrammar h)) :
    Mirrors (ofGrammar h) (ofGrammar g) := by
  have wider := widens.augment plain plain'
  have built := built_ofGrammar plain'
  rw [widens.start_eq] at built
  refine mirrors_of_kept built (built_ofGrammar plain)
    (fun t _ known => (wider.name?_eq known).symm) (fun γ i p valid found => ?_)
    fun γ i p t valid found mem => kept p.head t (valid.occurs built.augmented found) mem
  exact wider.added p (Grammar.mem_of_prod? found) (valid.occurs built.augmented found)

end

/-- What rules that are never reached can do to a machine: add conflicts, and nothing else. -/
structure Burdened (c d : Construction) : Prop where
  isSLR1 : d.isSLR1 → c.isSLR1
  accepts : ∀ tokens, d.Accepts tokens → c.Accepts tokens
  accepts_or_conflict : ∀ tokens, c.Accepts tokens → d.Accepts tokens ∨ d.StopsInConflict tokens
  unburdened : d.isSLR1 → ∀ tokens, c.Accepts tokens ↔ d.Accepts tokens
  unchanged : FollowKept c d →
    (c.isSLR1 ↔ d.isSLR1) ∧ ∀ tokens, c.Accepts tokens ↔ d.Accepts tokens

/-- Rules that are never reached bring no new sentence, but through FOLLOW they can bring conflicts
into the table. -/
theorem burdened_ofText {text more : String} {g h : Grammar} (read : Grammar.ofText text = .ok g)
    (read' : Grammar.ofText (text ++ "\n" ++ more) = .ok h) (apart : h.Apart more)
    (built : ofText text = .ok c) (built' : ofText (text ++ "\n" ++ more) = .ok d) :
    Burdened c d := by
  have widens := Grammar.widens_ofText read read' apart
  have plain := Grammar.plain_of_ofText read
  have plain' := Grammar.plain_of_ofText read'
  have distinct := Grammar.nodup_prods_augment plain (Grammar.represented_of_read read).distinct
  have distinct' := Grammar.nodup_prods_augment plain' (Grammar.represented_of_read read').distinct
  obtain rfl := eq_ofGrammar read built
  obtain rfl := eq_ofGrammar read' built'
  have built := built_ofGrammar plain
  have built' := built_ofGrammar plain'
  rw [widens.start_eq] at built'
  have mirrors := mirrors_of_widens plain plain' widens
  have sentences {tokens : List String} := widens.sentence_iff plain.toWellFormed (w := tokens)
  have isSLR1 := mirrors.isSLR1 built built' distinct distinct'
  have ends {tokens : List String} (accepts : (ofGrammar g).Accepts tokens) :=
    accepts_or_stops_of_sentence plain' (sentences.2 (sentence_of_accepts plain accepts))
  have narrows (tokens : List String) (accepts : (ofGrammar h).Accepts tokens) :
      (ofGrammar g).Accepts tokens := by
    have sentence := sentences.1 (sentence_of_accepts plain' accepts)
    exact mirrors.accepts built built' distinct distinct' accepts
      (accepts_or_stops_of_sentence plain sentence)
  refine ⟨isSLR1, narrows, fun tokens => ends, fun single tokens => ?_, fun kept => ?_⟩
  · refine ⟨fun accepts => ?_, narrows tokens⟩
    exact (ends accepts).resolve_right fun stops => stops.not_isSLR1 single
  -- Where no FOLLOW set has grown, each machine does what the other one is called on to do.
  · have back := mirrors_back plain plain' widens kept
    refine ⟨⟨back.isSLR1 built' built distinct' distinct, isSLR1⟩, fun tokens => ?_⟩
    refine ⟨fun accepts => ?_, narrows tokens⟩
    exact back.accepts built' built distinct' distinct accepts (ends accepts)

/-- The next token tells which rule for `c` to take. -/
def forked : Grammar where
  nonterms := .ofList ["S", "A", "B"]
  terms := .ofList ["a", "b", "c"]
  start := 0
  prods := #[⟨0, [.nonterminal 1, .terminal 0]⟩, ⟨0, [.nonterminal 2, .terminal 1]⟩,
    ⟨1, [.terminal 2]⟩, ⟨2, [.terminal 2]⟩]
  augmented := false

theorem read_forked : Grammar.ofText "S -> A a | B b\nA -> c\nB -> c" = .ok forked := by
  decide +kernel

def forkedWith (rhs : List Symbol) : Grammar where
  nonterms := .ofList ["S", "A", "B", "U"]
  terms := forked.terms
  start := 0
  prods := forked.prods.push ⟨3, rhs⟩
  augmented := false

def harmless : Grammar := forkedWith [.terminal 2]

/-- The new body has `b` behind `A`. -/
def crossing : Grammar := forkedWith [.nonterminal 1, .terminal 1]

theorem read_harmless : Grammar.ofText ("S -> A a | B b\nA -> c\nB -> c" ++ "\n" ++ "U -> c") =
    .ok harmless := by
  decide +kernel

theorem read_crossing : Grammar.ofText ("S -> A a | B b\nA -> c\nB -> c" ++ "\n" ++ "U -> A b") =
    .ok crossing := by
  decide +kernel

theorem apart_harmless : harmless.Apart "U -> c" :=
  Grammar.apart_of_closed [3] (by decide) (by decide) (by decide +kernel)

theorem apart_crossing : crossing.Apart "U -> A b" :=
  Grammar.apart_of_closed [3] (by decide) (by decide) (by decide +kernel)

theorem followKept_harmless : FollowKept (ofGrammar forked) (ofGrammar harmless) := by
  have wf := Grammar.wellFormed_augment (Grammar.plain_of_ofText read_harmless)
  have fits := TerminalSets.fits_ofGrammar wf
  have same : ∀ a < 5, (ofGrammar harmless).sets.follow a = (ofGrammar forked).sets.follow a := by
    decide +kernel
  intro a t _ mem
  have bound := TerminalSets.follow_mem_allFacts.1
    (fits.mem_allFacts (.follow a t) (TerminalSets.holds_follow.2 mem))
  refine ⟨t, ?_, same a bound.1 ▸ mem⟩
  cases bound.2.lt_or_eq with
  | inl known => exact .terminal known known
  | inr eof =>
      rw [eof]
      exact .eof

theorem burdened_forked :
    Burdened (ofGrammar forked) (ofGrammar crossing) ∧
      ((ofGrammar forked).isSLR1 ↔ (ofGrammar harmless).isSLR1) ∧
      ∀ tokens, (ofGrammar forked).Accepts tokens ↔ (ofGrammar harmless).Accepts tokens := by
  have crossing := burdened_ofText read_forked read_crossing apart_crossing
    (ofText_of_read read_forked) (ofText_of_read read_crossing)
  have harmless := burdened_ofText read_forked read_harmless apart_harmless
    (ofText_of_read read_forked) (ofText_of_read read_harmless)
  exact ⟨crossing, harmless.unchanged followKept_harmless⟩

theorem isSLR1_forked : (ofGrammar forked).isSLR1 := by decide +kernel

theorem accepts_forked : (ofGrammar forked).Accepts ["c", "b"] := by
  have sentence : forked.Sentence ["c", "b"] := Grammar.sentence_iff.2 ⟨[1, 3], by decide +kernel⟩
  have ends := accepts_or_stops_of_sentence (Grammar.plain_of_ofText read_forked) sentence
  exact ends.resolve_right fun stops => stops.not_isSLR1 isSLR1_forked

theorem stopsInConflict_crossing : (ofGrammar crossing).StopsInConflict ["c", "b"] := by
  have ended : (ofGrammar crossing).run 2 ["c", "b"] =
      .ended ⟨[⟨[0], [], ["c", "b", "$"], .shift 4⟩,
        ⟨[0, 4], ["c"], ["b", "$"], .fail (.conflict .reduceReduce 4 "b")⟩], ⟨2, 1, 0⟩⟩ := by
    decide +kernel
  exact ⟨2, _, .reduceReduce, 4, "b", ended, rfl⟩

/-- A body that is never reached puts `b` behind `A`, and the next token no longer tells which rule
to take. -/
theorem rejects_crossing :
    ofText "S -> A a | B b\nA -> c\nB -> c" = .ok (ofGrammar forked) ∧
      Grammar.ofText ("S -> A a | B b\nA -> c\nB -> c" ++ "\n" ++ "U -> A b") = .ok crossing ∧
      ofText ("S -> A a | B b\nA -> c\nB -> c" ++ "\n" ++ "U -> A b") = .ok (ofGrammar crossing) ∧
      crossing.Apart "U -> A b" ∧
      ((ofGrammar forked).isSLR1 ∧ ¬ (ofGrammar crossing).isSLR1) ∧
      (∀ token ∈ ["c", "b"], token ∈ forked.terms.names) ∧
      (ofGrammar forked).Accepts ["c", "b"] ∧
      ¬ (ofGrammar crossing).Accepts ["c", "b"] :=
  ⟨ofText_of_read read_forked, read_crossing, ofText_of_read read_crossing, apart_crossing,
    ⟨isSLR1_forked, stopsInConflict_crossing.not_isSLR1⟩, by decide, accepts_forked,
    fun accepts => accepts.not_stopsInConflict stopsInConflict_crossing⟩

end Construction

end ShiftReduce
