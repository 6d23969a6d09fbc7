import ShiftReduce.Proofs.Grammar.BottomUp
import ShiftReduce.Proofs.Grammar.Checking
import ShiftReduce.Proofs.Machine.Soundness
import ShiftReduce.Proofs.TerminalSets.Forms

/-!
No derivation is missed. Along a plan every next entry is offered by the state on top: the shifts
because what is recognized stays a viable prefix, the reductions because FOLLOW covers every form.
So the machine follows each plan that agrees with the tokens it can see, to the end or up to a
conflict (`Guided.step`, `Guided.path`), and gets there (`Guided.exists_halt`).
-/

namespace ShiftReduce.Construction

open Config (topState)

variable {c : Construction} {start : Nat} {st : List Frame} {γ : List Symbol}
  {ts us ns : List Nat} {k last : Config} {move : Move} {tokens : List String}
  {steps : List Step}

namespace Built

variable (built : c.Built start)

include built

theorem exists_next_of_plan (plan : c.grammar.Plan [.nonterminal start] γ ts ns)
    {left right : List Symbol} {x : Symbol} (split : γ = left ++ x :: right) :
    ∃ i, Valid c.grammar left i ∧ i.next? c.grammar = some x := by
  induction plan generalizing left right x with
  | done =>
      cases left with
      | nil =>
          cases split
          refine ⟨_, .start, Item.next?_eq_some_iff.2 ⟨_, built.augmented.first, rfl⟩⟩
      | cons y left => simp at split
  | shift _ ih => exact ih (by rw [split, List.append_assoc, List.cons_append])
  | @reduce γ n p ts ns found _ ih =>
      obtain ⟨i, valid, await⟩ := ih rfl
      cases Grammar.append_eq_append_cons split with
      | inl inside =>
          obtain ⟨mid, rhs, rfl⟩ := inside
          have before := (valid.predict await found).advance_all found rhs
          exact ⟨_, before, Item.next?_eq_some_iff.2 ⟨p, found, by simp [rhs]⟩⟩
      | inr below =>
          obtain ⟨mid, rfl, _⟩ := below
          exact valid.exists_next rfl

theorem derives_start_of_plan (plan : c.grammar.Plan [.nonterminal start] γ ts ns) :
    c.grammar.Derives [.nonterminal c.grammar.start] (γ ++ ts.map .terminal) := by
  have first : c.grammar.Step [.nonterminal c.grammar.start] [.nonterminal start] := by
    rw [built.augmented.start_eq]
    exact ⟨0, _, [], [], built.augmented.first, rfl, rfl⟩
  exact Relation.ReflTransGen.head first plan.rightDerives.derives

theorem offers_accept (stacked : c.Stacked st [.nonterminal start]) :
    c.Offers (topState st) c.grammar.eof .accept := by
  have valid : Valid c.grammar [.nonterminal start] ⟨0, 1⟩ :=
    (Valid.accepting_iff built.augmented).2 rfl
  obtain ⟨items, state, hi⟩ := built.state_of_valid stacked valid
  exact .accept state hi rfl

theorem offers_shift {t : Nat} (stacked : c.Stacked st γ)
    (plan : c.grammar.Plan [.nonterminal start] (γ ++ [.terminal t]) ts ns) :
    ∃ j, c.Offers (topState st) t (.shift j) := by
  obtain ⟨i, valid, next⟩ := built.exists_next_of_plan plan rfl
  obtain ⟨j, target⟩ := built.transition_of_valid stacked valid next
  exact ⟨j, .shift target⟩

theorem offers_reduce {n : Nat} {p : Production} (stacked : c.Stacked st (γ ++ p.rhs))
    (found : c.grammar.prod? n = some p)
    (plan : c.grammar.Plan [.nonterminal start] (γ ++ [.nonterminal p.head]) ts ns) :
    c.Offers (topState st) (ts.headD c.grammar.eof) (.reduce n) := by
  obtain ⟨i, valid, await⟩ := built.exists_next_of_plan plan rfl
  have complete : Valid c.grammar (γ ++ p.rhs) ⟨n, p.rhs.length⟩ :=
    (valid.predict await found).advance_all found (List.append_nil _).symm
  obtain ⟨items, state, hi⟩ := built.state_of_valid stacked complete
  refine .reduce ?_ found state hi ?_
  · intro zero
    rw [zero, built.augmented.first] at found
    cases found
    exact built.augmented.next?_ne_start await
  · have followed := TerminalSets.followed_of_derives built.sets_settled
      (built.derives_start_of_plan plan)
    have split : γ ++ [.nonterminal p.head] ++ ts.map .terminal =
        γ ++ .nonterminal p.head :: ts.map .terminal := by simp
    exact followed.headD_mem split

end Built

/-- The machine stands at the beginning of a plan, and `us` are terminals that come next in the plan
and in the tokens alike, the end marker behind both. -/
def Guided (c : Construction) (start : Nat) (k : Config) (us ns : List Nat) : Prop :=
  ∃ γ ts, c.Stacked k.stack γ ∧ c.grammar.Plan [.nonterminal start] γ ts ns ∧
    us <+: ts ++ [c.grammar.eof] ∧
    us.map some <+: k.rest.map c.grammar.terms.index? ++ [some c.grammar.eof]

theorem lookahead_of_prefix {t : Nat}
    (h : (t :: us).map some <+: k.rest.map c.grammar.terms.index? ++ [some c.grammar.eof]) :
    c.lookaheadTerm? k = some t := by
  cases rest : k.rest with
  | nil =>
      rw [rest] at h
      obtain ⟨same, _⟩ := List.cons_prefix_cons.1 h
      rw [lookaheadTerm?_nil rest, ← same]
  | cons token tokens =>
      rw [rest] at h
      obtain ⟨same, _⟩ := List.cons_prefix_cons.1 h
      rw [lookaheadTerm?_cons rest, ← same]

inductive Follows (c : Construction) (start : Nat) (k : Config) (us : List Nat) : List Nat → Prop
  | conflict {ns : List Nat} {kind : ConflictKind} {s : Nat} {x : String}
      (halts : c.Halts k (.fail (.conflict kind s x))) : Follows c start k us ns
  | accept (halts : c.Halts k .accept) : Follows c start k us []
  | next {us' ns : List Nat} {k' : Config} {move : Move} (moves : c.Moves k move k')
      (guided : c.Guided start k' us' ns)
      (same_end : k'.position + us'.length = k.position + us.length) :
      Follows c start k us (move.reduction?.toList ++ ns)

def Conflicted (c : Construction) (k : Config) : Prop :=
  ∃ kind s x, c.Halts k (.fail (.conflict kind s x))

theorem Conflicted.follows (conflicted : c.Conflicted k) : c.Follows start k us ns := by
  obtain ⟨_, _, _, halts⟩ := conflicted
  exact .conflict halts

theorem action_or_conflict (built : c.Built start) {t : Nat} {e : Action}
    (look : c.lookaheadTerm? k = some t) (offers : c.Offers (topState k.stack) t e) :
    c.table.action (topState k.stack) t = some e ∨ c.Conflicted k := by
  refine (built.action_of_offers offers).imp_right fun conflict => ?_
  obtain ⟨es, action⟩ := conflict
  exact ⟨_, _, _, .conflict look action⟩

theorem shift_or_conflict (built : c.Built start) {t : Nat} (stacked : c.Stacked k.stack γ)
    (plan : c.grammar.Plan [.nonterminal start] (γ ++ [.terminal t]) ts ns)
    (look : c.lookaheadTerm? k = some t) :
    (∃ j token rest, k.rest = token :: rest ∧ c.Moves k (.shift j) (k.shifted j rest) ∧
      c.Stacked (k.shifted j rest).stack (γ ++ [.terminal t])) ∨ c.Conflicted k := by
  obtain ⟨j, offers⟩ := built.offers_shift stacked plan
  refine (action_or_conflict built look offers).imp_left fun action => ?_
  have target := built.transition_of_shift action
  obtain ⟨token, rest, ahead⟩ := exists_token_of_lt look (built.lt_eof_of_transition target)
  exact ⟨j, token, rest, ahead, .shift look action ahead, stacked.shift look ahead target⟩

theorem reduce_or_conflict (built : c.Built start) {n : Nat} {p : Production}
    (stacked : c.Stacked k.stack (γ ++ p.rhs)) (found : c.grammar.prod? n = some p)
    (plan : c.grammar.Plan [.nonterminal start] (γ ++ [.nonterminal p.head]) ts ns)
    (look : c.lookaheadTerm? k = some (ts.headD c.grammar.eof)) :
    (∃ k', c.Moves k (.reduce n (c.grammar.productionText p)) k' ∧
      c.Stacked k'.stack (γ ++ [.nonterminal p.head]) ∧ k'.position = k.position ∧
      k'.rest = k.rest) ∨ c.Conflicted k := by
  have offers := built.offers_reduce stacked found plan
  refine (action_or_conflict built look offers).imp_left fun action => ?_
  obtain ⟨δ, s, split, below, target⟩ := built.pop_of_reduce stacked offers found
  obtain rfl : γ = δ := List.append_cancel_right split
  have goto := (built.goto_eq_transition _ _).trans target
  exact ⟨_, .reduce look action found goto, below.reduce target, rfl, rfl⟩

theorem Guided.step (built : c.Built start) {t : Nat} (guided : c.Guided start k (t :: us) ns) :
    c.Follows start k (t :: us) ns := by
  obtain ⟨γ, ts, stacked, plan, in_plan, in_tokens⟩ := guided
  have look := lookahead_of_prefix in_tokens
  cases plan with
  | done =>
      obtain ⟨rfl, _⟩ := List.cons_prefix_cons.1 in_plan
      cases action_or_conflict built look (built.offers_accept stacked) with
      | inl action => exact .accept (.accept look action)
      | inr conflicted => exact conflicted.follows
  | @shift _ u ts _ rest =>
      obtain ⟨rfl, later⟩ := List.cons_prefix_cons.1 in_plan
      cases shift_or_conflict built stacked rest look with
      | inl shifts =>
          obtain ⟨j, token, tokens, ahead, moves, stacked'⟩ := shifts
          rw [ahead] at in_tokens
          obtain ⟨_, behind⟩ := List.cons_prefix_cons.1 in_tokens
          have guided : c.Guided start (k.shifted j tokens) us ns :=
            ⟨_, ts, stacked', rest, later, behind⟩
          refine .next moves guided ?_
          simp only [Config.shifted, List.length_cons]
          omega
      | inr conflicted => exact conflicted.follows
  | @reduce γ n p _ ns found rest =>
      have ahead : t = ts.headD c.grammar.eof := by
        cases ts with
        | nil => exact (List.cons_prefix_cons.1 in_plan).1
        | cons u ts => exact (List.cons_prefix_cons.1 in_plan).1
      cases reduce_or_conflict built stacked found rest (ahead ▸ look) with
      | inl reduces =>
          obtain ⟨k', moves, stacked', position, ahead⟩ := reduces
          rw [← ahead] at in_tokens
          exact .next moves ⟨_, ts, stacked', rest, in_plan, in_tokens⟩ (by rw [position])
      | inr conflicted => exact conflicted.follows

namespace Guided

theorem path (built : c.Built start) (path : c.Path k steps last) (guided : c.Guided start k us ns)
    (within : last.position < k.position + us.length) :
    ∃ vs ms, c.Guided start last vs ms ∧
      ns = reductionsOf steps ++ ms ∧
      last.position + vs.length = k.position + us.length := by
  induction path generalizing us ns with
  | nil k => exact ⟨us, ns, guided, rfl, rfl⟩
  | @cons k next last move steps step rest ih =>
      have start_le := (Path.cons step rest).position_eq
      have moves := step_eq_next_iff.1 step
      cases us with
      | nil =>
          rw [List.length_nil] at within
          omega
      | cons t us =>
          cases guided.step built with
          | conflict halts => exact absurd halts moves.not_halts
          | accept halts => exact absurd halts moves.not_halts
          | @next us' ns k' _ moves' guided same_end =>
              obtain ⟨rfl, rfl⟩ := moves.unique moves'
              obtain ⟨vs, ms, later, rfl, same_end'⟩ := ih guided (by omega)
              refine ⟨vs, ms, later, ?_, same_end'.trans same_end⟩
              rw [reductionsOf_cons, List.append_assoc]

theorem halts (built : c.Built start) (path : c.Path k steps last) (halts : c.Halts last move)
    (guided : c.Guided start k us ns) (within : last.position < k.position + us.length) :
    (move = .accept ∧ ns = reductionsOf steps) ∨
      ∃ kind s x, move = .fail (.conflict kind s x) := by
  obtain ⟨vs, ms, guided, rfl, same_end⟩ := guided.path built path within
  cases vs with
  | nil => exact absurd same_end (Nat.ne_of_lt within)
  | cons t vs =>
      cases guided.step built with
      | conflict halts' => exact .inr ⟨_, _, _, halts.unique halts'⟩
      | accept halts' => exact .inl ⟨halts.unique halts', by simp⟩
      | next moves _ _ => exact absurd halts moves.not_halts

theorem exists_halt (built : c.Built start) (on : k.On tokens) (guided : c.Guided start k us ns)
    (whole : k.position + us.length = tokens.length + 1) :
    ∃ steps last move, c.Path k steps last ∧ c.Halts last move := by
  generalize size : us.length + ns.length = n
  induction n using Nat.strongRecOn generalizing k us ns with
  | ind n ih =>
      have le := on.le
      cases us with
      | nil => exact absurd whole (by simp only [List.length_nil]; omega)
      | cons t us =>
          cases guided.step built with
          | conflict halts => exact ⟨[], k, _, .nil k, halts⟩
          | accept halts => exact ⟨[], k, _, .nil k, halts⟩
          | @next us' ns k' move moves later same_end =>
              have progress := moves.progress
              have less : us'.length + ns.length < n := by
                rw [← size, List.length_append]
                omega
              obtain ⟨steps, last, halt, path, halts⟩ :=
                ih _ less (moves.on on) later (same_end.trans whole) rfl
              exact ⟨_, last, halt, .cons (step_eq_next_iff.2 moves) path, halts⟩

end Guided

theorem guided_of_plan (plan : c.grammar.Plan [.nonterminal start] [] ts ns)
    (spelled : c.grammar.Spells ts tokens) :
    c.Guided start (.initial tokens) (ts ++ [c.grammar.eof]) ns ∧
      (Config.initial tokens).position + (ts ++ [c.grammar.eof]).length = tokens.length + 1 := by
  have length := congrArg List.length spelled
  refine ⟨⟨[], ts, .nil, plan, List.prefix_rfl, ?_⟩, by simpa [Config.initial] using length.symm⟩
  rw [Config.initial, spelled, List.map_append]
  exact List.prefix_rfl

theorem exists_halt_of_plan (built : c.Built start)
    (plan : c.grammar.Plan [.nonterminal start] [] ts ns) (spelled : c.grammar.Spells ts tokens) :
    ∃ steps last move, c.Path (.initial tokens) steps last ∧ c.Halts last move := by
  obtain ⟨guided, whole⟩ := guided_of_plan plan spelled
  exact guided.exists_halt built (on_initial tokens) whole

theorem exists_plan {g : Grammar} (plain : g.Plain) {w : List String}
    (derivation : g.RightmostDerivation ns w) :
    ∃ ts, (ofGrammar g).grammar.Spells ts w ∧
      (ofGrammar g).grammar.Plan [.nonterminal (g.start + 1)] [] ts
        (ns.map (· + 1)).reverse := by
  obtain ⟨ts, spelled, derives⟩ := derivation
  refine ⟨ts, ?_, ?_⟩
  · rw [Grammar.Spells, ofGrammar, Grammar.terms_augment plain]
    exact spelled
  · rw [Grammar.plan_iff_rightDerives, List.reverse_reverse]
    exact (Grammar.rightDerives_start_augment_iff plain).2 ⟨ns, rfl, derives⟩

theorem guided_seen {g : Grammar} (plain : g.Plain) {seen unseen : List String}
    (derivation : g.RightmostDerivation ns (seen ++ unseen)) (first : seen <+: tokens) :
    ∃ us, us.length = seen.length ∧
      (ofGrammar g).Guided (g.start + 1) (.initial tokens) us (ns.map (· + 1)).reverse := by
  obtain ⟨ts, spelled, plan⟩ := exists_plan plain derivation
  rw [Grammar.Spells, List.map_append] at spelled
  obtain ⟨us, vs, rfl, seen_eq, _⟩ := List.map_eq_append_iff.1 spelled.symm
  have length := congrArg List.length seen_eq
  refine ⟨us, by simpa using length, [], us ++ vs, .nil, plan, ?_, ?_⟩
  · rw [List.append_assoc]
    exact List.prefix_append _ _
  · rw [seen_eq]
    exact (first.map _).trans (List.prefix_append _ _)

theorem exists_halt_of_derivation {g : Grammar} (plain : g.Plain)
    (derivation : g.RightmostDerivation ns tokens) :
    ∃ steps last move, (ofGrammar g).Path (.initial tokens) steps last ∧
      (ofGrammar g).Halts last move := by
  obtain ⟨ts, spelled, plan⟩ := exists_plan plain derivation
  exact exists_halt_of_plan (built_ofGrammar plain) plan spelled

theorem halts_of_derivation {g : Grammar} (plain : g.Plain)
    (derivation : g.RightmostDerivation ns tokens)
    (path : (ofGrammar g).Path (.initial tokens) steps last)
    (halts : (ofGrammar g).Halts last move) :
    (move = .accept ∧ (ns.map (· + 1)).reverse = reductionsOf steps) ∨
      ∃ kind s x, move = .fail (.conflict kind s x) := by
  obtain ⟨ts, spelled, plan⟩ := exists_plan plain derivation
  obtain ⟨guided, whole⟩ := guided_of_plan plan spelled
  have le := (path.on (on_initial tokens)).le
  refine guided.halts (built_ofGrammar plain) path halts ?_
  rw [whole]
  omega

theorem halts_of_seen {g : Grammar} (plain : g.Plain) {seen unseen : List String}
    (derivation : g.RightmostDerivation ns (seen ++ unseen)) (first : seen <+: tokens)
    (path : (ofGrammar g).Path (.initial tokens) steps last)
    (halts : (ofGrammar g).Halts last move) (behind : last.position < seen.length) :
    (move = .accept ∧ (ns.map (· + 1)).reverse = reductionsOf steps) ∨
      ∃ kind s x, move = .fail (.conflict kind s x) := by
  obtain ⟨us, length, guided⟩ := guided_seen plain derivation first
  refine guided.halts (built_ofGrammar plain) path halts ?_
  rw [length, Config.initial]
  omega

theorem Halts.not_isSLR1 {kind : ConflictKind} {s : Nat} {x : String}
    (halts : c.Halts k (.fail (.conflict kind s x))) : ¬ c.isSLR1 := by
  intro deterministic
  cases halts with
  | conflict look action => exact Table.lookup_ne_conflict deterministic _ action

theorem Conflicted.not_isSLR1 (conflicted : c.Conflicted k) : ¬ c.isSLR1 := by
  obtain ⟨kind, s, x, halts⟩ := conflicted
  exact halts.not_isSLR1

theorem accepts_or_conflicts_of_sentence {text : String} {g : Grammar}
    (read : Grammar.ofText text = .ok g) (built : ofText text = .ok c)
    (sentence : g.Sentence tokens) :
    ∃ limit t, (∀ more, limit ≤ more → c.run more tokens = .ended t) ∧
      (t.isAccepted ∨ ∃ kind s x, t.failure? = some (.conflict kind s x)) ∧
      (c.isSLR1 → t.isAccepted) := by
  have plain := Grammar.plain_of_ofText read
  obtain rfl := eq_ofGrammar read built
  obtain ⟨ns, derivation⟩ := Grammar.sentence_iff.1 sentence
  obtain ⟨steps, last, move, path, halts⟩ := exists_halt_of_derivation plain derivation
  obtain ⟨limit, ended⟩ := run_eq_ended_iff.2 ⟨steps, last, move, path, halts, rfl⟩
  refine ⟨limit, _, fun more le => run_of_le ended le, ?_⟩
  rw [isAccepted_concat]
  cases halts_of_derivation plain derivation path halts with
  | inl accepts => exact ⟨.inl accepts.1, fun _ => accepts.1⟩
  | inr conflict =>
      obtain ⟨kind, s, x, rfl⟩ := conflict
      refine ⟨.inr ⟨kind, s, x, failure?_concat.2 rfl⟩, fun deterministic => ?_⟩
      exact absurd deterministic halts.not_isSLR1

def nested : Grammar where
  nonterms := .ofList ["S"]
  terms := .ofList ["(", ")"]
  start := 0
  prods := #[⟨0, [.terminal 0, .nonterminal 0, .terminal 1, .nonterminal 0]⟩, ⟨0, [.empty]⟩]
  augmented := false

theorem read_nested : Grammar.ofText "S -> ( S ) S | ^" = .ok nested := by decide +kernel

theorem ofText_nested : ofText "S -> ( S ) S | ^" = .ok (ofGrammar nested) :=
  ofText_of_read read_nested

theorem isSLR1_nested : (ofGrammar nested).isSLR1 := by decide +kernel

theorem sentence_nested : nested.Sentence ["(", ")"] :=
  Grammar.sentence_iff.2 ⟨[0, 1, 1], by decide +kernel⟩

theorem accepts_nested : ∃ limit t,
    (∀ more, limit ≤ more → (ofGrammar nested).run more ["(", ")"] = .ended t) ∧ t.isAccepted := by
  obtain ⟨limit, t, ended, _, accepted⟩ :=
    accepts_or_conflicts_of_sentence read_nested ofText_nested sentence_nested
  exact ⟨limit, t, ended, accepted isSLR1_nested⟩

end ShiftReduce.Construction
