import ShiftReduce.Proofs.Grammar.Renumbering
import ShiftReduce.Proofs.TerminalSets.Exactness

/-!
FIRST, nullability and FOLLOW under other numbers. The passes go over the productions in another
order then, but the facts are those of derivations, which go over (`mem_first_iff`, `nullable_eq`,
`mem_follow_iff`).
-/

namespace ShiftReduce.Renumbering.Relates

open TerminalSets (ofGrammar Fact mem_first_iff_derives mem_follow_iff_derivable
  nullable_iff_derives)

variable {r : Renumbering} {g h : Grammar} {a t : Nat} (rel : r.Relates g h) (wf : g.WellFormed)
  (wf' : h.WellFormed)

include rel

theorem derivable_follow (derivable : (Fact.follow a t).Derivable g) :
    (Fact.follow (r.nonterm a) (r.term t)).Derivable h := by
  rcases derivable with ⟨b, known, left, right, inside⟩ | ⟨rfl, left, atEnd⟩
  · refine .inl ⟨r.nonterm b, rel.nonterm_lt_iff.2 known, left.map r.symbol, right.map r.symbol, ?_⟩
    simpa [symbol] using rel.derives inside
  · refine .inr ⟨rel.eof, left.map r.symbol, ?_⟩
    simpa [symbol, rel.start] using rel.derives atEnd

include wf wf'

theorem nullable_eq (a : Nat) :
    (ofGrammar h).nullable (r.nonterm a) = (ofGrammar g).nullable a := by
  rw [Bool.eq_iff_iff, nullable_iff_derives wf, nullable_iff_derives wf']
  exact rel.derives_iff (α := [.nonterminal a]) (β := [])

theorem mem_first_of_mem (mem : t ∈ (ofGrammar g).first a) :
    r.term t ∈ (ofGrammar h).first (r.nonterm a) := by
  obtain ⟨rest, derives⟩ := (mem_first_iff_derives wf).1 mem
  exact (mem_first_iff_derives wf').2 ⟨rest.map r.symbol, rel.derives derives⟩

theorem mem_first_iff :
    r.term t ∈ (ofGrammar h).first (r.nonterm a) ↔ t ∈ (ofGrammar g).first a := by
  refine ⟨fun mem => ?_, rel.mem_first_of_mem wf wf'⟩
  simpa using rel.symm.mem_first_of_mem wf' wf mem

theorem mem_follow_of_mem (mem : t ∈ (ofGrammar g).follow a) :
    r.term t ∈ (ofGrammar h).follow (r.nonterm a) :=
  (mem_follow_iff_derivable wf').2 (rel.derivable_follow ((mem_follow_iff_derivable wf).1 mem))

theorem mem_follow_iff :
    r.term t ∈ (ofGrammar h).follow (r.nonterm a) ↔ t ∈ (ofGrammar g).follow a := by
  refine ⟨fun mem => ?_, rel.mem_follow_of_mem wf wf'⟩
  simpa using rel.symm.mem_follow_of_mem wf' wf mem

end ShiftReduce.Renumbering.Relates
