import ShiftReduce.Proofs.Grammar.Derivation
import ShiftReduce.Proofs.TerminalSets.Passes

/-!
FOLLOW is large enough for every form. What can come next behind a nonterminal of a form is in
FOLLOW of that nonterminal, and a derivation keeps this up (`FollowedBy.derives`); behind the forms
of the start symbol comes the end marker (`followed_of_derives`). No derivation of a terminal enters
the proof: a step replaces a head by a right-hand side, whose FIRST and nullability are among those
of the head.
-/

namespace ShiftReduce.TerminalSets

variable {g : Grammar} {s : TerminalSets} {after later : TermSet} {xs ys : List Symbol} {t : Nat}

theorem mem_trailing_nil : t ∈ s.trailing after [] ↔ t ∈ after := by
  simp [mem_trailing, firstOfSeq, OrderedSet.not_mem_empty]

theorem mem_trailing_cons {x : Symbol} :
    t ∈ s.trailing after (x :: xs) ↔
      t ∈ (s.firstOf x).1 ∨ (s.firstOf x).2 ∧ t ∈ s.trailing after xs := by
  rw [mem_trailing, mem_trailing, mem_firstOfSeq_cons, nullable_firstOfSeq_cons]
  grind

theorem mem_trailing_append :
    t ∈ s.trailing after (xs ++ ys) ↔ t ∈ s.trailing (s.trailing after ys) xs := by
  induction xs with
  | nil => rw [List.nil_append, mem_trailing_nil]
  | cons x xs ih => rw [List.cons_append, mem_trailing_cons, ih, mem_trailing_cons]

theorem mem_trailing_of_subset (sub : ∀ t ∈ after, t ∈ later) (h : t ∈ s.trailing after xs) :
    t ∈ s.trailing later xs := by
  rw [mem_trailing] at h ⊢
  exact h.imp_right fun ⟨empty, mem⟩ => ⟨empty, sub t mem⟩

theorem mem_trailing_rhs (p : Production) :
    t ∈ s.trailing after p.rhs ↔ t ∈ s.trailing after p.body := by
  unfold Production.rhs
  split
  · rename_i isEmpty
    have body : p.body = [.empty] := by simpa [Production.isEmpty] using isEmpty
    simp [body, mem_trailing_cons, mem_trailing_nil, firstOf, OrderedSet.not_mem_empty]
  · rfl

theorem Settled.mem_trailing_head (settled : s.Settled g) {p : Production} (hp : p ∈ g.prods)
    (h : t ∈ s.trailing after (p.rhs ++ ys)) :
    t ∈ s.trailing after (.nonterminal p.head :: ys) := by
  rw [mem_trailing_append, mem_trailing_rhs, mem_trailing] at h
  rw [mem_trailing_cons]
  cases h with
  | inl first => exact .inl (settled.first p hp t first)
  | inr behind => exact .inr ⟨settled.nullable p hp behind.1, behind.2⟩

theorem Settled.mem_trailing_of_step (settled : s.Settled g) {α β : List Symbol}
    (step : g.Step α β) (h : t ∈ s.trailing after β) : t ∈ s.trailing after α := by
  obtain ⟨n, p, left, right, found, rfl, rfl⟩ := step
  rw [List.append_assoc, mem_trailing_append] at h
  rw [mem_trailing_append]
  exact mem_trailing_of_subset
    (fun _ => settled.mem_trailing_head (Grammar.mem_of_prod? found)) h

/-- FOLLOW of every nonterminal of the form holds what can come behind it there, where `after` can
come behind the form. -/
def FollowedBy (s : TerminalSets) (after : TermSet) (α : List Symbol) : Prop :=
  ∀ left a right, α = left ++ .nonterminal a :: right →
    ∀ t ∈ s.trailing after right, t ∈ s.follow a

theorem body_eq_of_rhs_eq {p : Production} {front behind : List Symbol} {x : Symbol}
    (h : p.rhs = front ++ x :: behind) : p.body = front ++ x :: behind := by
  unfold Production.rhs at h
  split at h
  · simp at h
  · exact h

theorem FollowedBy.step (settled : s.Settled g) {α β : List Symbol}
    (followed : s.FollowedBy after α) (step : g.Step α β) : s.FollowedBy after β := by
  obtain ⟨n, p, left, right, found, rfl, rfl⟩ := step
  intro front a behind split t mem
  rw [List.append_assoc] at split
  obtain ⟨mid, here, rfl⟩ | ⟨mid, rfl, rfl⟩ := Grammar.append_eq_append_cons split
  · obtain ⟨mid', rfl, rfl⟩ | ⟨mid', inside, rfl⟩ := Grammar.append_eq_append_cons here
    · exact followed (left ++ .nonterminal p.head :: mid') a behind (by simp) t mem
    · rw [mem_trailing_append] at mem
      have behind_head := followed left p.head right rfl
      exact settled.follow p (Grammar.mem_of_prod? found) mid a mid' (body_eq_of_rhs_eq inside) t
        (mem_trailing_of_subset behind_head mem)
  · refine followed front a (mid ++ .nonterminal p.head :: right) (by simp) t ?_
    exact settled.mem_trailing_of_step ⟨n, p, mid, right, found, rfl, by simp⟩ mem

theorem FollowedBy.derives (settled : s.Settled g) {α β : List Symbol}
    (followed : s.FollowedBy after α) (h : g.Derives α β) : s.FollowedBy after β := by
  induction h with
  | refl => exact followed
  | tail _ step ih => exact ih.step settled step

theorem followedBy_nonterminal {a : Nat} (sub : ∀ t ∈ after, t ∈ s.follow a) :
    s.FollowedBy after [.nonterminal a] := by
  intro left b right split t mem
  cases left with
  | nil =>
      obtain ⟨same, rfl⟩ := List.cons.inj split
      cases same
      exact sub t (mem_trailing_nil.1 mem)
  | cons x left => simp at split

def Followed (s : TerminalSets) (g : Grammar) (α : List Symbol) : Prop :=
  ∀ left a right, α = left ++ .nonterminal a :: right →
    ∀ t ∈ s.trailing (.singleton g.eof) right, t ∈ s.follow a

theorem followed_iff {α : List Symbol} :
    s.Followed g α ↔ s.FollowedBy (.singleton g.eof) α := Iff.rfl

theorem followed_of_derives (settled : s.Settled g) {α : List Symbol}
    (h : g.Derives [.nonterminal g.start] α) : s.Followed g α := by
  refine followed_iff.2 (.derives settled (followedBy_nonterminal fun t mem => ?_) h)
  rw [OrderedSet.mem_singleton.1 mem]
  exact settled.eof_mem

theorem Followed.headD_mem (followed : s.Followed g xs) {left : List Symbol} {a : Nat}
    {ts : List Nat} (split : xs = left ++ .nonterminal a :: ts.map .terminal) :
    ts.headD g.eof ∈ s.follow a := by
  refine followed left a _ split _ ?_
  cases ts with
  | nil => exact mem_trailing_nil.2 (OrderedSet.mem_singleton.2 rfl)
  | cons u ts => exact mem_trailing_cons.2 (.inl (OrderedSet.mem_singleton.2 rfl))

end ShiftReduce.TerminalSets
