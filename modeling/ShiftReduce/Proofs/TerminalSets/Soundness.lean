import ShiftReduce.Proofs.Grammar.Derivation
import ShiftReduce.Proofs.TerminalSets.Passes

/-!
Every fact that a pass finds is one about derivations. `Fact.Derivable` says which derivation a fact
promises; FIRST and nullability of a string promise derivations of the string as soon as the facts
on its nonterminals do (`Sound.exists_derives`, `Sound.derives_nil`), and so do the facts that a
production adds to them (`Sound.visit`). What is read while it is still growing may be too small,
but never wrong.
-/

namespace ShiftReduce

/-- The string that is meant, where the empty string is written out among the symbols. -/
def Symbol.eraseEmpty (xs : List Symbol) : List Symbol := xs.filter (· ≠ .empty)

theorem Symbol.eraseEmpty_cons (x : Symbol) (xs : List Symbol) :
    eraseEmpty (x :: xs) = eraseEmpty [x] ++ eraseEmpty xs := by
  rw [eraseEmpty, eraseEmpty, eraseEmpty, ← List.filter_append, List.singleton_append]

theorem Symbol.eraseEmpty_of_not_mem {xs : List Symbol} (h : .empty ∉ xs) : eraseEmpty xs = xs := by
  refine List.filter_eq_self.2 fun x hx => ?_
  rw [decide_eq_true_eq]
  exact fun same => h (same ▸ hx)

theorem Grammar.WellFormed.rhs_eq_eraseEmpty {g : Grammar} (wf : g.WellFormed) {p : Production}
    (hp : p ∈ g.prods) : p.rhs = Symbol.eraseEmpty p.body := by
  by_cases mem : .empty ∈ p.body
  · have body := wf.empty_alone p hp mem
    simp [Production.rhs, Production.isEmpty, body, Symbol.eraseEmpty]
  · have solid : ¬ p.isEmpty := by
      intro isEmpty
      have body : p.body = [.empty] := by simpa [Production.isEmpty] using isEmpty
      exact mem (by simp [body])
    rw [Production.rhs_of_not_isEmpty solid, Symbol.eraseEmpty_of_not_mem mem]

namespace TerminalSets

open ShiftReduce.Symbol (eraseEmpty)

variable {g : Grammar} {s : TerminalSets} {xs : List Symbol} {t : Nat}

/-- The derivation that a fact promises. A terminal follows a nonterminal where it stands right
behind it in a form, and the end marker where the form ends with it. -/
def Fact.Derivable (g : Grammar) : Fact → Prop
  | .first a t => ∃ rest, g.Derives [.nonterminal a] (.terminal t :: rest)
  | .nullable a => g.Derives [.nonterminal a] []
  | .follow a t =>
      (∃ b < g.nonterms.size, ∃ left right,
        g.Derives [.nonterminal b] (left ++ .nonterminal a :: .terminal t :: right)) ∨
      t = g.eof ∧ ∃ left, g.Derives [.nonterminal g.start] (left ++ [.nonterminal a])

def Sound (s : TerminalSets) (g : Grammar) : Prop := ∀ f, s.holds f → f.Derivable g

namespace Sound

variable (sound : s.Sound g)

include sound

theorem derives_nil_of_firstOf {x : Symbol} (h : (s.firstOf x).2) :
    g.Derives (eraseEmpty [x]) [] := by
  cases x with
  | nonterminal a => exact sound (.nullable a) (holds_nullable.2 h)
  | terminal u => cases h
  | empty => exact .refl

theorem exists_derives_of_firstOf {x : Symbol} (h : t ∈ (s.firstOf x).1) :
    ∃ rest, g.Derives (eraseEmpty [x]) (.terminal t :: rest) := by
  cases x with
  | nonterminal a => exact sound (.first a t) (holds_first.2 h)
  | terminal u =>
      rw [OrderedSet.mem_singleton.1 h]
      exact ⟨[], .refl⟩
  | empty => exact absurd h (OrderedSet.not_mem_empty t)

theorem derives_nil (h : (s.firstOfSeq xs).2) : g.Derives (eraseEmpty xs) [] := by
  induction xs with
  | nil => exact .refl
  | cons x xs ih =>
      obtain ⟨here, behind⟩ := nullable_firstOfSeq_cons.1 h
      rw [Symbol.eraseEmpty_cons]
      exact (sound.derives_nil_of_firstOf here).append (ih behind)

theorem exists_derives (h : t ∈ (s.firstOfSeq xs).1) :
    ∃ rest, g.Derives (eraseEmpty xs) (.terminal t :: rest) := by
  induction xs with
  | nil => exact absurd h (OrderedSet.not_mem_empty t)
  | cons x xs ih =>
      rw [Symbol.eraseEmpty_cons]
      cases mem_firstOfSeq_cons.1 h with
      | inl here =>
          obtain ⟨rest, first⟩ := sound.exists_derives_of_firstOf here
          exact ⟨_, first.append .refl⟩
      | inr later =>
          obtain ⟨rest, behind⟩ := ih later.2
          exact ⟨rest, (sound.derives_nil_of_firstOf later.1).append behind⟩

theorem addFirst (wf : g.WellFormed) {p : Production} (hp : p ∈ g.prods) :
    (s.addFirst p.head (s.firstOfSeq p.body).1 (s.firstOfSeq p.body).2).Sound g := by
  have expand := Grammar.derives_rhs hp
  rw [wf.rhs_eq_eraseEmpty hp] at expand
  intro f hf
  rcases holds_addFirst.1 hf with old | ⟨_, ⟨t, mem, rfl⟩ | ⟨empty, rfl⟩⟩
  · exact sound f old
  · obtain ⟨rest, derives⟩ := sound.exists_derives mem
    exact ⟨rest, expand.trans derives⟩
  · exact expand.trans (sound.derives_nil empty)

theorem derivable_follow (wf : g.WellFormed) {p : Production} (hp : p ∈ g.prods) {after : TermSet}
    (follows : ∀ t ∈ after, (Fact.follow p.head t).Derivable g) {front behind : List Symbol}
    {a : Nat} (body : p.body = front ++ .nonterminal a :: behind)
    (h : t ∈ s.trailing after behind) : (Fact.follow a t).Derivable g := by
  have solid : .empty ∉ p.body := by
    intro mem
    have alone := wf.empty_alone p hp mem
    have here : Symbol.nonterminal a ∈ p.body := by simp [body]
    simp [alone] at here
  have expand := Grammar.derives_rhs hp
  rw [wf.rhs_eq_eraseEmpty hp, Symbol.eraseEmpty_of_not_mem solid, body] at expand
  have behind_eq : eraseEmpty behind = behind :=
    Symbol.eraseEmpty_of_not_mem fun mem => solid (by simp [body, mem])
  cases mem_trailing.1 h with
  | inl first =>
      obtain ⟨rest, derives⟩ := sound.exists_derives first
      rw [behind_eq] at derives
      refine .inl ⟨p.head, wf.head_lt p hp, front, rest, expand.trans ?_⟩
      exact (derives.append_left [.nonterminal a]).append_left front
  | inr later =>
      -- With nothing left of what stands behind it, the nonterminal ends where its head did.
      have ends : g.Derives [.nonterminal p.head] (front ++ [.nonterminal a]) := by
        refine expand.trans ?_
        have gone := sound.derives_nil later.1
        rw [behind_eq] at gone
        exact (gone.append_left [.nonterminal a]).append_left front
      rcases follows t later.2 with ⟨b, hb, left, right, derives⟩ | ⟨eof, left, derives⟩
      · refine .inl ⟨b, hb, left ++ front, right, derives.trans ?_⟩
        simpa using ends.context left (.terminal t :: right)
      · refine .inr ⟨eof, left ++ front, derives.trans ?_⟩
        simpa using ends.append_left left

theorem addFollows (wf : g.WellFormed) {p : Production} (hp : p ∈ g.prods) {after : TermSet}
    (follows : ∀ t ∈ after, (Fact.follow p.head t).Derivable g) {front : List Symbol}
    (body : p.body = front ++ xs) : (addFollows after xs s).Sound g := by
  induction xs generalizing s front with
  | nil => exact sound
  | cons x xs ih =>
      have shorter : p.body = (front ++ [x]) ++ xs := by simp [body]
      cases x with
      | nonterminal a =>
          refine ih (fun f hf => ?_) shorter
          cases holds_addFollow.1 hf with
          | inl old => exact sound f old
          | inr new =>
              obtain ⟨_, t, mem, rfl⟩ := new
              exact sound.derivable_follow wf hp follows body mem
      | terminal _ => exact ih sound shorter
      | empty => exact ih sound shorter

theorem visit (wf : g.WellFormed) {p : Production} (hp : p ∈ g.prods) : (s.visit p).Sound g := by
  have first := sound.addFirst wf hp
  exact first.addFollows wf hp (fun t mem => first (.follow p.head t) (holds_follow.2 mem))
    (List.nil_append _).symm

theorem foldl (wf : g.WellFormed) {ps : List Production} (sub : ∀ p ∈ ps, p ∈ g.prods) :
    (ps.foldl TerminalSets.visit s).Sound g := by
  induction ps generalizing s with
  | nil => exact sound
  | cons p ps ih =>
      exact ih (sound.visit wf (sub p List.mem_cons_self))
        fun q hq => sub q (List.mem_cons_of_mem _ hq)

theorem pass (wf : g.WellFormed) : (pass g s).Sound g := by
  rw [pass_eq_foldl]
  exact sound.foldl wf fun p hp => Array.mem_toList_iff.1 hp

end Sound

theorem sound_seed (g : Grammar) : (seed g).Sound g := by
  intro f hf
  obtain ⟨_, rfl⟩ := holds_seed.1 hf
  exact .inr ⟨rfl, [], .refl⟩

theorem sound_ofGrammar (wf : g.WellFormed) : (ofGrammar g).Sound g :=
  settle_induction (P := fun s => s.Sound g) (fun _ sound => sound.pass wf) (sound_seed g)

end TerminalSets

end ShiftReduce
