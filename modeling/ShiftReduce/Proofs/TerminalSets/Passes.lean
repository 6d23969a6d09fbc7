import Mathlib.Order.Basic
import Mathlib.Tactic.Ring
import ShiftReduce.ItemSet
import ShiftReduce.TerminalSets
import ShiftReduce.Proofs.Grammar.WellFormed

/-!
The passes for FIRST, nullability and FOLLOW come to rest. A pass only adds facts, there are
`passLimit - 1` facts in all, and so the limit is never reached: a last pass changes nothing
(`pass_ofGrammar`), and its result satisfies every inclusion that a production asks for
(`settled_ofGrammar`).
-/

namespace ShiftReduce.TerminalSets

inductive Fact where
  | first (a t : Nat)
  | nullable (a : Nat)
  | follow (a t : Nat)
deriving DecidableEq

def holds (s : TerminalSets) : Fact → Bool
  | .first a t => t ∈ s.first a
  | .nullable a => s.nullable a
  | .follow a t => t ∈ s.follow a

variable {g : Grammar} {s t u : TerminalSets} {f : Fact}

@[simp] theorem holds_first {a t : Nat} : s.holds (.first a t) ↔ t ∈ s.first a := by
  simp [holds]

@[simp] theorem holds_nullable {a : Nat} : s.holds (.nullable a) ↔ s.nullable a := by
  simp [holds]

@[simp] theorem holds_follow {a t : Nat} : s.holds (.follow a t) ↔ t ∈ s.follow a := by
  simp [holds]

theorem eq_of_holds (size : s.facts.size = t.facts.size) (h : ∀ f, s.holds f ↔ t.holds f) :
    s = t := by
  obtain ⟨xs⟩ := s
  obtain ⟨ys⟩ := t
  congr 1
  refine Array.ext size fun a hx hy => ?_
  have first := fun c => h (.first a c)
  have nullable := h (.nullable a)
  have follow := fun c => h (.follow a c)
  simp only [holds_first, holds_nullable, holds_follow, TerminalSets.first, TerminalSets.nullable,
    TerminalSets.follow, Array.getElem?_eq_getElem hx, Array.getElem?_eq_getElem hy,
    Option.map_some, Option.getD_some, Bool.coe_iff_coe] at first nullable follow
  rcases hf : xs[a] with ⟨x₁, x₂, x₃⟩
  rcases hg : ys[a] with ⟨y₁, y₂, y₃⟩
  simp only [hf, hg] at first nullable follow
  rw [OrderedSet.eq_of_mem_iff first, nullable, OrderedSet.eq_of_mem_iff follow]

/-- `t` knows at least what `s` knows. -/
instance : LE TerminalSets :=
  ⟨fun s t => s.facts.size = t.facts.size ∧ ∀ f, s.holds f → t.holds f⟩

instance : PartialOrder TerminalSets where
  le_refl _ := ⟨rfl, fun _ => id⟩
  le_trans _ _ _ h k := ⟨h.1.trans k.1, fun f hf => k.2 f (h.2 f hf)⟩
  le_antisymm _ _ h k := eq_of_holds h.1 fun f => ⟨h.2 f, k.2 f⟩

theorem size_eq_of_le (h : s ≤ t) : s.facts.size = t.facts.size := h.1

theorem holds_of_le (h : s ≤ t) (hf : s.holds f) : t.holds f := h.2 f hf

theorem holds_addFollow {a : Nat} {new : TermSet} :
    (s.addFollow a new).holds f ↔
      s.holds f ∨ a < s.facts.size ∧ ∃ c ∈ new, f = .follow a c := by
  cases f with
  | first b c => simp [first_addFollow]
  | nullable b => simp [nullable_addFollow]
  | follow b c =>
      simp only [holds_follow, mem_follow_addFollow, Fact.follow.injEq]
      grind

theorem holds_addFirst {a : Nat} {new : TermSet} {nullable : Bool} :
    (s.addFirst a new nullable).holds f ↔
      s.holds f ∨ a < s.facts.size ∧
        ((∃ c ∈ new, f = .first a c) ∨ nullable ∧ f = .nullable a) := by
  cases f with
  | first b c =>
      simp only [holds_first, mem_first_addFirst, Fact.first.injEq]
      grind
  | nullable b =>
      simp only [holds_nullable, nullable_addFirst, Fact.nullable.injEq]
      grind
  | follow b c => simp [follow_addFirst]

theorem size_addFollow (s : TerminalSets) (a : Nat) (new : TermSet) :
    (s.addFollow a new).facts.size = s.facts.size := by
  simp [addFollow]

theorem size_addFirst (s : TerminalSets) (a : Nat) (new : TermSet) (nullable : Bool) :
    (s.addFirst a new nullable).facts.size = s.facts.size := by
  simp [addFirst]

theorem le_addFollow (s : TerminalSets) (a : Nat) (new : TermSet) : s ≤ s.addFollow a new :=
  ⟨(size_addFollow _ _ _).symm, fun _ hf => holds_addFollow.2 (.inl hf)⟩

theorem le_addFirst (s : TerminalSets) (a : Nat) (new : TermSet) (nullable : Bool) :
    s ≤ s.addFirst a new nullable :=
  ⟨(size_addFirst _ _ _ _).symm, fun _ hf => holds_addFirst.2 (.inl hf)⟩

theorem le_addFollows (after : TermSet) (xs : List Symbol) (s : TerminalSets) :
    s ≤ addFollows after xs s := by
  induction xs generalizing s with
  | nil => exact le_rfl
  | cons x xs ih =>
      cases x with
      | nonterminal a => exact (le_addFollow s a _).trans (ih _)
      | terminal t => exact ih s
      | empty => exact ih s

theorem le_visit (s : TerminalSets) (p : Production) : s ≤ s.visit p :=
  (le_addFirst s _ _ _).trans (le_addFollows _ _ _)

theorem le_foldl_visit (ps : List Production) (s : TerminalSets) : s ≤ ps.foldl visit s := by
  induction ps generalizing s with
  | nil => exact le_rfl
  | cons p ps ih => exact (le_visit s p).trans (ih _)

theorem pass_eq_foldl (g : Grammar) (s : TerminalSets) : pass g s = g.prods.toList.foldl visit s :=
  (Array.foldl_toList _).symm

theorem le_pass (g : Grammar) (s : TerminalSets) : s ≤ pass g s := by
  rw [pass_eq_foldl]
  exact le_foldl_visit _ s

theorem settle_induction {P : TerminalSets → Prop} (step : ∀ s, P s → P (pass g s)) {n : Nat}
    (h : P s) : P (settle g n s).1 := by
  induction n generalizing s with
  | zero => exact h
  | succ n ih =>
      unfold settle
      dsimp only
      split
      · exact h
      · exact ih (step s h)

def allFacts (g : Grammar) : List Fact :=
  (List.range g.nonterms.size).flatMap fun a =>
    .nullable a :: ((List.range g.terms.size).map (.first a) ++
      (List.range (g.terms.size + 1)).map (.follow a))

theorem length_allFacts (g : Grammar) :
    (allFacts g).length = g.nonterms.size * (2 * g.terms.size + 2) := by
  simp only [allFacts, List.length_flatMap, List.length_cons, List.length_append, List.length_map,
    List.length_range, List.map_const', List.sum_replicate_nat]
  ring

@[simp] theorem first_mem_allFacts {a t : Nat} :
    .first a t ∈ allFacts g ↔ a < g.nonterms.size ∧ t < g.terms.size := by
  simp [allFacts]

@[simp] theorem nullable_mem_allFacts {a : Nat} :
    .nullable a ∈ allFacts g ↔ a < g.nonterms.size := by
  simp [allFacts]

@[simp] theorem follow_mem_allFacts {a t : Nat} :
    .follow a t ∈ allFacts g ↔ a < g.nonterms.size ∧ t ≤ g.terms.size := by
  rw [← Nat.lt_add_one_iff]
  simp [allFacts]

structure Fits (s : TerminalSets) (g : Grammar) : Prop where
  size_eq : s.facts.size = g.nonterms.size
  mem_allFacts : ∀ f, s.holds f → f ∈ allFacts g

theorem Fits.lt_of_mem_first (h : s.Fits g) {a t : Nat} (mem : t ∈ s.first a) :
    t < g.terms.size :=
  (first_mem_allFacts.1 (h.mem_allFacts (.first a t) (holds_first.2 mem))).2

theorem Fits.le_of_mem_follow (h : s.Fits g) {a t : Nat} (mem : t ∈ s.follow a) : t ≤ g.eof :=
  (follow_mem_allFacts.1 (h.mem_allFacts (.follow a t) (holds_follow.2 mem))).2

theorem mem_firstOfSeq_cons {x : Symbol} {xs : List Symbol} {t : Nat} :
    t ∈ (s.firstOfSeq (x :: xs)).1 ↔
      t ∈ (s.firstOf x).1 ∨ (s.firstOf x).2 ∧ t ∈ (s.firstOfSeq xs).1 := by
  simp only [firstOfSeq]
  split <;> simp_all [OrderedSet.mem_union]

theorem nullable_firstOfSeq_cons {x : Symbol} {xs : List Symbol} :
    (s.firstOfSeq (x :: xs)).2 ↔ (s.firstOf x).2 ∧ (s.firstOfSeq xs).2 := by
  simp only [firstOfSeq]
  split <;> simp_all

theorem mem_trailing {after : TermSet} {xs : List Symbol} {t : Nat} :
    t ∈ s.trailing after xs ↔
      t ∈ (s.firstOfSeq xs).1 ∨ (s.firstOfSeq xs).2 ∧ t ∈ after := by
  simp only [trailing]
  split <;> simp_all [OrderedSet.mem_union]

theorem Fits.lt_of_mem_firstOfSeq (h : s.Fits g) {xs : List Symbol}
    (terms : ∀ t, .terminal t ∈ xs → t < g.terms.size) {t : Nat}
    (mem : t ∈ (s.firstOfSeq xs).1) : t < g.terms.size := by
  induction xs with
  | nil => exact absurd mem (OrderedSet.not_mem_empty t)
  | cons x xs ih =>
      cases mem_firstOfSeq_cons.1 mem with
      | inl here =>
          cases x with
          | nonterminal a => exact h.lt_of_mem_first here
          | terminal u =>
              rw [OrderedSet.mem_singleton.1 here]
              exact terms u List.mem_cons_self
          | empty => exact absurd here (OrderedSet.not_mem_empty t)
      | inr later => exact ih (fun t ht => terms t (List.mem_cons_of_mem _ ht)) later.2

theorem Fits.addFollows (h : s.Fits g) {after : TermSet} (le : ∀ t ∈ after, t ≤ g.eof)
    {xs : List Symbol} (terms : ∀ t, .terminal t ∈ xs → t < g.terms.size) :
    (addFollows after xs s).Fits g := by
  induction xs generalizing s with
  | nil => exact h
  | cons x xs ih =>
      have terms_xs := fun t ht => terms t (List.mem_cons_of_mem _ ht)
      cases x with
      | nonterminal a =>
          have size := (size_eq_of_le (le_addFollow s a (s.trailing after xs))).symm.trans h.size_eq
          refine ih ⟨size, fun f hf => ?_⟩ terms_xs
          cases holds_addFollow.1 hf with
          | inl old => exact h.mem_allFacts f old
          | inr new =>
              obtain ⟨known, t, mem, rfl⟩ := new
              refine follow_mem_allFacts.2 ⟨h.size_eq ▸ known, ?_⟩
              cases mem_trailing.1 mem with
              | inl first => exact Nat.le_of_lt (h.lt_of_mem_firstOfSeq terms_xs first)
              | inr behind => exact le t behind.2
      | terminal t => exact ih h terms_xs
      | empty => exact ih h terms_xs

theorem Fits.visit (h : s.Fits g) {p : Production}
    (terms : ∀ t, .terminal t ∈ p.body → t < g.terms.size) : (s.visit p).Fits g := by
  have first : (s.addFirst p.head (s.firstOfSeq p.body).1 (s.firstOfSeq p.body).2).Fits g := by
    refine ⟨(size_eq_of_le (le_addFirst s _ _ _)).symm.trans h.size_eq, fun f hf => ?_⟩
    rcases holds_addFirst.1 hf with old | ⟨known, ⟨t, mem, rfl⟩ | ⟨_, rfl⟩⟩
    · exact h.mem_allFacts f old
    · exact first_mem_allFacts.2 ⟨h.size_eq ▸ known, h.lt_of_mem_firstOfSeq terms mem⟩
    · exact nullable_mem_allFacts.2 (h.size_eq ▸ known)
  exact first.addFollows (fun t mem => first.le_of_mem_follow mem) terms

theorem Fits.foldl {ps : List Production} (h : s.Fits g)
    (terms : ∀ p ∈ ps, ∀ t, .terminal t ∈ p.body → t < g.terms.size) :
    (ps.foldl TerminalSets.visit s).Fits g := by
  induction ps generalizing s with
  | nil => exact h
  | cons p ps ih =>
      exact ih (h.visit (terms p List.mem_cons_self))
        fun q hq => terms q (List.mem_cons_of_mem _ hq)

theorem Fits.pass (wf : g.WellFormed) (h : s.Fits g) : (pass g s).Fits g := by
  rw [pass_eq_foldl]
  exact h.foldl fun p hp => wf.terminal_lt p (Array.mem_toList_iff.1 hp)

theorem holds_seed : (seed g).holds f ↔ g.start < g.nonterms.size ∧ f = .follow g.start g.eof := by
  rw [seed, holds_addFollow]
  have nothing : ∀ f, ¬ holds ⟨Array.replicate g.nonterms.size ⟨∅, false, ∅⟩⟩ f := by
    intro f
    cases f <;> simp only [holds_first, holds_nullable, holds_follow, TerminalSets.first,
      TerminalSets.nullable, TerminalSets.follow, Array.getElem?_replicate] <;>
      split <;> simp [OrderedSet.not_mem_empty]
  simp [nothing, OrderedSet.mem_singleton]

theorem fits_seed (g : Grammar) : (seed g).Fits g where
  size_eq := by simp [seed, addFollow]
  mem_allFacts f hf := by
    obtain ⟨known, rfl⟩ := holds_seed.1 hf
    exact follow_mem_allFacts.2 ⟨known, le_rfl⟩

theorem fits_ofGrammar (wf : g.WellFormed) : (ofGrammar g).Fits g :=
  settle_induction (P := fun s => s.Fits g) (fun _ => Fits.pass wf) (fits_seed g)

def count (g : Grammar) (s : TerminalSets) : Nat := (allFacts g).countP s.holds

theorem count_lt_count (le : s ≤ t) (ne : s ≠ t) (fits : t.Fits g) : count g s < count g t := by
  obtain ⟨f, new, old⟩ : ∃ f, t.holds f ∧ ¬ s.holds f := by
    by_contra all
    push Not at all
    exact ne (le_antisymm le ⟨(size_eq_of_le le).symm, all⟩)
  exact ItemSet.countP_lt_countP (fun f => holds_of_le le) (fits.mem_allFacts f new) new old

theorem pass_settle (wf : g.WellFormed) {n : Nat} (fits : s.Fits g)
    (enough : (allFacts g).length < count g s + n) :
    pass g (settle g n s).1 = (settle g n s).1 := by
  induction n generalizing s with
  | zero => exact absurd enough (Nat.not_lt.2 List.countP_le_length)
  | succ n ih =>
      unfold settle
      dsimp only
      split
      · assumption
      · rename_i changed
        have more := count_lt_count (le_pass g s) (Ne.symm changed) (fits.pass wf)
        exact ih (fits.pass wf) (by omega)

/-- The limit on passes is never what ends them. -/
theorem pass_ofGrammar (wf : g.WellFormed) : pass g (ofGrammar g) = ofGrammar g := by
  refine pass_settle wf (fits_seed g) ?_
  rw [length_allFacts, passLimit]
  omega

theorem visit_eq_of_foldl_eq {ps : List Production} (h : ps.foldl visit s = s) :
    ∀ p ∈ ps, s.visit p = s := by
  induction ps with
  | nil => simp
  | cons q ps ih =>
      have same : s.visit q = s := le_antisymm ((le_foldl_visit ps _).trans h.le) (le_visit s q)
      rw [List.foldl_cons, same] at h
      intro p mem
      cases mem with
      | head => exact same
      | tail _ mem => exact ih h p mem

theorem visit_eq_of_pass_eq (h : pass g s = s) : ∀ p ∈ g.prods, s.visit p = s := by
  rw [pass_eq_foldl] at h
  exact fun p hp => visit_eq_of_foldl_eq h p (Array.mem_toList_iff.2 hp)

theorem mem_follow_of_addFollows_eq {after : TermSet} {xs : List Symbol}
    (h : addFollows after xs s = s) {front behind : List Symbol} {a t : Nat}
    (known : a < s.facts.size) (split : xs = front ++ .nonterminal a :: behind)
    (mem : t ∈ s.trailing after behind) : t ∈ s.follow a := by
  induction xs generalizing front with
  | nil => simp at split
  | cons x xs ih =>
      -- Every addition on the way through the body has to leave the facts as they are.
      have rest : addFollows after xs s = s ∧
          ∀ b, x = .nonterminal b → s.addFollow b (s.trailing after xs) = s := by
        cases x with
        | nonterminal b =>
            have same : s.addFollow b (s.trailing after xs) = s :=
              le_antisymm ((le_addFollows after xs _).trans h.le) (le_addFollow s b _)
            refine ⟨?_, fun c here => ?_⟩
            · rw [addFollows, same] at h
              exact h
            · cases here
              exact same
        | terminal _ => exact ⟨h, fun _ here => by cases here⟩
        | empty => exact ⟨h, fun _ here => by cases here⟩
      cases front with
      | nil =>
          obtain ⟨rfl, rfl⟩ := List.cons.inj split
          rw [← rest.2 a rfl]
          exact mem_follow_addFollow.2 (.inr ⟨known, rfl, mem⟩)
      | cons y front => exact ih rest.1 (List.cons.inj split).2

structure Settled (s : TerminalSets) (g : Grammar) : Prop extends Fits s g where
  eof_mem : g.eof ∈ s.follow g.start
  first : ∀ p ∈ g.prods, ∀ t ∈ (s.firstOfSeq p.body).1, t ∈ s.first p.head
  nullable : ∀ p ∈ g.prods, (s.firstOfSeq p.body).2 → s.nullable p.head
  follow : ∀ p ∈ g.prods, ∀ front a behind, p.body = front ++ .nonterminal a :: behind →
    ∀ t ∈ s.trailing (s.follow p.head) behind, t ∈ s.follow a

theorem settled_of_pass_eq (wf : g.WellFormed) (fits : s.Fits g)
    (seeded : g.eof ∈ s.follow g.start) (h : pass g s = s) : s.Settled g := by
  have same := visit_eq_of_pass_eq h
  have same_first : ∀ p ∈ g.prods,
      s.addFirst p.head (s.firstOfSeq p.body).1 (s.firstOfSeq p.body).2 = s := fun p hp =>
    le_antisymm ((le_addFollows _ _ _).trans (same p hp).le) (le_addFirst s _ _ _)
  have known : ∀ p ∈ g.prods, p.head < s.facts.size := fun p hp =>
    fits.size_eq ▸ wf.head_lt p hp
  refine ⟨fits, seeded, fun p hp t mem => ?_, fun p hp empty => ?_,
    fun p hp front a behind body t mem => ?_⟩
  · rw [← same_first p hp]
    exact mem_first_addFirst.2 (.inr ⟨known p hp, rfl, mem⟩)
  · rw [← same_first p hp]
    exact nullable_addFirst.2 (.inr ⟨known p hp, rfl, empty⟩)
  · have follows := same p hp
    simp only [TerminalSets.visit, same_first p hp] at follows
    have known_a : a < s.facts.size :=
      fits.size_eq ▸ wf.nonterminal_lt p hp a (by simp [body])
    exact mem_follow_of_addFollows_eq follows known_a body mem

theorem settled_ofGrammar (wf : g.WellFormed) : (ofGrammar g).Settled g := by
  have seeded : g.eof ∈ (ofGrammar g).follow g.start := by
    rw [← holds_follow]
    refine settle_induction (P := fun s => s.holds (.follow g.start g.eof))
      (fun s hs => holds_of_le (le_pass g s) hs) ?_
    exact holds_seed.2 ⟨wf.start_lt, rfl⟩
  exact settled_of_pass_eq wf (fits_ofGrammar wf) seeded (pass_ofGrammar wf)

end ShiftReduce.TerminalSets
