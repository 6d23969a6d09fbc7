import ShiftReduce.Proofs.Grammar.Productive
import ShiftReduce.Proofs.TerminalSets.Forms
import ShiftReduce.Proofs.TerminalSets.Soundness

/-!
FIRST, nullability and FOLLOW are what derivations make them. Once the passes have settled, a step
backwards in a derivation loses neither what comes first nor that nothing is left
(`Settled.mem_trailing_of_derives`, `Settled.nullable_of_derives`), and going forwards every
neighbour in a form is in FOLLOW. With the soundness of every pass the three are exact
(`first_nullable_iff_derives`, `mem_follow_iff_derives`). A form of any nonterminal is part of one
of the start symbol as soon as the nonterminal occurs there, so where all of them do, FOLLOW is what
stands right behind a nonterminal in the forms of the start symbol (`mem_follow_iff_follows`).
-/

namespace ShiftReduce.TerminalSets

open ShiftReduce.Symbol (eraseEmpty)

variable {g : Grammar} {s : TerminalSets} {after : TermSet} {xs α β : List Symbol} {t : Nat}

theorem firstOfSeq_eraseEmpty (s : TerminalSets) (xs : List Symbol) :
    s.firstOfSeq (eraseEmpty xs) = s.firstOfSeq xs := by
  induction xs with
  | nil => rfl
  | cons x xs ih =>
      rw [Symbol.eraseEmpty_cons]
      cases x with
      | nonterminal a =>
          show s.firstOfSeq (.nonterminal a :: eraseEmpty xs) = _
          rw [firstOfSeq, ih, firstOfSeq]
      | terminal u => rfl
      | empty => exact ih

theorem nullable_firstOfSeq_iff : (s.firstOfSeq xs).2 ↔ ∀ x ∈ xs, (s.firstOf x).2 := by
  induction xs with
  | nil => simp [firstOfSeq]
  | cons x xs ih => rw [nullable_firstOfSeq_cons, ih, List.forall_mem_cons]

theorem mem_firstOfSeq_iff_mem_trailing :
    t ∈ (s.firstOfSeq xs).1 ↔ t ∈ s.trailing ∅ xs := by
  simp [mem_trailing, OrderedSet.not_mem_empty]

namespace Settled

variable (settled : s.Settled g)

include settled

theorem mem_trailing_of_derives (h : g.Derives α β) (mem : t ∈ s.trailing after β) :
    t ∈ s.trailing after α := by
  induction h with
  | refl => exact mem
  | tail _ step ih => exact ih (settled.mem_trailing_of_step step mem)

theorem nullable_of_step (wf : g.WellFormed) (step : g.Step α β) (h : (s.firstOfSeq β).2) :
    (s.firstOfSeq α).2 := by
  obtain ⟨n, p, left, right, found, rfl, rfl⟩ := step
  have hp := Grammar.mem_of_prod? found
  have body : (s.firstOfSeq p.body).2 := by
    rw [← firstOfSeq_eraseEmpty, ← wf.rhs_eq_eraseEmpty hp, nullable_firstOfSeq_iff]
    exact fun x hx => nullable_firstOfSeq_iff.1 h x (by simp [hx])
  have head : (s.firstOf (.nonterminal p.head)).2 := settled.nullable p hp body
  rw [nullable_firstOfSeq_iff] at h ⊢
  intro x hx
  simp only [List.mem_append, List.mem_cons] at h hx
  rcases hx with hx | rfl | hx
  · exact h x (.inl (.inl hx))
  · exact head
  · exact h x (.inr hx)

theorem nullable_of_derives (wf : g.WellFormed) (h : g.Derives α β) (empty : (s.firstOfSeq β).2) :
    (s.firstOfSeq α).2 := by
  induction h with
  | refl => exact empty
  | tail _ step ih => exact ih (settled.nullable_of_step wf step empty)

theorem mem_first_of_derives {rest : List Symbol} (h : g.Derives α (.terminal t :: rest)) :
    t ∈ (s.firstOfSeq α).1 := by
  rw [mem_firstOfSeq_iff_mem_trailing]
  refine settled.mem_trailing_of_derives h (mem_trailing_cons.2 (.inl ?_))
  exact OrderedSet.mem_singleton.2 rfl

theorem mem_follow_of_derives {a b : Nat} {left right : List Symbol}
    (h : g.Derives [.nonterminal b] (left ++ .nonterminal a :: .terminal t :: right)) :
    t ∈ s.follow a := by
  have nothing : ∀ u ∈ (∅ : TermSet), u ∈ s.follow b := fun u mem =>
    absurd mem (OrderedSet.not_mem_empty u)
  have followed := (followedBy_nonterminal nothing).derives settled h
  refine followed left a _ rfl t (mem_trailing_cons.2 (.inl ?_))
  exact OrderedSet.mem_singleton.2 rfl

end Settled

section

variable (wf : g.WellFormed)

include wf

theorem nullable_firstOfSeq_iff_derives :
    ((ofGrammar g).firstOfSeq xs).2 ↔ g.Derives (eraseEmpty xs) [] := by
  refine ⟨(sound_ofGrammar wf).derives_nil, fun h => ?_⟩
  rw [← firstOfSeq_eraseEmpty]
  exact (settled_ofGrammar wf).nullable_of_derives wf h rfl

theorem mem_firstOfSeq_iff_derives :
    t ∈ ((ofGrammar g).firstOfSeq xs).1 ↔
      ∃ rest, g.Derives (eraseEmpty xs) (.terminal t :: rest) := by
  refine ⟨(sound_ofGrammar wf).exists_derives, fun ⟨rest, h⟩ => ?_⟩
  rw [← firstOfSeq_eraseEmpty]
  exact (settled_ofGrammar wf).mem_first_of_derives h

theorem nullable_iff_derives {a : Nat} :
    (ofGrammar g).nullable a ↔ g.Derives [.nonterminal a] [] := by
  have string : ((ofGrammar g).firstOfSeq [.nonterminal a]).2 ↔
      g.Derives (eraseEmpty [.nonterminal a]) [] := nullable_firstOfSeq_iff_derives wf
  simpa [nullable_firstOfSeq_iff, firstOf, eraseEmpty] using string

theorem mem_first_iff_derives {a : Nat} :
    t ∈ (ofGrammar g).first a ↔ ∃ rest, g.Derives [.nonterminal a] (.terminal t :: rest) := by
  have string : t ∈ ((ofGrammar g).firstOfSeq [.nonterminal a]).1 ↔
      ∃ rest, g.Derives (eraseEmpty [.nonterminal a]) (.terminal t :: rest) :=
    mem_firstOfSeq_iff_derives wf
  simpa [mem_firstOfSeq_iff_mem_trailing, mem_trailing_cons, mem_trailing_nil,
    OrderedSet.not_mem_empty, firstOf, eraseEmpty] using string

theorem not_derives_eof {a : Nat} {left right : List Symbol} (known : a < g.nonterms.size) :
    ¬ g.Derives [.nonterminal a] (left ++ .terminal g.eof :: right) := by
  intro h
  have mem := wf.mem_symbols_of_derives h
    (fun x hx => by simpa [List.mem_singleton.1 hx, Grammar.mem_symbols] using known)
    (.terminal g.eof) (by simp)
  simp [Grammar.mem_symbols, Grammar.eof] at mem

theorem mem_follow_iff_derivable {a : Nat} :
    t ∈ (ofGrammar g).follow a ↔ (Fact.follow a t).Derivable g := by
  have settled := settled_ofGrammar wf
  refine ⟨fun mem => sound_ofGrammar wf (.follow a t) (holds_follow.2 mem), fun derivable => ?_⟩
  cases derivable with
  | inl inside =>
      obtain ⟨b, _, left, right, h⟩ := inside
      exact settled.mem_follow_of_derives h
  | inr last =>
      obtain ⟨rfl, left, h⟩ := last
      have ends : left ++ [.nonterminal a] =
          left ++ .nonterminal a :: ([] : List Nat).map .terminal := rfl
      exact (followed_of_derives settled h).headD_mem ends

end

theorem covers_of_lt (known : ∀ a, .nonterminal a ∈ xs → a < s.facts.size) : s.covers xs := by
  induction xs with
  | nil => rfl
  | cons x xs ih =>
      have rest := ih fun a ha => known a (List.mem_cons_of_mem _ ha)
      cases x with
      | nonterminal a => simp [covers, known a List.mem_cons_self, rest]
      | terminal t => rfl
      | empty => exact rest

variable {text : String}

/-- FIRST and nullability, of a nonterminal and of a string of symbols, are what can be derived from
them. A string has both as soon as there are facts on its nonterminals. -/
theorem first_nullable_iff_derives (read : Grammar.ofText text = .ok g) {h : Grammar}
    (version : h = g ∨ h = g.augment) :
    (∀ a, ((ofGrammar h).nullable a ↔ h.Derives [.nonterminal a] []) ∧
      ∀ t, t ∈ (ofGrammar h).first a ↔
        ∃ rest, h.Derives [.nonterminal a] (.terminal t :: rest)) ∧
      ∀ xs : List Symbol, (∀ a, .nonterminal a ∈ xs → a < h.nonterms.size) →
        ∃ first nullable, (ofGrammar h).firstOfSeq? xs = some (first, nullable) ∧
          (nullable ↔ h.Derives (eraseEmpty xs) []) ∧
            ∀ t, t ∈ first ↔ ∃ rest, h.Derives (eraseEmpty xs) (.terminal t :: rest) := by
  have plain := Grammar.plain_of_ofText read
  have wf : h.WellFormed := by
    cases version with
    | inl same => exact same ▸ plain.toWellFormed
    | inr same => exact same ▸ Grammar.wellFormed_augment plain
  refine ⟨fun a => ⟨nullable_iff_derives wf, fun t => mem_first_iff_derives wf⟩, ?_⟩
  intro xs known
  have covered : (ofGrammar h).covers xs := by
    refine covers_of_lt fun a ha => ?_
    rw [(fits_ofGrammar wf).size_eq]
    exact known a ha
  exact ⟨_, _, if_pos covered, nullable_firstOfSeq_iff_derives wf,
    fun t => mem_firstOfSeq_iff_derives wf⟩

/-- Chains of symbols that can be empty, and a nonterminal `U` that no rule defines. -/
def optional : Grammar where
  nonterms := .ofList ["S", "A", "B", "U"]
  terms := .ofList ["c", "a", "b"]
  start := 0
  prods := #[⟨0, [.nonterminal 1, .nonterminal 2, .terminal 0]⟩, ⟨1, [.terminal 1]⟩, ⟨1, [.empty]⟩,
    ⟨2, [.nonterminal 1, .nonterminal 1]⟩, ⟨2, [.nonterminal 3, .terminal 2]⟩]
  augmented := false

theorem read_optional :
    Grammar.ofText "S -> A B c\nA -> a | ^\nB -> A A | U b" = .ok optional := by
  decide +kernel

/-- No form of `B U` starts with `b`: where a rule for `B` would put it, an undefined `U` stands in
front of it. -/
theorem derives_optional :
    optional.Derives [.nonterminal 2] [] ∧
      (∃ rest, optional.Derives [.nonterminal 2, .nonterminal 3] (.terminal 1 :: rest)) ∧
      ¬ ∃ rest, optional.Derives [.nonterminal 2, .nonterminal 3] (.terminal 2 :: rest) := by
  obtain ⟨single, string⟩ := first_nullable_iff_derives read_optional (.inl rfl)
  obtain ⟨first, nullable, found, _, exact_first⟩ :=
    string [.nonterminal 2, .empty, .nonterminal 3] (by simp [optional]; decide)
  have listed : ((ofGrammar optional).firstOfSeq? [.nonterminal 2, .empty, .nonterminal 3]).map
      (fun seen => seen.1.toList) = some [1] := by
    decide +kernel
  rw [found] at listed
  have members : first.toList = [1] := Option.some.inj listed
  have member : ∀ t, t ∈ first ↔ t = 1 := by simp [OrderedSet.mem_def, members]
  refine ⟨(single 2).1.1 (by decide +kernel), (exact_first 1).1 ((member 1).2 rfl), ?_⟩
  intro starts
  exact absurd ((member 2).1 ((exact_first 2).2 starts)) (by decide)

/-- FOLLOW is what can stand right behind a nonterminal in the forms that any nonterminal derives,
and the end marker where a form of the start symbol can end with it. -/
theorem mem_follow_iff_derives (read : Grammar.ofText text = .ok g) (a : Nat) :
    (∀ t < g.augment.terms.size, t ∈ (ofGrammar g.augment).follow a ↔
      ∃ b < g.augment.nonterms.size, ∃ left right, g.augment.Derives [.nonterminal b]
        (left ++ .nonterminal a :: .terminal t :: right)) ∧
      (g.augment.eof ∈ (ofGrammar g.augment).follow a ↔
        ∃ left, g.augment.Derives [.nonterminal g.augment.start] (left ++ [.nonterminal a])) := by
  have wf := Grammar.wellFormed_augment (Grammar.plain_of_ofText read)
  have settled := settled_ofGrammar wf
  have sound := fun t mem => sound_ofGrammar wf (.follow a t) (holds_follow.2 mem)
  refine ⟨fun t user => ⟨fun mem => ?_, ?_⟩, fun mem => ?_, ?_⟩
  · refine (sound t mem).resolve_right fun ⟨eof, _⟩ => ?_
    exact absurd user (eof ▸ Nat.lt_irrefl _)
  · intro ⟨b, _, left, right, h⟩
    exact settled.mem_follow_of_derives h
  · refine (sound _ mem).elim (fun ⟨b, hb, left, right, h⟩ => ?_) And.right
    have shifted : g.augment.Derives [.nonterminal b]
        ((left ++ [.nonterminal a]) ++ .terminal g.augment.eof :: right) := by simpa using h
    exact absurd shifted (not_derives_eof wf hb)
  · intro ⟨left, h⟩
    have ends : left ++ [.nonterminal a] =
        left ++ .nonterminal a :: ([] : List Nat).map .terminal := rfl
    exact (followed_of_derives settled h).headD_mem ends

def unreached : Grammar where
  nonterms := .ofList ["S", "X"]
  terms := .ofList ["a", "b"]
  start := 0
  prods := #[⟨0, [.terminal 0]⟩, ⟨1, [.nonterminal 0, .terminal 1]⟩]
  augmented := false

theorem read_unreached : Grammar.ofText "S -> a\nX -> S b" = .ok unreached := by
  decide +kernel

theorem follow_unreached :
    (∃ b < unreached.augment.nonterms.size, ∃ left right, unreached.augment.Derives
      [.nonterminal b] (left ++ .nonterminal 1 :: .terminal 1 :: right)) ∧
      (∃ left, unreached.augment.Derives [.nonterminal 0] (left ++ [.nonterminal 1])) ∧
      ¬ ∃ left, unreached.augment.Derives [.nonterminal 0] (left ++ [.nonterminal 2]) := by
  have exact_start := mem_follow_iff_derives read_unreached 1
  have exact_apart := mem_follow_iff_derives read_unreached 2
  refine ⟨(exact_start.1 1 (by decide)).1 (by decide +kernel), exact_start.2.1 (by decide +kernel),
    fun ends => ?_⟩
  exact absurd (exact_apart.2.2 ends) (by decide +kernel)

end ShiftReduce.TerminalSets

namespace ShiftReduce

namespace Grammar

variable {g : Grammar}

def Occurs (g : Grammar) (a : Nat) : Prop :=
  ∃ left right, g.Derives [.nonterminal g.start] (left ++ .nonterminal a :: right)

/-- In a form of the start symbol, terminal `t` stands right behind the nonterminal, or the form
ends with the nonterminal and `t` is the end marker. -/
def Follows (g : Grammar) (a t : Nat) : Prop :=
  (∃ left right,
    g.Derives [.nonterminal g.start] (left ++ .nonterminal a :: .terminal t :: right)) ∨
  t = g.eof ∧ ∃ left, g.Derives [.nonterminal g.start] (left ++ [.nonterminal a])

theorem occurs_augment (plain : g.Plain) (occurs : ∀ a < g.nonterms.size, g.Occurs a) :
    ∀ a < g.augment.nonterms.size, g.augment.Occurs a := by
  have augmented := augmented_of_plain plain
  intro a known
  rw [size_nonterms_augment plain] at known
  rw [Occurs, augmented.start_eq]
  cases a with
  | zero => exact ⟨[], [], .refl⟩
  | succ a =>
      obtain ⟨left, right, h⟩ := occurs a (Nat.lt_of_succ_lt_succ known)
      have first : g.augment.Step [.nonterminal 0] [.nonterminal (g.start + 1)] :=
        ⟨0, _, [], [], augmented.first, rfl, rfl⟩
      have shifted := derives_augment plain h
      rw [List.map_append] at shifted
      exact ⟨left.map Symbol.shift, right.map Symbol.shift, .head first shifted⟩

end Grammar

theorem TerminalSets.mem_follow_iff_follows {g : Grammar} (wf : g.WellFormed)
    (occurs : ∀ b < g.nonterms.size, g.Occurs b) {a t : Nat} :
    t ∈ (ofGrammar g).follow a ↔ g.Follows a t := by
  rw [mem_follow_iff_derivable wf]
  refine or_congr ⟨?_, ?_⟩ Iff.rfl
  · intro ⟨b, known, left, right, h⟩
    obtain ⟨front, behind, reached⟩ := occurs b known
    have whole := reached.trans (by simpa using h.context front behind)
    exact ⟨front ++ left, right ++ behind, by simpa using whole⟩
  · intro ⟨left, right, h⟩
    exact ⟨g.start, wf.start_lt, left, right, h⟩

end ShiftReduce
