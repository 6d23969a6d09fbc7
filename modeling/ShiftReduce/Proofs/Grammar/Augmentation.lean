import ShiftReduce.Proofs.Grammar.WellFormed
import ShiftReduce.Proofs.Grammar.Derivation

/-!
What augmentation does to a grammar. Production 0 is `S' -> S`, its head stands nowhere else
(`augmented_of_plain`), and every other production is one of the grammar before, one place further
on, so rightmost derivations are the same up to numbering (`rightDerives_augment_iff`).
-/

namespace ShiftReduce

def Production.shift (p : Production) : Production := ⟨p.head + 1, p.body.map Symbol.shift⟩

theorem Symbol.shift_eq_empty {x : Symbol} : x.shift = .empty ↔ x = .empty := by
  cases x <;> simp [Symbol.shift]

theorem Symbol.shift_eq_terminal {x : Symbol} {t : Nat} :
    x.shift = .terminal t ↔ x = .terminal t := by
  cases x <;> simp [Symbol.shift]

theorem Symbol.shift_eq_nonterminal {x : Symbol} {a : Nat} :
    x.shift = .nonterminal a ↔ ∃ b, x = .nonterminal b ∧ a = b + 1 := by
  cases x <;> simp [Symbol.shift, eq_comm]

theorem Symbol.map_shift_terminals (ts : List Nat) :
    (ts.map Symbol.terminal).map Symbol.shift = ts.map .terminal := by
  simp [Symbol.shift]

theorem Production.rhs_shift (p : Production) : p.shift.rhs = p.rhs.map Symbol.shift :=
  rhs_map (fun _ => Symbol.shift_eq_empty) (p.head + 1) p

theorem Production.shift_injective {p q : Production} (same : p.shift = q.shift) : p = q := by
  obtain ⟨head, body⟩ := Production.mk.inj same
  have bodies := (List.map_inj_right fun _ _ => Symbol.shift_injective).1 body
  cases p
  cases q
  simp_all

namespace Grammar

variable {g : Grammar} {ns : List Nat} {α β : List Symbol}

/-- Production 0 derives the symbol numbered `s` from a start symbol that stands nowhere else. -/
structure Augmented (g : Grammar) (s : Nat) : Prop extends WellFormed g where
  start_eq : g.start = 0
  first : g.prod? 0 = some ⟨0, [.nonterminal s]⟩
  only_first : ∀ n p, g.prod? n = some p → p.head = 0 → n = 0
  start_not_mem : ∀ p ∈ g.prods, .nonterminal 0 ∉ p.body

theorem isUppercase_quote : Text.isUppercase '\'' = false := by decide

theorem not_isNonterminalName_augmentedName (name : String) :
    Text.isNonterminalName (augmentedName name) = false := by
  simp [Text.isNonterminalName, augmentedName, isUppercase_quote]

section

variable (plain : g.Plain)

include plain

theorem augment_eq :
    g.augment =
      { nonterms := Alphabet.ofList (augmentedName (g.nontermName g.start) :: g.nonterms.names)
        terms := g.terms
        start := 0
        prods := #[⟨0, [.nonterminal (g.start + 1)]⟩] ++ g.prods.map Production.shift
        augmented := true } := by
  unfold augment
  rw [if_neg (by simp [plain.not_augmented])]
  rfl

theorem names_augment :
    g.augment.nonterms.names = augmentedName (g.nontermName g.start) :: g.nonterms.names := by
  rw [augment_eq plain]
  refine Alphabet.names_ofList_of_nodup (List.nodup_cons.2 ⟨fun mem => ?_, g.nonterms.nodup⟩)
  have upper := plain.upper _ mem
  rw [not_isNonterminalName_augmentedName] at upper
  cases upper

theorem size_nonterms_augment : g.augment.nonterms.size = g.nonterms.size + 1 := by
  simp [Alphabet.size, names_augment plain]

theorem terms_augment : g.augment.terms = g.terms := by
  rw [augment_eq plain]

theorem prod?_augment_zero : g.augment.prod? 0 = some ⟨0, [.nonterminal (g.start + 1)]⟩ := by
  rw [prod?, augment_eq plain, Array.getElem?_append_left Nat.zero_lt_one]
  rfl

theorem prod?_augment_succ (n : Nat) :
    g.augment.prod? (n + 1) = (g.prod? n).map Production.shift := by
  simp [prod?, augment_eq plain, Array.getElem?_append]

theorem mem_prods_augment {p : Production} :
    p ∈ g.augment.prods ↔
      p = ⟨0, [.nonterminal (g.start + 1)]⟩ ∨ ∃ q ∈ g.prods, p = q.shift := by
  simp [augment_eq plain, eq_comm]

theorem nontermName_augment (a : Nat) : g.augment.nontermName (a + 1) = g.nontermName a := by
  simp [nontermName, Alphabet.name?, names_augment plain]

theorem nontermName_augment_zero :
    g.augment.nontermName 0 = augmentedName (g.nontermName g.start) := by
  simp [nontermName, Alphabet.name?, names_augment plain]

theorem wellFormed_augment : g.augment.WellFormed where
  start_lt := by
    rw [size_nonterms_augment plain, augment_eq plain]
    exact Nat.succ_pos _
  head_lt := by
    intro p hp
    rw [size_nonterms_augment plain]
    obtain rfl | ⟨q, hq, rfl⟩ := (mem_prods_augment plain).1 hp
    · exact Nat.succ_pos _
    · exact Nat.succ_lt_succ (plain.head_lt q hq)
  body_ne_nil := by
    intro p hp
    obtain rfl | ⟨q, hq, rfl⟩ := (mem_prods_augment plain).1 hp
    · simp
    · simpa [Production.shift] using plain.body_ne_nil q hq
  empty_alone := by
    intro p hp mem
    obtain rfl | ⟨q, hq, rfl⟩ := (mem_prods_augment plain).1 hp
    · simp at mem
    · obtain ⟨x, hx, here⟩ := List.mem_map.1 mem
      obtain rfl := Symbol.shift_eq_empty.1 here
      simp [Production.shift, plain.empty_alone q hq hx, Symbol.shift]
  nonterminal_lt := by
    intro p hp a mem
    rw [size_nonterms_augment plain]
    obtain rfl | ⟨q, hq, rfl⟩ := (mem_prods_augment plain).1 hp
    · have here : a = g.start + 1 := by simpa using mem
      rw [here]
      exact Nat.succ_lt_succ plain.start_lt
    · obtain ⟨x, hx, here⟩ := List.mem_map.1 mem
      obtain ⟨b, rfl, rfl⟩ := Symbol.shift_eq_nonterminal.1 here
      exact Nat.succ_lt_succ (plain.nonterminal_lt q hq b hx)
  terminal_lt := by
    intro p hp t mem
    rw [terms_augment plain]
    obtain rfl | ⟨q, hq, rfl⟩ := (mem_prods_augment plain).1 hp
    · simp at mem
    · obtain ⟨x, hx, here⟩ := List.mem_map.1 mem
      obtain rfl := Symbol.shift_eq_terminal.1 here
      exact plain.terminal_lt q hq t hx

theorem augmented_of_plain : g.augment.Augmented (g.start + 1) where
  toWellFormed := wellFormed_augment plain
  start_eq := by rw [augment_eq plain]
  first := prod?_augment_zero plain
  only_first := by
    intro n p found head
    cases n with
    | zero => rfl
    | succ n =>
        rw [prod?_augment_succ plain] at found
        obtain ⟨q, _, rfl⟩ := Option.map_eq_some_iff.1 found
        cases head
  start_not_mem := by
    intro p hp mem
    obtain rfl | ⟨q, hq, rfl⟩ := (mem_prods_augment plain).1 hp
    · simp at mem
    · obtain ⟨x, _, here⟩ := List.mem_map.1 mem
      obtain ⟨b, _, zero⟩ := Symbol.shift_eq_nonterminal.1 here
      exact absurd zero.symm (Nat.succ_ne_zero b)

theorem derives_augment (h : g.Derives α β) :
    g.augment.Derives (α.map Symbol.shift) (β.map Symbol.shift) := by
  refine h.map fun n p found => ⟨n + 1, p.shift, ?_, rfl, p.rhs_shift⟩
  rw [prod?_augment_succ plain, found, Option.map_some]

theorem rightStep_augment_iff {n : Nat} {γ : List Symbol} :
    g.augment.RightStep (n + 1) (α.map Symbol.shift) γ ↔
      ∃ β, g.RightStep n α β ∧ γ = β.map Symbol.shift := by
  apply Iff.intro
  · intro step
    obtain ⟨p, left, ts, found, hα, rfl⟩ := step
    rw [prod?_augment_succ plain] at found
    obtain ⟨q, found', rfl⟩ := Option.map_eq_some_iff.1 found
    obtain ⟨front, behind, rfl, rfl, hbehind⟩ := List.map_eq_append_iff.1 hα
    obtain ⟨x, rest, rfl, hx, hrest⟩ := List.map_eq_cons_iff.1 hbehind
    obtain rfl : x = .nonterminal q.head := Symbol.shift_injective (hx.trans rfl)
    rw [← Symbol.map_shift_terminals] at hrest
    obtain rfl := (List.map_inj_right fun _ _ => Symbol.shift_injective).1 hrest
    exact ⟨_, ⟨q, front, ts, found', rfl, rfl⟩, by simp [Production.rhs_shift, Symbol.shift]⟩
  · intro before
    obtain ⟨β, ⟨q, front, ts, found, rfl, rfl⟩, rfl⟩ := before
    refine ⟨q.shift, front.map Symbol.shift, ts, ?_, ?_, ?_⟩
    · rw [prod?_augment_succ plain, found]
      rfl
    · simp [Symbol.shift, Production.shift]
    · simp [Production.rhs_shift, Symbol.shift]

/-- Nothing that has been shifted holds the new start symbol, which production 0 needs. -/
theorem not_rightStep_augment_zero {γ : List Symbol} :
    ¬ g.augment.RightStep 0 (α.map Symbol.shift) γ := by
  intro ⟨p, left, ts, found, hα, _⟩
  rw [prod?_augment_zero plain] at found
  cases found
  have mem : Symbol.nonterminal 0 ∈ α.map Symbol.shift := by
    rw [hα]
    simp
  obtain ⟨x, _, here⟩ := List.mem_map.1 mem
  obtain ⟨b, _, zero⟩ := Symbol.shift_eq_nonterminal.1 here
  exact absurd zero.symm (Nat.succ_ne_zero b)

theorem rightDerives_augment_iff {γ : List Symbol} {ms : List Nat} :
    g.augment.RightDerives ms (α.map Symbol.shift) γ ↔
      ∃ ns β, ms = ns.map (· + 1) ∧ γ = β.map Symbol.shift ∧ g.RightDerives ns α β := by
  apply Iff.intro
  · intro h
    generalize whole : α.map Symbol.shift = form at h
    induction h generalizing α with
    | refl form => exact ⟨[], α, rfl, whole.symm, .refl α⟩
    | @head n ms _ _ _ step _ ih =>
        subst whole
        cases n with
        | zero => exact absurd step (not_rightStep_augment_zero plain)
        | succ n =>
            obtain ⟨β, step', rfl⟩ := (rightStep_augment_iff plain).1 step
            obtain ⟨ns, γ, rfl, rfl, rest⟩ := ih rfl
            exact ⟨n :: ns, γ, rfl, rfl, .head step' rest⟩
  · intro shifted
    obtain ⟨ns, β, rfl, rfl, h⟩ := shifted
    induction h with
    | refl α => exact .refl _
    | head step _ ih => exact .head ((rightStep_augment_iff plain).2 ⟨_, step, rfl⟩) ih

theorem rightDerives_terminals_augment_iff {ms ts : List Nat} :
    g.augment.RightDerives ms (α.map Symbol.shift) (ts.map .terminal) ↔
      ∃ ns, ms = ns.map (· + 1) ∧ g.RightDerives ns α (ts.map .terminal) := by
  rw [rightDerives_augment_iff plain]
  apply Iff.intro
  · intro shifted
    obtain ⟨ns, β, rfl, same, h⟩ := shifted
    rw [← Symbol.map_shift_terminals] at same
    obtain rfl := (List.map_inj_right fun _ _ => Symbol.shift_injective).1 same
    exact ⟨ns, rfl, h⟩
  · intro before
    obtain ⟨ns, rfl, h⟩ := before
    exact ⟨ns, _, rfl, (Symbol.map_shift_terminals ts).symm, h⟩

theorem rightDerives_start_augment_iff {ms ts : List Nat} :
    g.augment.RightDerives ms [.nonterminal (g.start + 1)] (ts.map .terminal) ↔
      ∃ ns, ms = ns.map (· + 1) ∧ g.RightDerives ns [.nonterminal g.start] (ts.map .terminal) :=
  rightDerives_terminals_augment_iff plain (α := [.nonterminal g.start])

end

end Grammar

end ShiftReduce
