import ShiftReduce.Proofs.Grammar.Representation

/-!
Augmentation as an embedding. Forms that have been shifted hold no `S'`, so production 0 never
applies to them and they are derived from one another as before (`derives_augment_iff`); from `S'`
there is one first step (`step_start_augment_iff`). The embedded grammar can be read off its
augmentation (`augment_inj`).
-/

namespace ShiftReduce.Grammar

variable {g h : Grammar} {α β γ : List Symbol} {text : String}

section

variable (plain : g.Plain)

include plain

theorem exists_step_of_step_augment (step : g.augment.Step (α.map Symbol.shift) γ) :
    ∃ β, g.Step α β ∧ γ = β.map Symbol.shift := by
  obtain ⟨n, p, left, right, found, hα, rfl⟩ := step
  obtain ⟨front, behind, rfl, rfl, hbehind⟩ := List.map_eq_append_iff.1 hα
  obtain ⟨x, rest, rfl, hx, rfl⟩ := List.map_eq_cons_iff.1 hbehind
  obtain ⟨a, rfl, head⟩ := Symbol.shift_eq_nonterminal.1 hx
  cases n with
  | zero =>
      rw [prod?_augment_zero plain, Option.some.injEq] at found
      subst found
      exact absurd head.symm (Nat.succ_ne_zero a)
  | succ n =>
      rw [prod?_augment_succ plain] at found
      obtain ⟨q, found', rfl⟩ := Option.map_eq_some_iff.1 found
      obtain rfl : q.head = a := Nat.succ.inj head
      exact ⟨_, ⟨n, q, front, rest, found', rfl, rfl⟩, by simp [Production.rhs_shift]⟩

theorem exists_derives_of_derives_augment (derives : g.augment.Derives (α.map Symbol.shift) γ) :
    ∃ β, g.Derives α β ∧ γ = β.map Symbol.shift := by
  induction derives with
  | refl => exact ⟨α, .refl, rfl⟩
  | tail _ step ih =>
      obtain ⟨β, before, rfl⟩ := ih
      obtain ⟨δ, last, rfl⟩ := exists_step_of_step_augment plain step
      exact ⟨δ, before.tail last, rfl⟩

theorem derives_augment_iff :
    g.augment.Derives (α.map Symbol.shift) (β.map Symbol.shift) ↔ g.Derives α β := by
  refine ⟨fun derives => ?_, derives_augment plain⟩
  obtain ⟨δ, before, same⟩ := exists_derives_of_derives_augment plain derives
  obtain rfl := (List.map_inj_right fun _ _ => Symbol.shift_injective).1 same
  exact before

theorem step_start_augment_iff :
    g.augment.Step [.nonterminal 0] γ ↔ γ = [.nonterminal (g.start + 1)] := by
  have augmented := augmented_of_plain plain
  apply Iff.intro
  · intro ⟨n, p, left, right, found, form, result⟩
    obtain ⟨rfl, here, rfl⟩ : left = [] ∧ .nonterminal p.head = Symbol.nonterminal 0 ∧
        right = [] := by
      cases left <;> simp_all
    obtain rfl := augmented.only_first n p found (Symbol.nonterminal.inj here)
    obtain rfl := Option.some.inj (found.symm.trans augmented.first)
    exact result
  · rintro rfl
    exact ⟨0, _, [], [], augmented.first, rfl, rfl⟩

theorem derives_start_augment_iff {ts : List Nat} :
    g.augment.Derives [.nonterminal 0] (ts.map .terminal) ↔
      g.Derives [.nonterminal g.start] (ts.map .terminal) := by
  rw [← derives_augment_iff plain, Symbol.map_shift_terminals]
  apply Iff.intro
  · intro derives
    rcases Relation.ReflTransGen.cases_head derives with same | ⟨γ, first, rest⟩
    · cases ts with
      | nil => cases same
      | cons t ts => cases (List.cons.inj same).1
    · obtain rfl := (step_start_augment_iff plain).1 first
      exact rest
  · exact .head ((step_start_augment_iff plain).2 rfl)

theorem nontermName_start_augment_not_mem :
    g.augment.nontermName g.augment.start ∉ g.nonterms.names := by
  have nodup := g.augment.nonterms.nodup
  rw [names_augment plain] at nodup
  rw [(augmented_of_plain plain).start_eq, nontermName_augment_zero plain]
  exact (List.nodup_cons.1 nodup).1

theorem augment_inj (plain' : h.Plain) : g.augment = h.augment ↔ g = h := by
  refine ⟨fun same => ?_, congrArg augment⟩
  have nonterms : g.nonterms = h.nonterms := by
    have names := congrArg (fun k => k.nonterms.names) same
    rw [names_augment plain, names_augment plain'] at names
    rw [← Alphabet.ofList_names g.nonterms, (List.cons.inj names).2, Alphabet.ofList_names]
  have terms : g.terms = h.terms := by
    rw [← terms_augment plain, same, terms_augment plain']
  have start : g.start = h.start := by
    have first := congrArg (fun k => k.prod? 0) same
    rw [prod?_augment_zero plain, prod?_augment_zero plain'] at first
    simpa using first
  have prods : g.prods = h.prods := by
    refine Array.ext_getElem? fun n => ?_
    have found := congrArg (fun k => k.prod? (n + 1)) same
    rw [prod?_augment_succ plain, prod?_augment_succ plain'] at found
    exact Option.map_injective (fun _ _ => Production.shift_injective) found
  have augmented := plain.not_augmented.trans plain'.not_augmented.symm
  cases g
  cases h
  simp_all

end

/-- The grammar lives on in its augmentation, which is another one for every other grammar. -/
structure Embedded (g : Grammar) : Prop where
  derives_iff : ∀ α β, g.augment.Derives (α.map Symbol.shift) (β.map Symbol.shift) ↔ g.Derives α β
  derives_start_iff : ∀ ts : List Nat,
    g.augment.Derives [.nonterminal g.augment.start] (ts.map .terminal) ↔
      g.Derives [.nonterminal g.start] (ts.map .terminal)
  fresh : g.augment.nontermName g.augment.start ∉ g.nonterms.names
  rules_eq : ∀ a < g.nonterms.size, g.augment.rules (a + 1) = (g.rules a).map (· + 1)
  ruleTable_eq : ruleTable g.augment.nonterms.size g.augment.prods.toList =
    [0] :: (ruleTable g.nonterms.size g.prods.toList).map (·.map (· + 1))
  idempotent : g.augment.augment = g.augment
  injective : ∀ text h, ofText text = .ok h → (g.augment = h.augment ↔ g = h)

theorem embedded_of_ofText (read : ofText text = .ok g) : g.Embedded where
  derives_iff _ _ := derives_augment_iff (plain_of_ofText read)
  derives_start_iff _ := by
    rw [(augmented_of_plain (plain_of_ofText read)).start_eq]
    exact derives_start_augment_iff (plain_of_ofText read)
  fresh := nontermName_start_augment_not_mem (plain_of_ofText read)
  rules_eq a _ := rules_augment_succ (plain_of_ofText read) a
  ruleTable_eq := ruleTable_augment (plain_of_ofText read)
  idempotent := augment_augment g
  injective _ _ read' := augment_inj (plain_of_ofText read) (plain_of_ofText read')

/-- A terminal is spelled like the start symbol that augmentation adds. -/
def primed : Grammar where
  nonterms := .ofList ["S"]
  terms := .ofList ["S'"]
  start := 0
  prods := #[⟨0, [.terminal 0, .nonterminal 0]⟩, ⟨0, [.empty]⟩]
  augmented := false

theorem read_primed : ofText "S -> S' S | ^" = .ok primed := by
  decide +kernel

theorem embedded_primed : primed.Embedded ∧ primed.augment.symbolName (.nonterminal 0) = "S'" ∧
    primed.augment.Derives [.nonterminal 0] [.terminal 0] ∧ primed.augment.rules 1 = [1, 2] ∧
    primed.augment ≠ scattered.augment := by
  have embedded := embedded_of_ofText read_primed
  have one : primed.Derives [.nonterminal 0] [.terminal 0] :=
    .tail (.single ⟨0, _, [], [], rfl, rfl, rfl⟩) ⟨1, _, [.terminal 0], [], rfl, rfl, rfl⟩
  refine ⟨embedded, by decide +kernel, (embedded.derives_start_iff [0]).2 one, ?_, ?_⟩
  · rw [embedded.rules_eq 0 (by decide)]
    decide
  · rw [Ne, embedded.injective _ _ read_scattered]
    decide

end ShiftReduce.Grammar
