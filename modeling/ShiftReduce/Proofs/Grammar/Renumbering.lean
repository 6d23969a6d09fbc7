import ShiftReduce.ItemSet
import ShiftReduce.Proofs.Grammar.Derivation
import ShiftReduce.Proofs.Numbering.Matching

/-!
Changes of the numbers by which symbols, productions and states are known. A grammar that is
another one by other numbers (`Relates`) spells the same, and derivations go over to it
(`Relates.derives_iff`).
-/

namespace ShiftReduce

structure Renumbering where
  nonterm : Nat ≃ Nat
  term : Nat ≃ Nat
  prod : Nat ≃ Nat
  state : Nat ≃ Nat

namespace Renumbering

def symm (r : Renumbering) : Renumbering where
  nonterm := r.nonterm.symm
  term := r.term.symm
  prod := r.prod.symm
  state := r.state.symm

def symbol (r : Renumbering) : Symbol → Symbol
  | .nonterminal a => .nonterminal (r.nonterm a)
  | .terminal t => .terminal (r.term t)
  | .empty => .empty

def production (r : Renumbering) (p : Production) : Production :=
  ⟨r.nonterm p.head, p.body.map r.symbol⟩

def item (r : Renumbering) (i : Item) : Item := ⟨r.prod i.prod, i.dot⟩

/-- `h` is `g` by other numbers. -/
structure Relates (r : Renumbering) (g h : Grammar) : Prop where
  nonterms : ∀ a, h.nonterms.name? (r.nonterm a) = g.nonterms.name? a
  terms : ∀ t, h.terms.name? (r.term t) = g.terms.name? t
  prods : ∀ n, h.prod? (r.prod n) = (g.prod? n).map r.production
  start : r.nonterm g.start = h.start
  eof : r.term g.eof = h.eof
  first : r.prod 0 = 0

variable {r : Renumbering} {g h : Grammar} {x : Symbol} {p : Production} {i : Item}
  {α β : List Symbol}

@[simp] theorem symm_symm : r.symm.symm = r := rfl

@[simp] theorem symm_nonterm : r.symm.nonterm = r.nonterm.symm := rfl

@[simp] theorem symm_term : r.symm.term = r.term.symm := rfl

@[simp] theorem symm_prod : r.symm.prod = r.prod.symm := rfl

@[simp] theorem symm_state : r.symm.state = r.state.symm := rfl

@[simp] theorem symm_symbol : r.symm.symbol (r.symbol x) = x := by
  cases x <;> simp [symbol]

@[simp] theorem symbol_symm : r.symbol (r.symm.symbol x) = x := symm_symbol (r := r.symm)

@[simp] theorem symm_map_symbol : (α.map r.symbol).map r.symm.symbol = α := by
  simp [Function.comp_def]

@[simp] theorem symm_production : r.symm.production (r.production p) = p := by
  rw [production, production, symm_map_symbol, symm_nonterm, Equiv.symm_apply_apply]

@[simp] theorem symm_item : r.symm.item (r.item i) = i := by
  simp [item]

@[simp] theorem item_symm : r.item (r.symm.item i) = i := symm_item (r := r.symm)

theorem symbol_injective : Function.Injective r.symbol :=
  Function.LeftInverse.injective fun _ => symm_symbol

theorem production_injective : Function.Injective r.production :=
  Function.LeftInverse.injective fun _ => symm_production

theorem symbol_eq_empty : r.symbol x = .empty ↔ x = .empty := by
  cases x <;> simp [symbol]

theorem rhs_production : (r.production p).rhs = p.rhs.map r.symbol :=
  Production.rhs_map (fun _ => symbol_eq_empty) (r.nonterm p.head) p

namespace Relates

variable (rel : r.Relates g h)

include rel

theorem symm : r.symm.Relates h g where
  nonterms a := by rw [← rel.nonterms, symm_nonterm, Equiv.apply_symm_apply]
  terms t := by rw [← rel.terms, symm_term, Equiv.apply_symm_apply]
  prods n := by
    have there := rel.prods (r.prod.symm n)
    rw [Equiv.apply_symm_apply] at there
    rw [there, Option.map_map, symm_prod]
    simp [Function.comp_def]
  start := by rw [← rel.start, symm_nonterm, Equiv.symm_apply_apply]
  eof := by rw [← rel.eof, symm_term, Equiv.symm_apply_apply]
  first := by
    rw [symm_prod, Equiv.symm_apply_eq]
    exact rel.first.symm

theorem nonterm_lt_iff {a : Nat} : r.nonterm a < h.nonterms.size ↔ a < g.nonterms.size := by
  have beyond : h.nonterms.name? (r.nonterm a) = none ↔ g.nonterms.name? a = none := by
    rw [rel.nonterms]
  simpa [Alphabet.name?, Alphabet.size] using not_congr beyond

theorem nonterms_size : h.nonterms.size = g.nonterms.size :=
  eq_of_lt_iff fun _ => rel.nonterm_lt_iff

theorem terms_size : h.terms.size = g.terms.size := by
  refine eq_of_lt_iff (e := r.term) fun t => ?_
  have beyond : h.terms.name? (r.term t) = none ↔ g.terms.name? t = none := by rw [rel.terms]
  simpa [Alphabet.name?, Alphabet.size] using not_congr beyond

theorem prods_size : h.prods.size = g.prods.size := by
  refine eq_of_lt_iff (e := r.prod) fun n => ?_
  have beyond : h.prod? (r.prod n) = none ↔ g.prod? n = none := by simp [rel.prods]
  simpa [Grammar.prod?] using not_congr beyond

theorem nontermName (a : Nat) : h.nontermName (r.nonterm a) = g.nontermName a := by
  rw [Grammar.nontermName, rel.nonterms, Grammar.nontermName]

theorem termName (t : Nat) : h.termName (r.term t) = g.termName t := by
  have marker : r.term t = h.eof ↔ t = g.eof := by
    rw [← rel.eof, r.term.apply_eq_iff_eq]
  rw [Grammar.termName, Grammar.termName, rel.terms]
  simp only [marker]

theorem symbolName (x : Symbol) : h.symbolName (r.symbol x) = g.symbolName x := by
  cases x with
  | nonterminal a => exact rel.nontermName a
  | terminal t => exact rel.termName t
  | empty => rfl

theorem map_symbolName (xs : List Symbol) :
    (xs.map r.symbol).map h.symbolName = xs.map g.symbolName := by
  rw [List.map_map]
  exact List.map_congr_left fun x _ => rel.symbolName x

theorem productionText (p : Production) :
    h.productionText (r.production p) = g.productionText p := by
  rw [Grammar.productionText, Grammar.productionText, Grammar.bodyText, Grammar.bodyText,
    production, rel.nontermName, rel.map_symbolName]

theorem index? (name : String) : h.terms.index? name = (g.terms.index? name).map r.term := by
  refine Option.ext fun t => ?_
  rw [Alphabet.index?_eq_some_iff, Option.map_eq_some_iff]
  apply Iff.intro
  · intro here
    refine ⟨r.term.symm t, ?_, r.term.apply_symm_apply t⟩
    rw [Alphabet.index?_eq_some_iff, ← rel.terms, Equiv.apply_symm_apply, here]
  · rintro ⟨u, here, rfl⟩
    rw [rel.terms, ← Alphabet.index?_eq_some_iff, here]

theorem next? (i : Item) : (r.item i).next? h = (i.next? g).map r.symbol := by
  rw [Item.next?, Item.next?, item, rel.prods]
  cases g.prod? i.prod with
  | none => rfl
  | some p => simp [rhs_production]

theorem derives (derives : g.Derives α β) : h.Derives (α.map r.symbol) (β.map r.symbol) := by
  refine derives.map fun n p found => ⟨r.prod n, r.production p, ?_, rfl, rhs_production⟩
  rw [rel.prods, found, Option.map_some]

theorem derives_iff : h.Derives (α.map r.symbol) (β.map r.symbol) ↔ g.Derives α β := by
  refine ⟨fun derives => ?_, rel.derives⟩
  simpa only [symm_map_symbol] using rel.symm.derives derives

end Relates

end Renumbering

end ShiftReduce
