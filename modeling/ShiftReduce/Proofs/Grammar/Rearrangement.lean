import ShiftReduce.Proofs.Grammar.Renumbering
import ShiftReduce.Proofs.Grammar.Representation

/-!
Grammars that spell the same productions. How lines and alternatives are arranged decides on the
numbers only: where the start symbols and the productions are spelled alike, one augmented grammar
is the other by other numbers (`exists_relates`).
-/

namespace ShiftReduce.Grammar

theorem map_eq_map_of_map_eq {α β γ δ : Type} {xs : List α} {ys : List β} {f : α → γ} {f' : β → γ}
    {k : α → δ} {k' : β → δ} (same : xs.map f = ys.map f')
    (carry : ∀ x ∈ xs, ∀ y ∈ ys, f x = f' y → k x = k' y) : xs.map k = ys.map k' := by
  induction xs generalizing ys with
  | nil => rw [List.map_eq_nil_iff.1 same.symm, List.map_nil, List.map_nil]
  | cons x xs ih =>
      cases ys with
      | nil => cases same
      | cons y ys =>
          obtain ⟨first, rest⟩ := List.cons.inj same
          have carry_rest : ∀ v ∈ xs, ∀ w ∈ ys, f v = f' w → k v = k' w := fun v hv w hw =>
            carry v (List.mem_cons_of_mem x hv) w (List.mem_cons_of_mem y hw)
          rw [List.map_cons, List.map_cons, carry x List.mem_cons_self y List.mem_cons_self first,
            ih rest carry_rest]

variable {g h : Grammar} {name : String} {x y : Symbol} {p q : Production} {a b : Nat}

/-- The same start symbol and the same productions by their spellings, in whatever order. -/
structure SameSpelling (g h : Grammar) : Prop where
  start : g.nontermName g.start = h.nontermName h.start
  productions : ∀ q, q ∈ g.spelledProductions ↔ q ∈ h.spelledProductions

theorem SameSpelling.symm (same : g.SameSpelling h) : h.SameSpelling g :=
  ⟨same.start.symm, fun q => (same.productions q).symm⟩

theorem SameSpelling.exists_production (same : g.SameSpelling h) (hp : p ∈ g.prods) :
    ∃ q ∈ h.prods, h.spell q = g.spell p := by
  have mem := (same.productions _).1 (List.mem_map_of_mem (Array.mem_toList_iff.2 hp))
  obtain ⟨q, hq, spelled⟩ := List.mem_map.1 mem
  exact ⟨q, Array.mem_toList_iff.1 hq, spelled⟩

theorem name?_eq_some_nontermName (known : a < g.nonterms.size) :
    g.nonterms.name? a = some (g.nontermName a) :=
  Alphabet.index?_eq_some_iff.1 (index?_nontermName known)

theorem name?_eq_some_termName (known : a < g.terms.size) :
    g.terms.name? a = some (g.termName a) :=
  Alphabet.index?_eq_some_iff.1 (index?_termName known)

theorem exists_nontermName (mem : name ∈ g.nonterms.names) :
    ∃ a < g.nonterms.size, g.nontermName a = name := by
  obtain ⟨a, here⟩ := List.getElem?_of_mem mem
  have known : a < g.nonterms.size := (List.getElem?_eq_some_iff.1 here).1
  exact ⟨a, known, Option.some.inj ((name?_eq_some_nontermName known).symm.trans here)⟩

theorem exists_termName (mem : name ∈ g.terms.names) :
    ∃ t < g.terms.size, g.termName t = name := by
  obtain ⟨t, here⟩ := List.getElem?_of_mem mem
  have known : t < g.terms.size := (List.getElem?_eq_some_iff.1 here).1
  exact ⟨t, known, Option.some.inj ((name?_eq_some_termName known).symm.trans here)⟩

/-- What a text presents: symbols of productions show their kind by their spelling, and every symbol
occurs. -/
structure Presented (g : Grammar) : Prop extends g.Plain where
  represented : g.Represented
  kinds : ∀ p ∈ g.prods, ∀ x ∈ p.body, (x = .empty ↔ g.symbolName x = emptySpelling) ∧
    ((∃ a, x = .nonterminal a) ↔ Text.isNonterminalName (g.symbolName x))

theorem presented_of_ofText {text : String} (read : ofText text = .ok g) : g.Presented where
  toPlain := plain_of_ofText read
  represented := represented_of_read read
  kinds := by
    obtain ⟨_, _, presents⟩ := presents_of_ofText read
    exact presents.kinds

namespace SameSpelling

variable (same : g.SameSpelling h) (pg : g.Presented) (ph : h.Presented)

include same pg ph

theorem exists_symbol (hx : x ∈ g.symbols) : ∃ y ∈ h.symbols, h.symbolName y = g.symbolName x := by
  obtain ⟨p, hp, here⟩ := pg.represented.occurs x hx
  obtain ⟨q, hq, spelled⟩ := same.exists_production hp
  obtain ⟨head, body⟩ := Prod.mk.inj spelled
  rcases here with rfl | here
  · exact ⟨.nonterminal q.head, mem_symbols.2 (.inl ⟨_, ph.head_lt q hq, rfl⟩), head⟩
  · have mem : g.symbolName x ∈ q.body.map h.symbolName := body ▸ List.mem_map_of_mem here
    obtain ⟨y, hy, name⟩ := List.mem_map.1 mem
    refine ⟨y, ?_, name⟩
    cases y with
    | nonterminal b => exact mem_symbols.2 (.inl ⟨b, ph.nonterminal_lt q hq b hy, rfl⟩)
    | terminal u => exact mem_symbols.2 (.inr ⟨u, ph.terminal_lt q hq u hy, rfl⟩)
    | empty =>
        obtain rfl := (pg.kinds p hp x here).1.2 name.symm
        simp [mem_symbols] at hx

theorem mem_nonterms_of_mem (mem : name ∈ g.nonterms.names) : name ∈ h.nonterms.names := by
  obtain ⟨a, known, rfl⟩ := exists_nontermName mem
  obtain ⟨y, hy, name⟩ := same.exists_symbol pg ph (mem_symbols.2 (.inl ⟨a, known, rfl⟩))
  have upper : Text.isNonterminalName (h.symbolName y) := name ▸ pg.upper _ mem
  obtain ⟨b, rfl⟩ := (ph.isNonterminalName_symbolName hy).1 upper
  have known' : b < h.nonterms.size := by simpa [mem_symbols] using hy
  rw [show g.nontermName a = h.nontermName b from name.symm]
  exact mem_names_of_index? (index?_nontermName known')

theorem mem_terms_of_mem (mem : name ∈ g.terms.names) : name ∈ h.terms.names := by
  obtain ⟨t, known, rfl⟩ := exists_termName mem
  obtain ⟨y, hy, name⟩ := same.exists_symbol pg ph (mem_symbols.2 (.inr ⟨t, known, rfl⟩))
  have lower : ¬ Text.isNonterminalName (h.symbolName y) := by
    rw [name, show g.symbolName (.terminal t) = g.termName t from rfl, pg.lower _ mem]
    exact Bool.false_ne_true
  obtain ⟨b, _, rfl⟩ | ⟨u, known', rfl⟩ := mem_symbols.1 hy
  · exact absurd ((ph.isNonterminalName_symbolName hy).2 ⟨b, rfl⟩) lower
  · rw [show g.termName t = h.termName u from name.symm]
    exact mem_names_of_index? (index?_termName known')

theorem mem_nonterms_iff (name : String) : name ∈ g.nonterms.names ↔ name ∈ h.nonterms.names :=
  ⟨same.mem_nonterms_of_mem pg ph, same.symm.mem_nonterms_of_mem ph pg⟩

theorem mem_terms_iff (name : String) : name ∈ g.terms.names ↔ name ∈ h.terms.names :=
  ⟨same.mem_terms_of_mem pg ph, same.symm.mem_terms_of_mem ph pg⟩

theorem mem_nonterms_augment_iff (name : String) :
    name ∈ g.augment.nonterms.names ↔ name ∈ h.augment.nonterms.names := by
  rw [names_augment pg.toPlain, names_augment ph.toPlain, List.mem_cons, List.mem_cons,
    same.start, same.mem_nonterms_iff pg ph]

theorem mem_terms_augment_iff (name : String) :
    name ∈ g.augment.terms.names ↔ name ∈ h.augment.terms.names := by
  rw [terms_augment pg.toPlain, terms_augment ph.toPlain, same.mem_terms_iff pg ph]

/-- The change that goes by the spellings of symbols, and leaves productions and states alone. -/
def bySpelling : Renumbering where
  nonterm := matching g.augment.nonterms.nodup h.augment.nonterms.nodup
    (same.mem_nonterms_augment_iff pg ph)
  term := matching g.augment.terms.nodup h.augment.terms.nodup (same.mem_terms_augment_iff pg ph)
  prod := .refl Nat
  state := .refl Nat

theorem nonterm_eq (known : a < g.augment.nonterms.size)
    (name : g.augment.nonterms.name? a = h.augment.nonterms.name? b) :
    (same.bySpelling pg ph).nonterm a = b :=
  matching_eq g.augment.nonterms.nodup h.augment.nonterms.nodup
    (same.mem_nonterms_augment_iff pg ph) known name

theorem nonterm_zero : (same.bySpelling pg ph).nonterm 0 = 0 := by
  apply same.nonterm_eq pg ph
  · rw [size_nonterms_augment pg.toPlain]
    exact Nat.succ_pos _
  · rw [Alphabet.name?, Alphabet.name?, names_augment pg.toPlain, names_augment ph.toPlain,
      List.getElem?_cons_zero, List.getElem?_cons_zero, same.start]

theorem nonterm_succ (known : a < g.nonterms.size) (known' : b < h.nonterms.size)
    (name : g.nontermName a = h.nontermName b) :
    (same.bySpelling pg ph).nonterm (a + 1) = b + 1 := by
  apply same.nonterm_eq pg ph
  · rw [size_nonterms_augment pg.toPlain]
    exact Nat.succ_lt_succ known
  · rw [Alphabet.name?, Alphabet.name?, names_augment pg.toPlain, names_augment ph.toPlain,
      List.getElem?_cons_succ, List.getElem?_cons_succ]
    exact (name?_eq_some_nontermName known).trans (name ▸ (name?_eq_some_nontermName known').symm)

theorem term_eq {t u : Nat} (known : t < g.terms.size) (known' : u < h.terms.size)
    (name : g.termName t = h.termName u) : (same.bySpelling pg ph).term t = u := by
  refine matching_eq g.augment.terms.nodup h.augment.terms.nodup
    (same.mem_terms_augment_iff pg ph) ?_ ?_
  · rw [terms_augment pg.toPlain]
    exact known
  · rw [terms_augment pg.toPlain, terms_augment ph.toPlain]
    exact (name?_eq_some_termName known).trans (name ▸ (name?_eq_some_termName known').symm)

theorem term_eof : (same.bySpelling pg ph).term g.augment.eof = h.augment.eof := by
  have nodup := g.augment.terms.nodup
  have nodup' := h.augment.terms.nodup
  have members := same.mem_terms_augment_iff pg ph
  exact (matching_of_le nodup nodup' members (Nat.le_refl _)).trans
    (length_eq_of_nodup nodup nodup' members)

theorem symbol_shift (hp : p ∈ g.prods) (hq : q ∈ h.prods) (hx : x ∈ p.body) (hy : y ∈ q.body)
    (name : g.symbolName x = h.symbolName y) :
    (same.bySpelling pg ph).symbol x.shift = y.shift := by
  obtain ⟨empty, nonterminal⟩ := pg.kinds p hp x hx
  obtain ⟨empty', nonterminal'⟩ := ph.kinds q hq y hy
  rw [name] at empty nonterminal
  cases x with
  | empty => rw [empty'.2 (empty.1 rfl)]; rfl
  | nonterminal a =>
      obtain ⟨b, rfl⟩ := nonterminal'.2 (nonterminal.1 ⟨a, rfl⟩)
      exact congrArg Symbol.nonterminal (same.nonterm_succ pg ph (pg.nonterminal_lt p hp a hx)
        (ph.nonterminal_lt q hq b hy) name)
  | terminal t =>
      cases y with
      | empty => cases empty.2 (empty'.1 rfl)
      | nonterminal b => cases (nonterminal.2 (nonterminal'.1 ⟨b, rfl⟩)).choose_spec
      | terminal u =>
          exact congrArg Symbol.terminal
            (same.term_eq pg ph (pg.terminal_lt p hp t hx) (ph.terminal_lt q hq u hy) name)

theorem production_shift (hp : p ∈ g.prods) (hq : q ∈ h.prods) (spelled : h.spell q = g.spell p) :
    (same.bySpelling pg ph).production p.shift = q.shift := by
  obtain ⟨head, body⟩ := Prod.mk.inj spelled
  have body_eq : p.body.map (fun x => (same.bySpelling pg ph).symbol x.shift) =
      q.body.map Symbol.shift :=
    map_eq_map_of_map_eq body.symm fun x hx y hy => same.symbol_shift pg ph hp hq hx hy
  rw [Renumbering.production, Production.shift, Production.shift, List.map_map,
    same.nonterm_succ pg ph (pg.head_lt p hp) (ph.head_lt q hq) head.symm]
  exact congrArg _ body_eq

theorem production_first : (same.bySpelling pg ph).production ⟨0, [.nonterminal (g.start + 1)]⟩ =
    ⟨0, [.nonterminal (h.start + 1)]⟩ := by
  have start := same.nonterm_succ pg ph pg.start_lt ph.start_lt same.start
  simp [Renumbering.production, Renumbering.symbol, same.nonterm_zero pg ph, start]

theorem production_mem (hp : p ∈ g.augment.prods) :
    (same.bySpelling pg ph).production p ∈ h.augment.prods := by
  rw [mem_prods_augment ph.toPlain]
  obtain rfl | ⟨p, own, rfl⟩ := (mem_prods_augment pg.toPlain).1 hp
  · exact .inl (same.production_first pg ph)
  · obtain ⟨q, hq, spelled⟩ := same.exists_production own
    exact .inr ⟨q, hq, same.production_shift pg ph own hq spelled⟩

theorem exists_production_eq (hq : q ∈ h.augment.prods) :
    ∃ p ∈ g.augment.prods, (same.bySpelling pg ph).production p = q := by
  obtain rfl | ⟨q, own, rfl⟩ := (mem_prods_augment ph.toPlain).1 hq
  · exact ⟨_, mem_of_prod? (augmented_of_plain pg.toPlain).first, same.production_first pg ph⟩
  · obtain ⟨p, hp, spelled⟩ := same.symm.exists_production own
    exact ⟨p.shift, (mem_prods_augment pg.toPlain).2 (.inr ⟨p, hp, rfl⟩),
      same.production_shift pg ph hp own spelled.symm⟩

theorem exists_relates : ∃ r : Renumbering, r.Relates g.augment h.augment := by
  have aug := augmented_of_plain pg.toPlain
  have aug' := augmented_of_plain ph.toPlain
  let r₀ := same.bySpelling pg ph
  have nodup : (g.augment.prods.toList.map r₀.production).Nodup :=
    (pg.represented.augment pg.toPlain).distinct.map Renumbering.production_injective
  have nodup' := (ph.represented.augment ph.toPlain).distinct
  have members : ∀ q,
      q ∈ g.augment.prods.toList.map r₀.production ↔ q ∈ h.augment.prods.toList := by
    intro q
    rw [List.mem_map, Array.mem_toList_iff]
    apply Iff.intro
    · rintro ⟨p, hp, rfl⟩
      exact same.production_mem pg ph (Array.mem_toList_iff.1 hp)
    · intro hq
      obtain ⟨p, hp, rfl⟩ := same.exists_production_eq pg ph hq
      exact ⟨p, Array.mem_toList_iff.2 hp, rfl⟩
  -- Symbols are matched by their spellings, and productions by what the symbols make of them.
  refine ⟨{ r₀ with prod := matching nodup nodup' members }, ?_, ?_, ?_, ?_, ?_, ?_⟩
  · exact getElem?_matching g.augment.nonterms.nodup h.augment.nonterms.nodup
      (same.mem_nonterms_augment_iff pg ph)
  · exact getElem?_matching g.augment.terms.nodup h.augment.terms.nodup
      (same.mem_terms_augment_iff pg ph)
  · intro n
    have found := getElem?_matching nodup nodup' members n
    rwa [List.getElem?_map, Array.getElem?_toList, Array.getElem?_toList] at found
  · rw [aug.start_eq, aug'.start_eq]
    exact same.nonterm_zero pg ph
  · exact same.term_eof pg ph
  · have first : (g.augment.prods.toList.map r₀.production)[0]? = h.augment.prods.toList[0]? := by
      rw [List.getElem?_map, Array.getElem?_toList, Array.getElem?_toList]
      exact (congrArg _ aug.first).trans
        ((congrArg some (same.production_first pg ph)).trans aug'.first.symm)
    refine matching_eq nodup nodup' members ?_ first
    rw [List.length_map, Array.length_toList]
    exact (Array.getElem?_eq_some_iff.1 aug.first).1

end SameSpelling

end ShiftReduce.Grammar
