import ShiftReduce.Proofs.Grammar.Augmentation

/-!
Spellings identify the symbols of a grammar that has been read from a text (`Plain.denotes`), and
augmentation keeps them (`symbolName_shift`). The end marker and the new start symbol are left out
of this: a terminal can be spelled like either.
-/

namespace ShiftReduce.Grammar

variable {g : Grammar} {x y : Symbol} {name : String}

/-- `x` is the one symbol of the grammar that is spelled `name`. -/
def Denotes (g : Grammar) (name : String) (x : Symbol) : Prop :=
  ∀ y, y ∈ g.symbols ∧ g.symbolName y = name ↔ y = x

theorem index?_nontermName {a : Nat} (known : a < g.nonterms.size) :
    g.nonterms.index? (g.nontermName a) = some a := by
  rw [Alphabet.index?_eq_some_iff, nontermName, Alphabet.name?, List.getElem?_eq_getElem known]
  rfl

theorem index?_termName {t : Nat} (known : t < g.terms.size) :
    g.terms.index? (g.termName t) = some t := by
  have no_end : t ≠ g.eof := Nat.ne_of_lt known
  rw [Alphabet.index?_eq_some_iff, termName, if_neg no_end, Alphabet.name?,
    List.getElem?_eq_getElem known]
  rfl

theorem termName_eof (g : Grammar) : g.termName g.eof = endSpelling := if_pos rfl

theorem isWord_endSpelling : Text.IsWord endSpelling := Text.isWord_of_toList_eq rfl (by decide)

theorem nontermName_inj {a b : Nat} (ha : a < g.nonterms.size) (hb : b < g.nonterms.size)
    (same : g.nontermName a = g.nontermName b) : a = b := by
  have index := index?_nontermName ha
  rw [same, index?_nontermName hb] at index
  exact (Option.some.inj index).symm

theorem termName_inj {t u : Nat} (ht : t < g.terms.size) (hu : u < g.terms.size)
    (same : g.termName t = g.termName u) : t = u := by
  have index := index?_termName ht
  rw [same, index?_termName hu] at index
  exact (Option.some.inj index).symm

theorem mem_names_of_index? {a : Alphabet} {i : Nat} (h : a.index? name = some i) :
    name ∈ a.names :=
  List.mem_of_getElem? (Alphabet.index?_eq_some_iff.1 h)

theorem nontermName_mem_names {a : Nat} (known : a < g.nonterms.size) :
    g.nontermName a ∈ g.nonterms.names :=
  mem_names_of_index? (index?_nontermName known)

theorem termName_mem_names {t : Nat} (known : t < g.terms.size) :
    g.termName t ∈ g.terms.names :=
  mem_names_of_index? (index?_termName known)

namespace Plain

variable (plain : g.Plain)

include plain

theorem isNonterminalName_symbolName (hx : x ∈ g.symbols) :
    Text.isNonterminalName (g.symbolName x) ↔ ∃ a, x = .nonterminal a := by
  obtain ⟨a, known, rfl⟩ | ⟨t, known, rfl⟩ := mem_symbols.1 hx
  · have upper := plain.upper _ (nontermName_mem_names known)
    simp [symbolName, upper]
  · have lower := plain.lower _ (termName_mem_names known)
    simp [symbolName, lower]

theorem symbolName_injOn (hx : x ∈ g.symbols) (hy : y ∈ g.symbols)
    (same : g.symbolName x = g.symbolName y) : x = y := by
  have alike := plain.isNonterminalName_symbolName hx
  rw [same, plain.isNonterminalName_symbolName hy] at alike
  obtain ⟨a, known, rfl⟩ | ⟨t, known, rfl⟩ := mem_symbols.1 hx
  · obtain ⟨b, rfl⟩ := alike.2 ⟨a, rfl⟩
    have known' : b < g.nonterms.size := by simpa [mem_symbols] using hy
    rw [nontermName_inj known known' same]
  · obtain ⟨b, known', rfl⟩ | ⟨u, known', rfl⟩ := mem_symbols.1 hy
    · obtain ⟨_, impossible⟩ := alike.1 ⟨b, rfl⟩
      cases impossible
    · rw [termName_inj known known' same]

theorem denotes (hx : x ∈ g.symbols) : g.Denotes (g.symbolName x) x := by
  intro y
  apply Iff.intro
  · intro ⟨hy, same⟩
    exact plain.symbolName_injOn hy hx same
  · intro same
    rw [same]
    exact ⟨hx, rfl⟩

theorem symbolName_shift (x : Symbol) : g.augment.symbolName x.shift = g.symbolName x := by
  cases x with
  | nonterminal a => exact nontermName_augment plain a
  | terminal t => simp [Symbol.shift, symbolName, termName, eof_augment, terms_augment plain]
  | empty => rfl

theorem mem_symbols_augment :
    y ∈ g.augment.symbols ↔ y = .nonterminal 0 ∨ ∃ x ∈ g.symbols, y = x.shift := by
  rw [mem_symbols, size_nonterms_augment plain, terms_augment plain]
  apply Iff.intro
  · intro mem
    obtain ⟨a, known, rfl⟩ | ⟨t, known, rfl⟩ := mem
    · cases a with
      | zero => exact .inl rfl
      | succ a =>
          exact .inr ⟨.nonterminal a,
            mem_symbols.2 (.inl ⟨a, Nat.lt_of_succ_lt_succ known, rfl⟩), rfl⟩
    · exact .inr ⟨.terminal t, mem_symbols.2 (.inr ⟨t, known, rfl⟩), rfl⟩
  · intro mem
    obtain rfl | ⟨x, hx, rfl⟩ := mem
    · exact .inl ⟨0, Nat.succ_pos _, rfl⟩
    · obtain ⟨a, known, rfl⟩ | ⟨t, known, rfl⟩ := mem_symbols.1 hx
      · exact .inl ⟨a + 1, Nat.succ_lt_succ known, rfl⟩
      · exact .inr ⟨t, known, rfl⟩

end Plain

section

variable {text : String} (read : ofText text = .ok g)

include read

theorem isWord_of_mem_names (mem : name ∈ g.nonterms.names ∨ name ∈ g.terms.names) :
    Text.IsWord name := by
  obtain ⟨rules, _, each, rfl⟩ := ofText_eq_ok_iff.1 read
  have written : ∃ w ∈ ruleWords rules, w.spelling = name := by
    rcases mem with upper | lower
    · exact ⟨_, mem_names_nontermsOf.1 upper, rfl⟩
    · exact ⟨_, mem_names_termsOf.1 lower, rfl⟩
  obtain ⟨w, hw, rfl⟩ := written
  obtain ⟨r, hr, hw⟩ := List.mem_flatMap.1 hw
  obtain ⟨line, _, ofLine⟩ := exists_of_mem_left each.flip hr
  exact Rule.isWord_of_mem_ofLine (Rule.word_mem_of_ofLine ofLine hw)

theorem isWord_symbolName (hx : x ∈ g.symbols) : Text.IsWord (g.symbolName x) := by
  obtain ⟨a, known, rfl⟩ | ⟨t, known, rfl⟩ := mem_symbols.1 hx
  · exact isWord_of_mem_names read (.inl (nontermName_mem_names known))
  · exact isWord_of_mem_names read (.inr (termName_mem_names known))

theorem isWord_symbolName_augment (hx : x ∈ g.augment.symbols) :
    Text.IsWord (g.augment.symbolName x) := by
  have plain := plain_of_ofText read
  obtain rfl | ⟨y, hy, rfl⟩ := (plain.mem_symbols_augment).1 hx
  · have start : Text.IsWord (g.nontermName g.start) :=
      isWord_of_mem_names read (.inl (nontermName_mem_names plain.start_lt))
    rw [symbolName, nontermName_augment_zero plain]
    refine ⟨by simp [augmentedName], fun c hc => ?_⟩
    have chars : c ∈ (g.nontermName g.start).toList ∨ c = '\'' := by
      simpa [augmentedName] using hc
    rcases chars with mem | rfl
    · exact start.2 c mem
    · decide
  · rw [plain.symbolName_shift]
    exact isWord_symbolName read hy

end

end ShiftReduce.Grammar
