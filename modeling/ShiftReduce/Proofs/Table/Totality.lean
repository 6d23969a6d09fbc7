import ShiftReduce.Proofs.Table.Filling

/-!
The construction never gets stuck. In it every loop runs for as long as its own condition says, and
every look-up by number is checked: of productions, of nonterminals, of the lists of production
numbers, of states and of cells. For each text it is defined and gives what `ofText` gives, a
construction or a refusal (`total_ofText`); the grammar may be cyclic, empty or leave nonterminals
without productions.
-/

namespace ShiftReduce

namespace Construction

/-- Not defined where a loop does not end or a look-up fails. -/
def ofGrammar? (g : Grammar) : Part Construction := do
  let grammar := g.augment
  let (sets, _) ← TerminalSets.fixpoint? grammar
  let automaton ← Automaton.build? grammar
  let table ← Part.ofOption (Table.fill? grammar sets automaton)
  return ⟨grammar, sets, automaton, table⟩

def ofText? (text : String) : Part (Except Refusal Construction) :=
  match Grammar.ofText text with
  | .error refusal => return .error refusal
  | .ok g => return .ok (← ofGrammar? g)

end Construction

namespace Grammar

variable {g : Grammar}

/-- Each stage ends, with no look-up that fails; in particular, what can follow a nonterminal has a
column in every row. -/
structure Buildable (g : Grammar) : Prop where
  fixpoint? : TerminalSets.fixpoint? g =
    Part.some (TerminalSets.ofGrammar g, TerminalSets.passes g)
  passes_le : TerminalSets.passes g ≤ g.nonterms.size * (2 * g.terms.size + 2) + 1
  closure? : ∀ items : ItemSet, items.fits g → items.closure? g = Part.some (items.closure g)
  goto? : ∀ items : ItemSet, items.fits g → ∀ x, items.goto? g x = Part.some (items.goto g x)
  automaton : Automaton.build? g = Part.some (Automaton.ofGrammar g)
  table : Table.fill? g (TerminalSets.ofGrammar g) (Automaton.ofGrammar g) =
    some (Table.build g (TerminalSets.ofGrammar g) (Automaton.ofGrammar g))
  column_lt : ∀ row ∈ (Table.build g (TerminalSets.ofGrammar g) (Automaton.ofGrammar g)).rows,
    ∀ a, ∀ t ∈ (TerminalSets.ofGrammar g).follow a, g.nonterms.size + t < row.length

theorem WellFormed.buildable (wf : g.WellFormed) {p : Production} (first : g.prod? 0 = some p) :
    g.Buildable where
  fixpoint? := TerminalSets.fixpoint?_eq wf
  passes_le := TerminalSets.passes_le wf
  closure? _ fits := ItemSet.closure?_eq wf fits
  goto? _ fits := ItemSet.goto?_eq wf fits
  automaton := Automaton.build?_eq wf first
  table := Table.fill?_eq (Table.fillable_ofGrammar wf first)
  column_lt row mem a t follow := by
    have bound := (TerminalSets.fits_ofGrammar wf).le_of_mem_follow follow
    rw [Table.length_of_mem_rows mem]
    exact Nat.lt_succ_of_le (Nat.add_le_add_left bound _)

theorem exists_prod?_zero {text : String} (read : ofText text = .ok g) :
    ∃ p, g.prod? 0 = some p := by
  have represented := represented_of_read read
  have start : .nonterminal g.start ∈ g.symbols :=
    mem_symbols.2 (.inl ⟨g.start, represented.start_lt, rfl⟩)
  obtain ⟨p, hp, _⟩ := represented.occurs _ start
  obtain ⟨n, known, _⟩ := Array.getElem_of_mem hp
  exact ⟨_, Array.getElem?_eq_getElem (Nat.zero_lt_of_lt known)⟩

end Grammar

namespace Construction

theorem ofGrammar?_eq {g : Grammar} (buildable : g.augment.Buildable) :
    ofGrammar? g = Part.some (ofGrammar g) := by
  simp only [ofGrammar?, buildable.fixpoint?, buildable.automaton, buildable.table, Part.coe_some,
    Part.bind_eq_bind, Part.bind_some]
  rfl

/-- The grammar of a text can be built on before and after augmentation, and so there is an answer
to every text. -/
structure Total (text : String) : Prop where
  answers : ofText? text = Part.some (ofText text)
  plain : ∀ g, Grammar.ofText text = .ok g → g.Buildable
  augmented : ∀ g, Grammar.ofText text = .ok g → g.augment.Buildable

theorem total_ofText (text : String) : Total text := by
  have plain (g : Grammar) (read : Grammar.ofText text = .ok g) : g.Buildable := by
    obtain ⟨p, first⟩ := Grammar.exists_prod?_zero read
    exact (Grammar.plain_of_ofText read).toWellFormed.buildable first
  have augmented (g : Grammar) (read : Grammar.ofText text = .ok g) : g.augment.Buildable := by
    have augmented := Grammar.augmented_of_plain (Grammar.plain_of_ofText read)
    exact augmented.toWellFormed.buildable augmented.first
  refine ⟨?_, plain, augmented⟩
  cases read : Grammar.ofText text with
  | error refusal =>
      rw [ofText?, ofText, read]
      rfl
  | ok g =>
      simp only [ofText?, ofText, read, ofGrammar?_eq (augmented g read), Part.bind_eq_bind,
        Part.bind_some]
      rfl

end Construction

end ShiftReduce
