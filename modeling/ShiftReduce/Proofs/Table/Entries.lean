import ShiftReduce.Construction
import ShiftReduce.Proofs.Numbering.FirstOccurrences
import ShiftReduce.Proofs.Automaton.ViablePrefix
import ShiftReduce.Proofs.TerminalSets.Passes

/-!
What the cells of a built table hold. `Offers` collects the entries that the items and transitions
of a state give for a terminal, and a cell is made of these (`exists_entries`): it holds the one
that is offered, or else all that compete as a conflict (`action_of_offers`, `offers_of_action`).
Gotos are the transitions over nonterminals (`goto_eq_transition`).
-/

namespace ShiftReduce

namespace Action

variable {e : Action} {entries : List Action}

theorem cell?_of_mem (h : e ∈ entries) :
    cell? entries = some e ∨ ∃ es, cell? entries = some (.conflict es) := by
  cases entries with
  | nil => cases h
  | cons a rest =>
      cases rest with
      | nil => exact .inl (by rw [List.mem_singleton.1 h]; rfl)
      | cons b rest => exact .inr ⟨_, rfl⟩

theorem mem_of_cell? (h : cell? entries = some e) : e ∈ entries ∨ e = .conflict entries := by
  cases entries with
  | nil => cases h
  | cons a rest =>
      cases rest with
      | nil =>
          cases h
          exact .inl List.mem_cons_self
      | cons b rest =>
          cases h
          exact .inr rfl

theorem eq_of_cell?_eq_conflict {es : List Action} (flat : ∀ e ∈ entries, ∀ es, e ≠ .conflict es)
    (h : cell? entries = some (.conflict es)) : es = entries := by
  cases mem_of_cell? h with
  | inl mem => exact absurd rfl (flat _ mem es)
  | inr same => exact conflict.inj same

end Action

namespace Table

variable {g : Grammar} {ff : TerminalSets} {row : Transitions} {t : Nat} {i : Item}
  {mark : Option Symbol} {e : Action}

inductive Entry (g : Grammar) (ff : TerminalSets) (row : Transitions) (t : Nat) (i : Item) :
    Option Symbol → Action → Prop
  | shift {j : Nat} (target : row.lookup (.terminal t) = some j) :
      Entry g ff row t i (some (.terminal t)) (.shift j)
  | accept (zero : i.prod = 0) (eof : t = g.eof) : Entry g ff row t i none .accept
  | reduce {p : Production} (positive : i.prod ≠ 0) (found : g.prod? i.prod = some p)
      (follow : t ∈ ff.follow p.head) : Entry g ff row t i none (.reduce i.prod)

theorem entryFor_eq_some_iff :
    entryFor g ff row t (i, mark) = some e ↔ Entry g ff row t i mark e := by
  apply Iff.intro
  · intro h
    cases mark with
    | some x =>
        cases x with
        | terminal u =>
            obtain ⟨rfl, h⟩ := Option.ite_none_right_eq_some.1 h
            obtain ⟨j, target, rfl⟩ := Option.map_eq_some_iff.1 h
            exact .shift target
        | nonterminal a => cases h
        | empty => cases h
    | none =>
        by_cases zero : i.prod = 0
        · rw [entryFor, if_pos zero] at h
          obtain ⟨eof, h⟩ := Option.ite_none_right_eq_some.1 h
          cases h
          exact .accept zero eof
        · rw [entryFor, if_neg zero] at h
          cases found : g.prod? i.prod with
          | none => simp [found] at h
          | some p =>
              simp only [found, Option.ite_none_right_eq_some, Option.some.injEq] at h
              obtain ⟨follow, rfl⟩ := h
              exact .reduce zero found follow
  · intro entry
    cases entry with
    | shift target => simp [entryFor, target]
    | accept zero eof => simp [entryFor, zero, eof]
    | reduce positive found follow => simp [entryFor, positive, found, follow]

end Table

namespace Construction

variable {c : Construction} {g : Grammar} {start s t : Nat} {e : Action}

/-- Everything is built for one augmented grammar, in which `S' -> S` has the symbol numbered
`start` on the right. -/
structure Built (c : Construction) (start : Nat) : Prop where
  augmented : c.grammar.Augmented start
  sets_eq : c.sets = TerminalSets.ofGrammar c.grammar
  automaton_eq : c.automaton = Automaton.ofGrammar c.grammar
  table_eq : c.table = Table.build c.grammar c.sets c.automaton

theorem built_ofGrammar (plain : g.Plain) : (ofGrammar g).Built (g.start + 1) where
  augmented := Grammar.augmented_of_plain plain
  sets_eq := rfl
  automaton_eq := rfl
  table_eq := rfl

theorem ofText_of_read {text : String} (read : Grammar.ofText text = .ok g) :
    ofText text = .ok (ofGrammar g) := by
  rw [ofText, read]
  rfl

theorem eq_ofGrammar {text : String} (read : Grammar.ofText text = .ok g)
    (built : ofText text = .ok c) : c = ofGrammar g :=
  Except.ok.inj (built.symm.trans (ofText_of_read read))

theorem exists_read {text : String} (built : ofText text = .ok c) :
    ∃ g, Grammar.ofText text = .ok g ∧ c = ofGrammar g := by
  cases read : Grammar.ofText text with
  | error e =>
      rw [ofText, read] at built
      cases built
  | ok g => exact ⟨g, rfl, eq_ofGrammar read built⟩

inductive Offers (c : Construction) (s t : Nat) : Action → Prop
  | shift {j : Nat} (target : c.automaton.transition s (.terminal t) = some j) :
      Offers c s t (.shift j)
  | reduce {n : Nat} {p : Production} {items : ItemSet} (positive : n ≠ 0)
      (found : c.grammar.prod? n = some p) (state : c.automaton.states[s]? = some items)
      (complete : ⟨n, p.rhs.length⟩ ∈ items) (follow : t ∈ c.sets.follow p.head) :
      Offers c s t (.reduce n)
  | accept {items : ItemSet} (state : c.automaton.states[s]? = some items)
      (complete : ⟨0, 1⟩ ∈ items) (eof : t = c.grammar.eof) : Offers c s t .accept

theorem Offers.ne_conflict (offers : c.Offers s t e) (es : List Action) : e ≠ .conflict es := by
  cases offers <;> simp

namespace Built

variable (built : c.Built start)

include built

theorem exists_first : ∃ p, c.grammar.prod? 0 = some p := ⟨_, built.augmented.first⟩

theorem sets_settled : c.sets.Settled c.grammar := by
  rw [built.sets_eq]
  exact TerminalSets.settled_ofGrammar built.augmented.toWellFormed

theorem inRange_of_mem {items : ItemSet} (state : c.automaton.states[s]? = some items) :
    ∀ i ∈ items, i.InRange c.grammar := by
  obtain ⟨p, first⟩ := built.exists_first
  rw [built.automaton_eq] at state
  obtain ⟨kernels, explored, full⟩ := Automaton.exists_explored first
  rw [explored.states_eq_map full, List.getElem?_map, Option.map_eq_some_iff] at state
  obtain ⟨kernel, hk, rfl⟩ := state
  exact ItemSet.inRange_closure (explored.inRange first kernel (List.mem_of_getElem? hk))

theorem complete_iff {items : ItemSet} (state : c.automaton.states[s]? = some items) {i : Item}
    (hi : i ∈ items) {p : Production} (found : c.grammar.prod? i.prod = some p) :
    i.next? c.grammar = none ↔ i.dot = p.rhs.length := by
  obtain ⟨q, found', le⟩ := built.inRange_of_mem state i hi
  obtain rfl : p = q := Option.some.inj (found.symm.trans found')
  rw [Item.next?_eq_none_iff found]
  exact ⟨le_antisymm le, fun same => same.ge⟩

theorem exists_next_of_transition {x : Symbol} {j : Nat}
    (target : c.automaton.transition s x = some j) :
    ∃ items, c.automaton.states[s]? = some items ∧ ∃ i ∈ items, i.next? c.grammar = some x := by
  obtain ⟨p, first⟩ := built.exists_first
  rw [built.automaton_eq] at target ⊢
  obtain ⟨items, state, next, _⟩ := Automaton.state_of_transition first target
  exact ⟨items, state, next⟩

theorem exists_transition_of_next {items : ItemSet} (state : c.automaton.states[s]? = some items)
    {i : Item} (hi : i ∈ items) {x : Symbol} (next : i.next? c.grammar = some x) :
    ∃ j, c.automaton.transition s x = some j := by
  obtain ⟨p, first⟩ := built.exists_first
  rw [built.automaton_eq] at state ⊢
  exact Automaton.exists_transition first built.augmented.toWellFormed state hi next

theorem lt_eof_of_transition {j : Nat}
    (target : c.automaton.transition s (.terminal t) = some j) : t < c.grammar.eof := by
  obtain ⟨_, _, i, _, next⟩ := built.exists_next_of_transition target
  have mem := Item.next?_mem_symbols built.augmented.toWellFormed next
  simpa [Grammar.mem_symbols, Grammar.eof] using mem

theorem offers_of_entry {items : ItemSet} (state : c.automaton.states[s]? = some items) {i : Item}
    (hi : i ∈ items)
    (entry : Table.Entry c.grammar c.sets (c.automaton.transitions s) t i (i.next? c.grammar) e) :
    c.Offers s t e := by
  generalize marked : i.next? c.grammar = mark at entry
  cases entry with
  | shift target => exact .shift target
  | accept zero eof =>
      have first := built.augmented.first
      rw [← zero] at first
      have dot : i.dot = 1 := (built.complete_iff state hi first).1 marked
      have here : i = ⟨0, 1⟩ := by rw [← zero, ← dot]
      exact .accept state (here ▸ hi) eof
  | reduce positive found follow =>
      have dot := (built.complete_iff state hi found).1 marked
      exact .reduce positive found state (dot ▸ hi) follow

theorem exists_entry_of_offers {items : ItemSet} (state : c.automaton.states[s]? = some items)
    (offers : c.Offers s t e) :
    ∃ i ∈ items, Table.Entry c.grammar c.sets (c.automaton.transitions s) t i (i.next? c.grammar)
      e := by
  cases offers with
  | shift target =>
      obtain ⟨items', state', i, hi, next⟩ := built.exists_next_of_transition target
      obtain rfl : items = items' := Option.some.inj (state.symm.trans state')
      exact ⟨i, hi, next ▸ .shift target⟩
  | @reduce n p items' positive found state' complete follow =>
      obtain rfl : items = items' := Option.some.inj (state.symm.trans state')
      have none_left := (built.complete_iff state complete found).2 rfl
      exact ⟨_, complete, none_left ▸ .reduce positive found follow⟩
  | @accept items' state' complete eof =>
      obtain rfl : items = items' := Option.some.inj (state.symm.trans state')
      have none_left := (built.complete_iff state complete built.augmented.first).2 rfl
      exact ⟨_, complete, none_left ▸ .accept rfl eof⟩

theorem mem_entries_iff {items : ItemSet} (state : c.automaton.states[s]? = some items) :
    e ∈ Table.entries c.grammar c.sets (c.automaton.transitions s) (items.marked c.grammar)
      (.terminal t) ↔ c.Offers s t e := by
  have listed : e ∈ Table.entries c.grammar c.sets (c.automaton.transitions s)
      (items.marked c.grammar) (.terminal t) ↔ ∃ i ∈ items,
        Table.Entry c.grammar c.sets (c.automaton.transitions s) t i (i.next? c.grammar) e := by
    simp [Table.entries, List.mem_eraseDups, List.mem_filterMap, ItemSet.marked, OrderedSet.mem_def,
      Table.entryFor_eq_some_iff]
  rw [listed]
  apply Iff.intro
  · intro given
    obtain ⟨i, hi, entry⟩ := given
    exact built.offers_of_entry state hi entry
  · exact built.exists_entry_of_offers state

end Built

end Construction

namespace Table

variable {g : Grammar} {ff : TerminalSets} {a : Automaton} {s : Nat} {x : Symbol} {e : Action}

theorem exists_of_lookup_build (h : (build g ff a).lookup s x = some e) :
    ∃ items, a.states[s]? = some items ∧ x ∈ columns g.nonterms.size g.eof ∧
      Action.cell? (entries g ff (a.transitions s) (items.marked g) x) = some e := by
  have column : x ∈ columns g.nonterms.size g.eof := by
    by_contra beyond
    have none_there : (build g ff a).column? x = none := by
      rw [mem_columns] at beyond
      cases x with
      | nonterminal b => exact if_neg fun lt => beyond (.inl ⟨b, lt, rfl⟩)
      | terminal t => exact if_neg fun le => beyond (.inr ⟨t, le, rfl⟩)
      | empty => rfl
    simp [lookup, none_there] at h
  cases state : a.states[s]? with
  | none =>
      have no_row : (build g ff a).rows[s]? = none := by simpa [build] using state
      simp [lookup, no_row] at h
  | some items =>
      rw [lookup_build state column] at h
      exact ⟨items, rfl, column, h⟩

theorem isSLR1_iff {tab : Table} :
    tab.isSLR1 ↔ ∀ row ∈ tab.rows, ∀ es, some (.conflict es) ∉ row := by
  simp only [isSLR1, List.all_eq_true, Bool.not_eq_true']
  apply Iff.intro
  · intro h row hrow es mem
    exact absurd (h row hrow _ mem) (by simp [isConflict])
  · intro h row hrow cell hcell
    unfold isConflict
    split
    · exact absurd hcell (h row hrow _)
    · rfl

theorem lookup_ne_conflict {tab : Table} (h : tab.isSLR1) (es : List Action) :
    tab.lookup s x ≠ some (.conflict es) := by
  intro found
  simp only [lookup, bind, Option.bind_eq_some_iff] at found
  obtain ⟨col, _, row, hrow, cell⟩ := found
  exact isSLR1_iff.1 h row (List.mem_of_getElem? hrow) es
    (List.mem_of_getElem? (Option.join_eq_some_iff.1 cell))

theorem conflict_mem_row {tab : Table} {row : List (Option Action)} {es : List Action}
    (state : tab.rows[s]? = some row) (mem : some (.conflict es) ∈ row) :
    ∃ x, (x, .conflict es) ∈ tab.row s := by
  obtain ⟨col, cell⟩ := List.getElem?_of_mem mem
  refine ⟨tab.symbol col, ?_⟩
  rw [Table.row, state, Option.getD_some, rowEntries, List.mem_filterMap]
  exact ⟨(some (.conflict es), col), List.mem_zipIdx_iff_getElem?.2 cell, rfl⟩

theorem isSLR1_of_conflicts_eq_nil {tab : Table} (h : tab.conflicts = []) : tab.isSLR1 := by
  rw [isSLR1_iff]
  intro row hrow es mem
  obtain ⟨s, state⟩ := List.getElem?_of_mem hrow
  obtain ⟨x, here⟩ := conflict_mem_row state mem
  have bound : s < tab.size := (List.getElem?_eq_some_iff.1 state).1
  have listed : (⟨s, x, .ofEntries es, es⟩ : Conflict) ∈ tab.conflicts :=
    List.mem_flatMap.2 ⟨s, List.mem_range.2 bound, List.mem_filterMap.2 ⟨_, here, rfl⟩⟩
  rw [h] at listed
  cases listed

end Table

namespace Construction.Built

variable {c : Construction} {start s t : Nat} {e : Action} (built : c.Built start)

include built

theorem state_of_offers (offers : c.Offers s t e) :
    ∃ items, c.automaton.states[s]? = some items := by
  cases offers with
  | shift target =>
      obtain ⟨items, state, _⟩ := built.exists_next_of_transition target
      exact ⟨items, state⟩
  | reduce _ _ state _ _ => exact ⟨_, state⟩
  | accept state _ _ => exact ⟨_, state⟩

theorem le_eof_of_offers (offers : c.Offers s t e) : t ≤ c.grammar.eof := by
  cases offers with
  | shift target => exact (built.lt_eof_of_transition target).le
  | reduce _ _ _ _ follow =>
      rw [built.sets_eq] at follow
      exact (TerminalSets.fits_ofGrammar built.augmented.toWellFormed).le_of_mem_follow follow
  | accept _ _ eof => exact eof.le

theorem exists_entries (s t : Nat) :
    ∃ entries : List Action, entries.Nodup ∧ (∀ e ∈ entries, ∀ es, e ≠ .conflict es) ∧
      (∀ e, e ∈ entries ↔ c.Offers s t e) ∧
      c.table.lookup s (.terminal t) = Action.cell? entries := by
  by_cases cell : (∃ items, c.automaton.states[s]? = some items) ∧ t ≤ c.grammar.eof
  · obtain ⟨⟨items, state⟩, le⟩ := cell
    have column : Symbol.terminal t ∈ Table.columns c.grammar.nonterms.size c.grammar.eof :=
      Table.mem_columns.2 (.inr ⟨t, le, rfl⟩)
    refine ⟨_, nodup_eraseDups _, fun e he => ?_, fun e => built.mem_entries_iff state, ?_⟩
    · exact ((built.mem_entries_iff state).1 he).ne_conflict
    · rw [built.table_eq, Table.lookup_build state column, Table.entries]
  · have none_offered : ∀ e, ¬ c.Offers s t e := fun e offers =>
      cell ⟨built.state_of_offers offers, built.le_eof_of_offers offers⟩
    refine ⟨[], List.nodup_nil, by simp, fun e => by simp [none_offered], ?_⟩
    by_contra some_cell
    obtain ⟨e, h⟩ := Option.ne_none_iff_exists'.1 some_cell
    rw [built.table_eq] at h
    obtain ⟨items, state, column, _⟩ := Table.exists_of_lookup_build h
    rcases Table.mem_columns.1 column with ⟨_, _, same⟩ | ⟨u, le, same⟩
    · cases same
    · cases same
      exact cell ⟨⟨items, state⟩, le⟩

theorem action_of_offers (offers : c.Offers s t e) :
    c.table.action s t = some e ∨ ∃ es, c.table.action s t = some (.conflict es) := by
  obtain ⟨entries, _, _, offered, cell⟩ := built.exists_entries s t
  rw [Table.action, cell]
  exact Action.cell?_of_mem ((offered e).2 offers)

theorem offers_of_action (h : c.table.action s t = some e) (single : ∀ es, e ≠ .conflict es) :
    c.Offers s t e := by
  obtain ⟨entries, _, _, offered, cell⟩ := built.exists_entries s t
  rw [Table.action, cell] at h
  cases Action.mem_of_cell? h with
  | inl mem => exact (offered e).1 mem
  | inr conflict => exact absurd conflict (single _)

theorem offers_of_mem_conflict {es : List Action} (h : c.table.action s t = some (.conflict es))
    (mem : e ∈ es) : c.Offers s t e := by
  obtain ⟨entries, _, flat, offered, cell⟩ := built.exists_entries s t
  rw [Table.action, cell] at h
  rw [Action.eq_of_cell?_eq_conflict flat h] at mem
  exact (offered e).1 mem

theorem lookup_nonterminal (s a : Nat) :
    c.table.lookup s (.nonterminal a) =
      (c.automaton.transition s (.nonterminal a)).map .goto := by
  cases target : c.automaton.transition s (.nonterminal a) with
  | some j =>
      obtain ⟨items, state, i, hi, next⟩ := built.exists_next_of_transition target
      have mem := Item.next?_mem_symbols built.augmented.toWellFormed next
      have column : Symbol.nonterminal a ∈ Table.columns c.grammar.nonterms.size c.grammar.eof := by
        simp_all [Grammar.mem_symbols, Table.mem_columns]
      have entry : (c.automaton.transitions s).lookup (.nonterminal a) = some j := target
      simp [built.table_eq, Table.lookup_build state column, Table.entries, entry, Action.cell?]
  | none =>
      by_contra some_cell
      obtain ⟨e, h⟩ := Option.ne_none_iff_exists'.1 some_cell
      rw [built.table_eq] at h
      obtain ⟨items, _, _, cell⟩ := Table.exists_of_lookup_build h
      have entry : (c.automaton.transitions s).lookup (.nonterminal a) = none := target
      simp [Table.entries, entry, Action.cell?] at cell

theorem goto_eq_transition (s a : Nat) :
    c.table.goto s a = c.automaton.transition s (.nonterminal a) := by
  rw [Table.goto, built.lookup_nonterminal]
  cases c.automaton.transition s (.nonterminal a) <;> rfl

end Construction.Built

end ShiftReduce
