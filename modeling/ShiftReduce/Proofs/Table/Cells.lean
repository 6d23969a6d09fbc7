import ShiftReduce.Proofs.Table.Entries
import ShiftReduce.Proofs.Automaton.Canonical

/-!
The cells of a built table are exact. A cell of a terminal or of the end marker holds all that its
state offers there, and holds it as a conflict if there is more than one entry; a cell of a
nonterminal holds the transition (`exact_ofText`). The item that accepts is valid for the start
symbol alone, so there is one accepting cell.
-/

namespace ShiftReduce

namespace Action

def members : Option Action → List Action
  | none => []
  | some (.conflict entries) => entries
  | some e => [e]

variable {entries : List Action} (flat : ∀ e ∈ entries, ∀ es, e ≠ .conflict es)

include flat

theorem members_cell? : members (cell? entries) = entries := by
  match entries with
  | [] => rfl
  | [a] =>
      cases a with
      | conflict es => exact absurd rfl (flat (.conflict es) List.mem_cons_self es)
      | _ => rfl
  | _ :: _ :: _ => rfl

theorem exists_cell?_eq_conflict_iff (nodup : entries.Nodup) :
    (∃ es, cell? entries = some (.conflict es)) ↔
      ∃ e f, e ≠ f ∧ e ∈ entries ∧ f ∈ entries := by
  match entries with
  | [] => simp [cell?]
  | [a] =>
      have single : ∀ es, a ≠ .conflict es := flat a List.mem_cons_self
      simp only [cell?, Option.some.injEq, single, exists_false, List.mem_singleton, false_iff]
      intro two
      obtain ⟨e, f, apart, he, hf⟩ := two
      exact apart (he.trans hf.symm)
  | a :: b :: rest =>
      have apart : a ≠ b := by
        rintro rfl
        exact List.not_nodup_cons_of_mem List.mem_cons_self nodup
      exact ⟨fun _ => ⟨a, b, apart, by simp, by simp⟩, fun _ => ⟨_, rfl⟩⟩

end Action

theorem Table.length_of_mem_rows {g : Grammar} {ff : TerminalSets} {a : Automaton}
    {row : List (Option Action)} (h : row ∈ (build g ff a).rows) :
    row.length = (build g ff a).width := by
  obtain ⟨_, _, rfl⟩ := List.mem_map.1 h
  simp [cells, columns, build, width, Nat.add_assoc]

namespace Construction

variable {c : Construction} {start s t : Nat} {e : Action}

namespace Built

variable (built : c.Built start)

include built

theorem exists_accepting :
    ∃ j items, c.automaton.transition 0 (.nonterminal start) = some j ∧
      c.automaton.states[j]? = some items ∧ ⟨0, 1⟩ ∈ items := by
  obtain ⟨p, first⟩ := built.exists_first
  have valid : Valid c.grammar [.nonterminal start] ⟨0, 1⟩ :=
    (Valid.accepting_iff built.augmented).2 rfl
  rw [built.automaton_eq, ← Automaton.walk_singleton]
  exact Automaton.reached_of_valid first built.augmented.toWellFormed valid

theorem offers_accept_iff :
    c.Offers s t .accept ↔
      c.automaton.transition 0 (.nonterminal start) = some s ∧ t = c.grammar.eof := by
  obtain ⟨p, first⟩ := built.exists_first
  apply Iff.intro
  · intro offers
    cases offers with
    | @accept items state complete eof =>
        rw [built.automaton_eq] at state ⊢
        obtain ⟨γ, walk⟩ := Automaton.exists_walk first state
        have valid := Automaton.valid_of_mem first walk state complete
        rw [(Valid.accepting_iff built.augmented).1 valid, Automaton.walk_singleton] at walk
        exact ⟨walk, eof⟩
  · intro ⟨target, eof⟩
    obtain ⟨j, items, over_start, state, complete⟩ := built.exists_accepting
    obtain rfl : s = j := Option.some.inj (target.symm.trans over_start)
    exact .accept state complete eof

theorem accepting_mem_iff {items : ItemSet} (state : c.automaton.states[s]? = some items) :
    ⟨0, 1⟩ ∈ items ↔ c.automaton.transition 0 (.nonterminal start) = some s := by
  apply Iff.intro
  · intro complete
    exact (built.offers_accept_iff.1 (.accept state complete rfl)).1
  · intro target
    cases built.offers_accept_iff.2 ⟨target, rfl⟩ with
    | accept state' complete _ => exact Option.some.inj (state'.symm.trans state) ▸ complete

theorem mem_members_iff :
    e ∈ Action.members (c.table.lookup s (.terminal t)) ↔ c.Offers s t e := by
  obtain ⟨entries, _, flat, offered, cell⟩ := built.exists_entries s t
  rw [cell, Action.members_cell? flat, offered]

theorem exists_conflict_iff :
    (∃ es, c.table.lookup s (.terminal t) = some (.conflict es)) ↔
      ∃ e f, e ≠ f ∧ c.Offers s t e ∧ c.Offers s t f := by
  obtain ⟨entries, nodup, flat, offered, cell⟩ := built.exists_entries s t
  simp only [cell, Action.exists_cell?_eq_conflict_iff flat nodup, offered]

theorem nodup_of_conflict {es : List Action}
    (h : c.table.lookup s (.terminal t) = some (.conflict es)) : es.Nodup := by
  obtain ⟨entries, nodup, flat, _, cell⟩ := built.exists_entries s t
  rw [cell] at h
  exact Action.eq_of_cell?_eq_conflict flat h ▸ nodup

theorem accept_mem_members_iff {x : Symbol} :
    .accept ∈ Action.members (c.table.lookup s x) ↔
      c.automaton.transition 0 (.nonterminal start) = some s ∧ x = .terminal c.grammar.eof := by
  cases x with
  | terminal t => simp [built.mem_members_iff, built.offers_accept_iff]
  | nonterminal a =>
      rw [built.lookup_nonterminal]
      cases c.automaton.transition s (.nonterminal a) <;> simp [Action.members]
  | empty => simp [Table.lookup, Table.column?, Action.members]

end Built

/-- A row per state and a cell per column, which holds exactly the entries of its state there; the
right-hand side of production 0 is the symbol numbered `start`. -/
structure Exact (c : Construction) (start : Nat) : Prop where
  size_eq : c.table.size = c.automaton.size
  length_row : ∀ row ∈ c.table.rows, row.length = c.table.width
  mem_members_iff : ∀ s t e,
    e ∈ Action.members (c.table.lookup s (.terminal t)) ↔ c.Offers s t e
  exists_conflict_iff : ∀ s t,
    (∃ es, c.table.lookup s (.terminal t) = some (.conflict es)) ↔
      ∃ e f, e ≠ f ∧ c.Offers s t e ∧ c.Offers s t f
  nodup : ∀ s t es, c.table.lookup s (.terminal t) = some (.conflict es) → es.Nodup
  lookup_nonterminal : ∀ s a, c.table.lookup s (.nonterminal a) =
    (c.automaton.transition s (.nonterminal a)).map .goto
  goto_eq : ∀ s a, c.table.goto s a = c.automaton.transition s (.nonterminal a)
  lookup_empty : ∀ s, c.table.lookup s .empty = none
  accepts : ∃ j, c.automaton.transition 0 (.nonterminal start) = some j ∧
    ∀ s x, .accept ∈ Action.members (c.table.lookup s x) ↔
      s = j ∧ x = .terminal c.grammar.eof

theorem Built.toExact (built : c.Built start) : c.Exact start where
  size_eq := by simp [built.table_eq, Table.build, Table.size, Automaton.size]
  length_row row hrow := by
    rw [built.table_eq] at hrow ⊢
    exact Table.length_of_mem_rows hrow
  mem_members_iff _ _ _ := built.mem_members_iff
  exists_conflict_iff _ _ := built.exists_conflict_iff
  nodup _ _ _ := built.nodup_of_conflict
  lookup_nonterminal := built.lookup_nonterminal
  goto_eq := built.goto_eq_transition
  lookup_empty _ := rfl
  accepts := by
    obtain ⟨j, _, target, _⟩ := built.exists_accepting
    refine ⟨j, target, fun s x => ?_⟩
    rw [built.accept_mem_members_iff, target, Option.some.injEq, eq_comm]

theorem exact_ofText {text : String} {g : Grammar} (read : Grammar.ofText text = .ok g)
    (built : ofText text = .ok c) : c.Exact (g.start + 1) := by
  rw [eq_ofGrammar read built]
  exact (built_ofGrammar (Grammar.plain_of_ofText read)).toExact

/-- A grammar in which a string of three and more tokens can be taken apart in several ways. -/
def doubling : Grammar where
  nonterms := .ofList ["S"]
  terms := .ofList ["a"]
  start := 0
  prods := #[⟨0, [.nonterminal 0, .nonterminal 0]⟩, ⟨0, [.terminal 0]⟩]
  augmented := false

theorem read_doubling : Grammar.ofText "S -> S S | a" = .ok doubling := by
  decide +kernel

theorem ofText_doubling : ofText "S -> S S | a" = .ok (ofGrammar doubling) :=
  ofText_of_read read_doubling

theorem exact_doubling :
    (ofGrammar doubling).Exact 1 ∧
      (∀ e, (ofGrammar doubling).Offers 3 0 e ↔ e = .reduce 1 ∨ e = .shift 2) ∧
      ∀ s x, .accept ∈ Action.members ((ofGrammar doubling).table.lookup s x) ↔
        s = 1 ∧ x = .terminal 1 := by
  have cells := exact_ofText read_doubling ofText_doubling
  have competing : Action.members ((ofGrammar doubling).table.lookup 3 (.terminal 0)) =
      [.reduce 1, .shift 2] := by
    decide +kernel
  have over_start : (ofGrammar doubling).automaton.transition 0 (.nonterminal 1) = some 1 := by
    decide +kernel
  refine ⟨cells, fun e => ?_, ?_⟩
  · rw [← cells.mem_members_iff, competing]
    simp
  · obtain ⟨j, target, accepting⟩ := cells.accepts
    obtain rfl : 1 = j := Option.some.inj (over_start.symm.trans target)
    exact accepting

end Construction

end ShiftReduce
