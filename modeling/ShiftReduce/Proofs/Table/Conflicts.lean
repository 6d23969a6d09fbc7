import ShiftReduce.Proofs.Table.Cells

/-!
The list of conflicts of a table. A row lists what a look-up in it finds (`mem_row_iff`), in the
order of the columns, so the cells that hold competing entries are listed in this order too, once
each (`mem_conflicts_iff`, `ordered_conflicts`). A table is free of them exactly if no state offers
two entries on one terminal (`isSLR1_iff_offers`).
-/

namespace ShiftReduce

namespace Table

variable {tab : Table} {s col : Nat} {x : Symbol} {e : Action}

theorem column?_eq_some_iff : tab.column? x = some col ↔ col < tab.width ∧ tab.symbol col = x := by
  cases x with
  | nonterminal a =>
      simp only [column?, symbol, width, Option.ite_none_right_eq_some, Option.some.injEq]
      split <;> grind
  | terminal t =>
      simp only [column?, symbol, width, Option.ite_none_right_eq_some, Option.some.injEq]
      split <;> grind
  | empty =>
      simp only [column?, symbol]
      split <;> simp

theorem exists_row_of_lookup (found : tab.lookup s x = some e) :
    ∃ row ∈ tab.rows, tab.rows[s]? = some row ∧
      ∃ col, tab.column? x = some col ∧ row[col]? = some (some e) := by
  simp only [lookup, Option.bind_eq_bind, Option.bind_eq_some_iff, Option.join_eq_some_iff] at found
  obtain ⟨col, column, row, here, cell⟩ := found
  exact ⟨row, List.mem_of_getElem? here, here, col, column, cell⟩

theorem lt_size_of_lookup (found : tab.lookup s x = some e) : s < tab.size := by
  obtain ⟨row, _, here, _⟩ := exists_row_of_lookup found
  exact (List.getElem?_eq_some_iff.1 here).1

def Fits (tab : Table) : Prop := ∀ row ∈ tab.rows, row.length ≤ tab.width

theorem mem_rowEntries_iff {row : List (Option Action)} :
    (x, e) ∈ tab.rowEntries row ↔ ∃ col, tab.symbol col = x ∧ row[col]? = some (some e) := by
  simp only [rowEntries, List.mem_filterMap, Prod.exists, List.mem_zipIdx_iff_getElem?,
    Option.map_eq_some_iff, Prod.mk.injEq]
  apply Iff.intro
  · rintro ⟨cell, col, found, a, filled, here, same⟩
    exact ⟨col, here, by rw [found, filled, same]⟩
  · rintro ⟨col, here, found⟩
    exact ⟨some e, col, found, e, rfl, here, rfl⟩

theorem mem_row_iff (fits : tab.Fits) : (x, e) ∈ tab.row s ↔ tab.lookup s x = some e := by
  rw [row, mem_rowEntries_iff]
  cases state : tab.rows[s]? with
  | none => simp [lookup, state]
  | some row =>
      have bound := fits row (List.mem_of_getElem? state)
      simp only [lookup, state, Option.getD_some, bind, Option.bind_eq_some_iff,
        Option.join_eq_some_iff, column?_eq_some_iff, Option.some.injEq, exists_eq_left']
      refine exists_congr fun col => ?_
      apply Iff.intro
      · rintro ⟨here, found⟩
        exact ⟨⟨(List.getElem?_eq_some_iff.1 found).1.trans_le bound, here⟩, found⟩
      · rintro ⟨⟨_, here⟩, found⟩
        exact ⟨here, found⟩

theorem symbol_lt_symbol {a b : Nat} (lt : a < b) : tab.symbol a < tab.symbol b := by
  unfold symbol
  split
  · split
    · exact decide_eq_true lt
    · rfl
  · rename_i beyond
    rw [if_neg (by omega)]
    exact decide_eq_true (by omega)

theorem increasing_rowEntries (tab : Table) (row : List (Option Action)) :
    (tab.rowEntries row).Pairwise fun a b => a.1 < b.1 := by
  have columns : row.zipIdx.Pairwise fun a b => a.2 < b.2 := by
    apply List.pairwise_map.1
    rw [List.zipIdx_map_snd]
    exact List.pairwise_lt_range'
  refine List.Pairwise.filterMap _ (fun a b lt e he f hf => ?_) columns
  obtain ⟨_, _, rfl⟩ := Option.map_eq_some_iff.1 he
  obtain ⟨_, _, rfl⟩ := Option.map_eq_some_iff.1 hf
  exact symbol_lt_symbol lt

structure Cell where
  state : Nat
  symbol : Symbol
  entry : Action
deriving DecidableEq

def occupied (tab : Table) : List Cell :=
  (List.range tab.size).flatMap fun s => (tab.row s).map fun (x, e) => ⟨s, x, e⟩

theorem mem_occupied_iff (fits : tab.Fits) {k : Cell} :
    k ∈ tab.occupied ↔ tab.lookup k.state k.symbol = some k.entry := by
  simp only [occupied, List.mem_flatMap, List.mem_range, List.mem_map, Prod.exists,
    mem_row_iff fits]
  apply Iff.intro
  · rintro ⟨s, _, x, e, found, rfl⟩
    exact found
  · intro found
    exact ⟨k.state, lt_size_of_lookup found, k.symbol, k.entry, found, rfl⟩

theorem ordered_occupied (tab : Table) :
    (tab.occupied.map fun k => (k.state, k.symbol)).Pairwise (Prod.Lex (· < ·) (· < ·)) := by
  rw [List.pairwise_map, occupied, List.pairwise_flatMap]
  refine ⟨fun s _ => ?_, List.pairwise_lt_range.imp fun lt k hk l hl => ?_⟩
  · rw [List.pairwise_map]
    exact (increasing_rowEntries tab _).imp fun lt => .right s lt
  · obtain ⟨_, _, rfl⟩ := List.mem_map.1 hk
    obtain ⟨_, _, rfl⟩ := List.mem_map.1 hl
    exact .left _ _ lt

def Cell.conflict? : Cell → Option Conflict
  | ⟨s, x, .conflict es⟩ => some ⟨s, x, .ofEntries es, es⟩
  | _ => none

theorem Cell.conflict?_eq_some_iff {cell : Cell} {k : Conflict} :
    cell.conflict? = some k ↔
      cell = ⟨k.state, k.symbol, .conflict k.entries⟩ ∧ k.kind = .ofEntries k.entries := by
  obtain ⟨s, x, e⟩ := cell
  obtain ⟨state, symbol, kind, entries⟩ := k
  cases e with
  | conflict es =>
      simp only [conflict?, Option.some.injEq, Conflict.mk.injEq, mk.injEq, Action.conflict.injEq]
      grind
  | _ => simp [conflict?]

theorem conflicts_eq (tab : Table) : tab.conflicts = tab.occupied.filterMap Cell.conflict? := by
  rw [occupied, List.filterMap_flatMap]
  refine List.flatMap_congr fun s _ => ?_
  rw [rowConflicts, List.filterMap_map]
  refine List.filterMap_congr fun entry _ => ?_
  obtain ⟨x, e⟩ := entry
  cases e <;> rfl

theorem mem_conflicts_iff (fits : tab.Fits) {k : Conflict} :
    k ∈ tab.conflicts ↔
      tab.lookup k.state k.symbol = some (.conflict k.entries) ∧ k.kind = .ofEntries k.entries := by
  simp only [conflicts_eq, List.mem_filterMap, Cell.conflict?_eq_some_iff, mem_occupied_iff fits]
  apply Iff.intro
  · rintro ⟨_, found, rfl, kind⟩
    exact ⟨found, kind⟩
  · intro ⟨found, kind⟩
    exact ⟨_, found, rfl, kind⟩

def cellOf (k : Conflict) : Nat × Symbol := (k.state, k.symbol)

theorem ordered_conflicts (tab : Table) :
    (tab.conflicts.map cellOf).Pairwise (Prod.Lex (· < ·) (· < ·)) := by
  rw [conflicts_eq, List.pairwise_map]
  refine List.Pairwise.filterMap _ (fun _ _ lt k hk l hl => ?_)
    (List.pairwise_map.1 (ordered_occupied tab))
  obtain ⟨rfl, _⟩ := Cell.conflict?_eq_some_iff.1 hk
  obtain ⟨rfl, _⟩ := Cell.conflict?_eq_some_iff.1 hl
  exact lt

theorem nodup_conflicts (tab : Table) : (tab.conflicts.map cellOf).Nodup := by
  refine (ordered_conflicts tab).imp fun {a b} before same => ?_
  rcases Prod.lex_def.1 (same ▸ before) with lt | ⟨_, lt⟩
  · exact Nat.lt_irrefl _ lt
  · exact StrictOrder.irrefl _ lt

end Table

namespace Construction.Built

variable {c : Construction} {start s t : Nat} {e f : Action} (built : c.Built start)

include built

theorem fits_table : c.table.Fits := by
  intro row hrow
  rw [built.table_eq] at hrow ⊢
  exact (Table.length_of_mem_rows hrow).le

theorem exists_terminal_of_conflict {x : Symbol} {es : List Action}
    (h : c.table.lookup s x = some (.conflict es)) : ∃ t, x = .terminal t := by
  cases x with
  | terminal t => exact ⟨t, rfl⟩
  | nonterminal a =>
      rw [built.lookup_nonterminal] at h
      obtain ⟨_, _, impossible⟩ := Option.map_eq_some_iff.1 h
      cases impossible
  | empty => cases h

theorem isSLR1_iff_offers :
    c.isSLR1 ↔ ∀ s t e f, c.Offers s t e → c.Offers s t f → e = f := by
  apply Iff.intro
  · intro h s t e f he hf
    by_contra apart
    obtain ⟨es, conflict⟩ := built.exists_conflict_iff.2 ⟨e, f, apart, he, hf⟩
    exact Table.lookup_ne_conflict h es conflict
  · intro single
    refine Table.isSLR1_of_conflicts_eq_nil (List.eq_nil_iff_forall_not_mem.2 fun k hk => ?_)
    have conflict := ((Table.mem_conflicts_iff built.fits_table).1 hk).1
    obtain ⟨t, here⟩ := built.exists_terminal_of_conflict conflict
    rw [here] at conflict
    obtain ⟨e, f, apart, he, hf⟩ := built.exists_conflict_iff.1 ⟨_, conflict⟩
    exact apart (single k.state t e f he hf)

end Construction.Built

end ShiftReduce
