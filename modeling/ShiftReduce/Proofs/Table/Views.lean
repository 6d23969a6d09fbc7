import Mathlib.Logic.Relation
import ShiftReduce.Proofs.Table.Conflicts

/-!
Tables whose cells have been overwritten. A write changes what is looked up in its own cell and
nowhere else (`lookup_patch?`), and no row outgrows the columns, so rows, conflicts, actions and
gotos go on to show exactly what can be looked up, whatever entries the cells hold
(`views_of_overwritten`).
-/

namespace ShiftReduce.Table

variable {tab patched : Table} {s col : Nat} {cell : Option Action} {x : Symbol} {e : Action}

theorem lookup_of_size_le (beyond : tab.size ≤ s) (x : Symbol) : tab.lookup s x = none :=
  Option.eq_none_iff_forall_ne_some.2 fun _ found => Nat.not_lt.2 beyond (lt_size_of_lookup found)

theorem lookup_of_column?_eq_none (no_column : tab.column? x = none) (s : Nat) :
    tab.lookup s x = none := by
  rw [lookup, no_column]
  rfl

theorem patch?_eq_some_iff : tab.patch? s col cell = some patched ↔
    ∃ row, tab.rows[s]? = some row ∧ col < row.length ∧
      patched = { tab with rows := tab.rows.set s (row.set col cell) } := by
  simp only [patch?, Option.bind_eq_bind, Option.bind_eq_some_iff, Option.ite_none_right_eq_some,
    Option.some.injEq]
  exact exists_congr fun row => and_congr_right fun _ => and_congr_right fun _ => eq_comm

theorem lookup_patch? (fits : tab.Fits) (patch : tab.patch? s col cell = some patched)
    (r : Nat) (x : Symbol) :
    patched.lookup r x = if r = s ∧ x = tab.symbol col then cell else tab.lookup r x := by
  obtain ⟨row, here, inside, rfl⟩ := patch?_eq_some_iff.1 patch
  have bound := fits row (List.mem_of_getElem? here)
  have own : tab.column? (tab.symbol col) = some col :=
    column?_eq_some_iff.2 ⟨inside.trans_le bound, rfl⟩
  have same_columns : ∀ y,
      { tab with rows := tab.rows.set s (row.set col cell) }.column? y = tab.column? y :=
    fun y => by cases y <;> rfl
  have size : s < tab.rows.length := (List.getElem?_eq_some_iff.1 here).1
  by_cases state : r = s
  · subst state
    by_cases column : x = tab.symbol col
    · subst column
      simp [lookup, same_columns, own, size, inside]
    · have elsewhere : ∀ d, tab.column? x = some d → col ≠ d := by
        rintro d found rfl
        exact column (column?_eq_some_iff.1 found).2.symm
      rw [if_neg fun both => column both.2]
      simp only [lookup, same_columns, here, List.getElem?_set_self size]
      cases found : tab.column? x with
      | none => rfl
      | some d => simp [List.getElem?_set_ne (elsewhere d found)]
  · rw [if_neg fun both => state both.1]
    simp [lookup, same_columns, List.getElem?_set_ne (Ne.symm state)]

def Overwrites (tab patched : Table) : Prop := ∃ s col cell, tab.patch? s col cell = some patched

theorem Overwrites.fits (overwrites : tab.Overwrites patched) (fits : tab.Fits) :
    patched.Fits := by
  obtain ⟨s, col, cell, patch⟩ := overwrites
  obtain ⟨row, here, _, rfl⟩ := patch?_eq_some_iff.1 patch
  intro other mem
  rcases List.mem_or_eq_of_mem_set mem with before | rfl
  · exact fits other before
  · rw [List.length_set]
    exact fits row (List.mem_of_getElem? here)

theorem fits_build (g : Grammar) (ff : TerminalSets) (a : Automaton) : (build g ff a).Fits :=
  fun _ mem => (length_of_mem_rows mem).le

theorem goto_eq_some_iff {a j : Nat} :
    tab.goto s a = some j ↔ tab.lookup s (.nonterminal a) = some (.goto j) := by
  unfold goto
  split <;> simp_all

theorem isSLR1_iff_conflicts_eq_nil (fits : tab.Fits) : tab.isSLR1 ↔ tab.conflicts = [] := by
  apply Iff.intro
  · intro single
    refine List.eq_nil_iff_forall_not_mem.2 fun k hk => ?_
    exact lookup_ne_conflict single k.entries ((mem_conflicts_iff fits).1 hk).1
  · exact isSLR1_of_conflicts_eq_nil

/-- All accessors read the same cells, which are those of the states and columns. -/
structure Views (tab : Table) : Prop where
  mem_row_iff : ∀ s x e, (x, e) ∈ tab.row s ↔ tab.lookup s x = some e
  increasing_row : ∀ s, (tab.row s).Pairwise fun a b => a.1 < b.1
  mem_conflicts_iff : ∀ k, k ∈ tab.conflicts ↔
    tab.lookup k.state k.symbol = some (.conflict k.entries) ∧ k.kind = .ofEntries k.entries
  ordered_conflicts : (tab.conflicts.map cellOf).Pairwise (Prod.Lex (· < ·) (· < ·))
  isSLR1_iff : tab.isSLR1 ↔ tab.conflicts = []
  action_eq : ∀ s t, tab.action s t = tab.lookup s (.terminal t)
  goto_eq_some_iff : ∀ s a j,
    tab.goto s a = some j ↔ tab.lookup s (.nonterminal a) = some (.goto j)
  lookup_state : ∀ s x, tab.size ≤ s → tab.lookup s x = none
  lookup_nonterminal : ∀ s a, tab.nonterms ≤ a → tab.lookup s (.nonterminal a) = none
  lookup_terminal : ∀ s t, tab.eof < t → tab.lookup s (.terminal t) = none
  lookup_empty : ∀ s, tab.lookup s .empty = none
  lookup_patch? : ∀ s col cell patched, tab.patch? s col cell = some patched → ∀ r x,
    patched.lookup r x = if r = s ∧ x = tab.symbol col then cell else tab.lookup r x

theorem Fits.views (fits : tab.Fits) : tab.Views where
  mem_row_iff _ _ _ := Table.mem_row_iff fits
  increasing_row _ := increasing_rowEntries tab _
  mem_conflicts_iff _ := Table.mem_conflicts_iff fits
  ordered_conflicts := Table.ordered_conflicts tab
  isSLR1_iff := isSLR1_iff_conflicts_eq_nil fits
  action_eq _ _ := rfl
  goto_eq_some_iff _ _ _ := Table.goto_eq_some_iff
  lookup_state _ x beyond := lookup_of_size_le beyond x
  lookup_nonterminal s a beyond := by
    have no_column : tab.column? (.nonterminal a) = none := if_neg (Nat.not_lt.2 beyond)
    exact lookup_of_column?_eq_none no_column s
  lookup_terminal s t beyond := by
    have no_column : tab.column? (.terminal t) = none := if_neg (Nat.not_le.2 beyond)
    exact lookup_of_column?_eq_none no_column s
  lookup_empty s := lookup_of_column?_eq_none rfl s
  lookup_patch? _ _ _ _ patch := Table.lookup_patch? fits patch

theorem views_of_overwritten {g : Grammar} {ff : TerminalSets} {a : Automaton}
    (written : Relation.ReflTransGen Overwrites (build g ff a) tab) : tab.Views := by
  refine Fits.views ?_
  induction written with
  | refl => exact fits_build g ff a
  | tail _ overwrites fits => exact overwrites.fits fits

open Construction (ofGrammar doubling)

/-- Entries compete in the column of a nonterminal, and the conflict of the built table is gone. -/
def tampered : Table where
  rows := [
    [some (.conflict [.shift 7, .goto 3]), some (.goto 1), some (.shift 2), none],
    [none, some (.goto 3), some (.shift 2), some .accept],
    [none, none, some (.reduce 2), some (.reduce 2)],
    [none, some (.goto 3), none, some (.reduce 1)]]
  nonterms := 2
  eof := 1

theorem overwritten_tampered :
    Relation.ReflTransGen Overwrites (ofGrammar doubling).table tampered := by
  let cleared : Table :=
    { tampered with
      rows := tampered.rows.set 0 [none, some (.goto 1), some (.shift 2), none] }
  have clear : (ofGrammar doubling).table.patch? 3 2 none = some cleared := by decide +kernel
  have compete : cleared.patch? 0 0 (some (.conflict [.shift 7, .goto 3])) = some tampered := by
    decide +kernel
  exact .tail (.single ⟨3, 2, _, clear⟩) ⟨0, 0, _, compete⟩

theorem views_tampered : tampered.Views ∧
    tampered.conflicts = [⟨0, .nonterminal 0, .shiftReduce, [.shift 7, .goto 3]⟩] ∧
    tampered.goto 0 0 = none ∧ tampered.lookup 0 (.nonterminal 2) = none ∧
    tampered.row 3 = [(.nonterminal 1, .goto 3), (.terminal 1, .reduce 1)] :=
  ⟨views_of_overwritten overwritten_tampered, by decide +kernel⟩

end ShiftReduce.Table
