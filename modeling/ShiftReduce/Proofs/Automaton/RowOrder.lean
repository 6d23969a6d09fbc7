import ShiftReduce.Proofs.Automaton.Collection

/-!
The transitions of a state stand in the order of their symbols (`increasing_of_mem_edges`). So a
search by halves finds in a row what a walk along the row finds (`search_eq_lookup`).
-/

namespace ShiftReduce

namespace Symbol

/-- Nonterminals come before terminals, each by number, and the empty string comes last. -/
def before : Symbol → Symbol → Bool
  | nonterminal a, nonterminal b => a < b
  | nonterminal _, _ => true
  | terminal t, terminal u => t < u
  | terminal _, empty => true
  | _, _ => false

instance : LT Symbol := ⟨fun x y => x.before y⟩

theorem lt_iff_before {x y : Symbol} : x < y ↔ x.before y := Iff.rfl

instance : StrictOrder Symbol where
  decideLT := fun x y => inferInstanceAs (Decidable (x.before y = true))
  irrefl x := by cases x <;> simp [lt_iff_before, before]
  trans {x y z} := by
    cases x <;> cases y <;> cases z <;> simp [lt_iff_before, before] <;> omega
  connected {x y} := by
    cases x <;> cases y <;> simp [lt_iff_before, before] <;> omega

end Symbol

theorem Grammar.sorted_symbols (g : Grammar) : g.symbols.Pairwise (· < ·) := by
  refine List.pairwise_append.2 ⟨?_, ?_, ?_⟩
  · refine List.pairwise_map.2 (List.pairwise_lt_range.imp fun lt => ?_)
    exact decide_eq_true lt
  · refine List.pairwise_map.2 (List.pairwise_lt_range.imp fun lt => ?_)
    exact decide_eq_true lt
  · intro x hx y hy
    obtain ⟨a, _, rfl⟩ := List.mem_map.1 hx
    obtain ⟨t, _, rfl⟩ := List.mem_map.1 hy
    rfl

namespace Automaton

variable {row : Transitions} {x : Symbol}

def Increasing (row : Transitions) : Prop := row.Pairwise fun e f => e.1 < f.1

theorem increasing_rowOf {kernels : List ItemSet} {items : List MarkedItem} {xs : List Symbol}
    (sorted : xs.Pairwise (· < ·)) : Increasing (rowOf kernels items xs) := by
  refine List.Pairwise.filterMap _ (fun x y lt e he f hf => ?_) sorted
  split at he
  · cases he
  · split at hf
    · cases hf
    · cases he
      cases hf
      exact lt

theorem increasing_of_mem_edges {g : Grammar} {p : Production} (first : g.prod? 0 = some p) :
    ∀ row ∈ (ofGrammar g).edges, Increasing row := by
  intro row hrow
  obtain ⟨kernels, explored, _⟩ := exists_explored first
  rw [explored.edges_eq] at hrow
  obtain ⟨items, _, rfl⟩ := List.mem_map.1 hrow
  exact increasing_rowOf g.sorted_symbols

theorem increasing_transitions {g : Grammar} {p : Production} (first : g.prod? 0 = some p)
    (s : Nat) :
    Increasing ((ofGrammar g).transitions s) := by
  rw [transitions, row?]
  cases found : (ofGrammar g).edges[s]? with
  | none => exact .nil
  | some row => exact increasing_of_mem_edges first row (List.mem_of_getElem? found)

/-- Looks a symbol up by halves: the symbol in the middle of the row says which half it is in. -/
def search (x : Symbol) (row : Transitions) : Option Nat :=
  if several : 1 < row.length then
    have inside : row.length / 2 < row.length := by omega
    if x < row[row.length / 2].1 then search x (row.take (row.length / 2))
    else search x (row.drop (row.length / 2))
  else row.head?.bind fun e => if x = e.1 then some e.2 else none
termination_by row.length
decreasing_by
  · rw [List.length_take]
    omega
  · rw [List.length_drop]
    omega

theorem lookup_eq_none_of_ne (h : ∀ e ∈ row, e.1 ≠ x) : row.lookup x = none := by
  rw [List.lookup_eq_none_iff]
  intro e he
  simpa using (h e he).symm

theorem Increasing.mem_iff_lookup {j : Nat} (sorted : Increasing row) :
    (x, j) ∈ row ↔ row.lookup x = some j := by
  induction row with
  | nil => simp
  | cons e row ih =>
      obtain ⟨y, k⟩ := e
      obtain ⟨least, rest⟩ := List.pairwise_cons.1 sorted
      rw [List.mem_cons, ih rest, List.lookup_cons]
      by_cases same : x = y
      · subst same
        have none_behind : row.lookup x = none := lookup_eq_none_of_ne fun e he same => by
          have lt := least e he
          rw [same] at lt
          exact StrictOrder.irrefl _ lt
        simp [none_behind, eq_comm]
      · rw [beq_eq_false_iff_ne.2 same]
        simp [same]

theorem lookup_drop_eq_none (sorted : Increasing row) {i : Nat} (inside : i < row.length)
    (below : x < row[i].1) : (row.drop i).lookup x = none := by
  refine lookup_eq_none_of_ne fun e he same => ?_
  rw [List.drop_eq_getElem_cons inside] at he
  subst same
  cases List.mem_cons.1 he with
  | inl here =>
      rw [← here] at below
      exact StrictOrder.irrefl _ below
  | inr later =>
      obtain ⟨j, hj, rfl⟩ := List.getElem_of_mem later
      have bound : i + 1 + j < row.length := by
        rw [List.length_drop] at hj
        omega
      have lt := List.pairwise_iff_getElem.1 sorted i (i + 1 + j) inside bound (by omega)
      rw [List.getElem_drop] at below
      exact StrictOrder.irrefl _ (StrictOrder.trans below lt)

theorem lookup_take_eq_none (sorted : Increasing row) {i : Nat} (inside : i < row.length)
    (above : ¬ x < row[i].1) : (row.take i).lookup x = none := by
  refine lookup_eq_none_of_ne fun e he same => above ?_
  obtain ⟨j, hj, rfl⟩ := List.getElem_of_mem he
  have lt_i : j < i := by
    rw [List.length_take] at hj
    omega
  have lt := List.pairwise_iff_getElem.1 sorted j i (lt_i.trans inside) inside lt_i
  rwa [← same, List.getElem_take]

theorem search_eq_lookup (sorted : Increasing row) : search x row = row.lookup x := by
  induction row using search.induct (x := x) with
  | case1 row several inside below ih =>
      rw [search, dif_pos several, if_pos below, ih (sorted.sublist (List.take_sublist _ _))]
      conv_rhs => rw [← List.take_append_drop (row.length / 2) row]
      rw [List.lookup_append, lookup_drop_eq_none sorted inside below, Option.or_none]
  | case2 row several inside above ih =>
      rw [search, dif_pos several, if_neg above, ih (sorted.sublist (List.drop_sublist _ _))]
      conv_rhs => rw [← List.take_append_drop (row.length / 2) row]
      rw [List.lookup_append, lookup_take_eq_none sorted inside above, Option.none_or]
  | case3 row single =>
      rw [search, dif_neg single]
      cases row with
      | nil => rfl
      | cons e row =>
          obtain ⟨y, target⟩ := e
          obtain rfl : row = [] := by simpa using single
          by_cases same : x = y
          · simp [same]
          · rw [List.head?_cons, Option.bind_some, if_neg same, lookup_eq_none_of_ne]
            simpa using Ne.symm same

end Automaton

end ShiftReduce
