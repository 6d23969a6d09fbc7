import ShiftReduce.Proofs.Automaton.Growing
import ShiftReduce.Proofs.Table.Cells
import ShiftReduce.Proofs.TerminalSets.Scanning

/-!
A table that is filled one entry at a time. Every cell starts out empty; the items of a state add
shifts and reductions in their order, its transitions add gotos, and an entry is added to a cell at
most once. States, columns and nonterminals are looked up by number with a check. Where the items
are items of the grammar, the rows are ordered and the sets fit the grammar (`Fillable`), no look-up
fails, also not in the column of the end marker, and the cells are those of `build` (`fill?_eq`).
-/

namespace ShiftReduce

/-- A transition, found by halves in the row of a state that there has to be. -/
def Automaton.transition? (a : Automaton) (s : Nat) (x : Symbol) : Option (Option Nat) := do
  let row ← a.edges[s]?
  return search x row

namespace Table

open Automaton (Increasing search)

abbrev Slots := List (List Action)

def join (cell : List Action) (e : Action) : List Action := if e ∈ cell then cell else cell ++ [e]

def put (row : Slots) (entry : Nat × Action) : Slots :=
  row.modify entry.1 fun cell => join cell entry.2

def add? (s : Nat) (cells : List Slots) (entry : Nat × Action) : Option (List Slots) := do
  let row ← cells[s]?
  let cell ← row[entry.1]?
  if entry.2 ∈ cell then return cells
  else return cells.set s (row.set entry.1 (cell ++ [entry.2]))

def itemEntries? (g : Grammar) (ff : TerminalSets) (a : Automaton) (s : Nat) (i : Item) :
    Option (List (Nat × Action)) := do
  match ← i.peek? g with
  | some (.terminal t) =>
      let target ← a.transition? s (.terminal t)
      return (target.map fun j => (g.nonterms.size + t, .shift j)).toList
  | some _ => return []
  | none =>
      let p ← g.prod? i.prod
      if i.prod = 0 then return [(g.nonterms.size + g.eof, .accept)]
      else
        let f ← ff.facts[p.head]?
        return f.follow.toList.map fun t => (g.nonterms.size + t, .reduce i.prod)

def gotoEntries (row : Transitions) : List (Nat × Action) :=
  row.filterMap fun
    | (.nonterminal b, j) => some (b, .goto j)
    | _ => none

def fillItem? (g : Grammar) (ff : TerminalSets) (a : Automaton) (s : Nat) (cells : List Slots)
    (i : Item) : Option (List Slots) := do
  let entries ← itemEntries? g ff a s i
  entries.foldlM (add? s) cells

def fillState? (g : Grammar) (ff : TerminalSets) (a : Automaton) (cells : List Slots)
    (state : ItemSet × Nat) : Option (List Slots) := do
  let cells ← state.1.toList.foldlM (fillItem? g ff a state.2) cells
  let row ← a.edges[state.2]?
  (gotoEntries row).foldlM (add? state.2) cells

def conflicts? (tab : Table) : Option (List Conflict) := do
  let found ← (List.range tab.size).mapM fun s => do
    let row ← tab.rows[s]?
    return rowConflicts s (tab.rowEntries row)
  return found.flatten

def blank (g : Grammar) : Slots := List.replicate (g.nonterms.size + g.eof + 1) []

def fill? (g : Grammar) (ff : TerminalSets) (a : Automaton) : Option Table := do
  let cells ← a.states.zipIdx.foldlM (fillState? g ff a) (List.replicate a.states.length (blank g))
  let tab : Table := ⟨cells.map fun row => row.map Action.cell?, g.nonterms.size, g.eof⟩
  let _ ← tab.conflicts?
  return tab

theorem conflicts?_eq (tab : Table) : tab.conflicts? = some tab.conflicts := by
  have each := mapM_eq_some_map (f := fun s => do
      let row ← tab.rows[s]?
      return rowConflicts s (tab.rowEntries row))
    (g := fun s => rowConflicts s (tab.row s)) (l := List.range tab.size) fun s hs => by
      rw [row, List.getElem?_eq_getElem (List.mem_range.1 hs)]
      rfl
  rw [conflicts?, each]
  rfl

section

variable {row : Slots} {cells : List Slots} {entries : List (Nat × Action)} {s : Nat}

def gather (c : Nat) (entries : List (Nat × Action)) : List Action :=
  entries.filterMap fun e => if e.1 = c then some e.2 else none

theorem length_put (row : Slots) (e : Nat × Action) : (put row e).length = row.length :=
  List.length_modify _ _ _

theorem length_foldl_put (row : Slots) (entries : List (Nat × Action)) :
    (entries.foldl put row).length = row.length := by
  induction entries generalizing row with
  | nil => rfl
  | cons e entries ih => rw [List.foldl_cons, ih, length_put]

theorem add?_eq {e : Nat × Action} (here : cells[s]? = some row) (inside : e.1 < row.length) :
    add? s cells e = some (cells.set s (put row e)) := by
  obtain ⟨bound, rfl⟩ := List.getElem?_eq_some_iff.1 here
  have joined : put cells[s] e = cells[s].set e.1 (join cells[s][e.1] e.2) :=
    List.modify_eq_set_get _ inside
  simp only [add?, here, List.getElem?_eq_getElem inside, Option.bind_eq_bind, Option.bind_some,
    joined, join]
  split
  · rw [List.set_getElem_self, List.set_getElem_self]
    rfl
  · rfl

theorem foldlM_add? (here : cells[s]? = some row) (inside : ∀ e ∈ entries, e.1 < row.length) :
    entries.foldlM (add? s) cells = some (cells.set s (entries.foldl put row)) := by
  induction entries generalizing cells row with
  | nil =>
      obtain ⟨bound, rfl⟩ := List.getElem?_eq_some_iff.1 here
      simp
  | cons e entries ih =>
      have bound := (List.getElem?_eq_some_iff.1 here).1
      have next : (cells.set s (put row e))[s]? = some (put row e) := by simp [bound]
      rw [List.foldlM_cons, add?_eq here (inside e List.mem_cons_self), Option.bind_eq_bind,
        Option.bind_some, ih next, List.set_set, List.foldl_cons]
      intro f hf
      rw [length_put]
      exact inside f (List.mem_cons_of_mem e hf)

theorem getElem?_foldl_put (row : Slots) (entries : List (Nat × Action)) (c : Nat) :
    (entries.foldl put row)[c]? = row[c]?.map fun cell => (gather c entries).foldl join cell := by
  induction entries generalizing row with
  | nil => simp [gather]
  | cons e entries ih =>
      rw [List.foldl_cons, ih, put, List.getElem?_modify]
      by_cases same : e.1 = c <;> simp [gather, same, Function.comp_def]

theorem foldl_join (l : List Action) : l.foldl join [] = l.eraseDups := by
  induction l using List.reverseRecOn with
  | nil => rfl
  | append_singleton l e ih =>
      rw [List.foldl_append, ih, List.eraseDups_append, List.foldl_cons, List.foldl_nil, join]
      by_cases old : e ∈ l
      · simp [old, List.removeAll]
      · simp [old, List.removeAll, List.eraseDups_cons]

theorem foldl_put_blank (n : Nat) (entries : List (Nat × Action)) :
    entries.foldl put (List.replicate n []) =
      (List.range n).map fun c => (gather c entries).eraseDups := by
  refine List.ext_getElem? fun c => ?_
  rw [getElem?_foldl_put, List.getElem?_replicate, List.getElem?_map]
  by_cases inside : c < n
  · rw [if_pos inside, List.getElem?_range inside, Option.map_some, Option.map_some, foldl_join]
  · simp [inside]

end

def itemEntries (g : Grammar) (ff : TerminalSets) (row : Transitions) (i : Item) :
    List (Nat × Action) :=
  match i.next? g with
  | some (.terminal t) =>
      ((row.lookup (.terminal t)).map fun j => (g.nonterms.size + t, .shift j)).toList
  | some _ => []
  | none =>
      if i.prod = 0 then [(g.nonterms.size + g.eof, .accept)]
      else
        match g.prod? i.prod with
        | some p => (ff.follow p.head).toList.map fun t => (g.nonterms.size + t, .reduce i.prod)
        | none => []

def stateEntries (g : Grammar) (ff : TerminalSets) (row : Transitions) (items : ItemSet) :
    List (Nat × Action) :=
  items.toList.flatMap (itemEntries g ff row) ++ gotoEntries row

/-- What filling relies on: the items of the states, the rows and the sets all are about `g`. -/
structure Fillable (g : Grammar) (ff : TerminalSets) (a : Automaton) : Prop where
  head_lt : ∀ p ∈ g.prods, p.head < g.nonterms.size
  sets : ff.Fits g
  fits : ∀ items ∈ a.states, items.fits g
  length_edges : a.edges.length = a.states.length
  increasing : ∀ row ∈ a.edges, Increasing row
  known : ∀ row ∈ a.edges, ∀ e ∈ row, e.1 ∈ g.symbols

theorem filterMap_ite_eq {α β : Type} [DecidableEq α] {l : List α} (nodup : l.Nodup) (a : α)
    (b : β) :
    (l.filterMap fun c => if c = a then some b else none) = if a ∈ l then [b] else [] := by
  induction l with
  | nil => rfl
  | cons c l ih =>
      obtain ⟨other, nodup⟩ := List.nodup_cons.1 nodup
      rw [List.filterMap_cons, ih nodup]
      by_cases same : c = a
      · subst same
        simp [other]
      · simp [same, Ne.symm same]

section

variable {g : Grammar} {ff : TerminalSets} {row : Transitions} {items : ItemSet} {i : Item}
  {t b : Nat} {e : Nat × Action}

theorem gather_append (c : Nat) (entries more : List (Nat × Action)) :
    gather c (entries ++ more) = gather c entries ++ gather c more :=
  List.filterMap_append

theorem gather_eq_nil {c : Nat} {entries : List (Nat × Action)} (other : ∀ e ∈ entries, e.1 ≠ c) :
    gather c entries = [] := by
  rw [gather, List.filterMap_eq_nil_iff]
  exact fun e he => if_neg (other e he)

theorem gather_itemEntries :
    gather (g.nonterms.size + t) (itemEntries g ff row i) =
      (entryFor g ff row t (i, i.next? g)).toList := by
  unfold itemEntries
  cases next : i.next? g with
  | some x =>
      cases x with
      | terminal u =>
          by_cases same : u = t
          · subst same
            cases target : row.lookup (.terminal u) <;> simp [entryFor, gather, target]
          · cases target : row.lookup (.terminal u) <;> simp [entryFor, gather, same]
      | nonterminal b => simp [entryFor, gather]
      | empty => simp [entryFor, gather]
  | none =>
      by_cases zero : i.prod = 0
      · by_cases eof : t = g.eof
        · simp [entryFor, gather, zero, eof]
        · simp [entryFor, gather, zero, eof, Ne.symm eof]
      · cases found : g.prod? i.prod with
        | none => simp [entryFor, gather, zero, found]
        | some p =>
            have one := filterMap_ite_eq (ff.follow p.head).nodup_toList t (Action.reduce i.prod)
            simp only [entryFor, gather, zero, found, List.filterMap_map, if_false,
              Nat.add_left_cancel_iff, Function.comp_def, one, OrderedSet.mem_def]
            split <;> rfl

theorem gather_gotoEntries (increasing : Increasing row) :
    gather b (gotoEntries row) = ((row.lookup (.nonterminal b)).map Action.goto).toList := by
  induction row with
  | nil => rfl
  | cons e row ih =>
      obtain ⟨x, j⟩ := e
      obtain ⟨least, rest⟩ := List.pairwise_cons.1 increasing
      by_cases same : x = .nonterminal b
      · subst same
        have none_behind : gather b (gotoEntries row) = [] := by
          rw [ih rest, Automaton.lookup_eq_none_of_ne]
          · rfl
          · exact fun e he same => StrictOrder.irrefl _ (same ▸ least e he)
        rw [gather, gotoEntries] at none_behind
        simp [gather, gotoEntries, none_behind]
      · have other : (Symbol.nonterminal b == x) = false := beq_eq_false_iff_ne.2 (Ne.symm same)
        rw [List.lookup_cons, other, ← ih rest]
        cases x with
        | nonterminal c =>
            have apart : c ≠ b := fun h => same (h ▸ rfl)
            simp [gather, gotoEntries, apart]
        | terminal u => rfl
        | empty => rfl

theorem column_of_mem_gotoEntries (known : ∀ e ∈ row, e.1 ∈ g.symbols) (he : e ∈ gotoEntries row) :
    e.1 < g.nonterms.size := by
  obtain ⟨⟨x, j⟩, mem, here⟩ := List.mem_filterMap.1 he
  have symbol := known _ mem
  cases x with
  | nonterminal c =>
      cases here
      simpa [Grammar.mem_symbols] using symbol
  | terminal u => cases here
  | empty => cases here

theorem column_of_mem_itemEntries (sets : ff.Fits g) (known : ∀ e ∈ row, e.1 ∈ g.symbols)
    (increasing : Increasing row) (he : e ∈ itemEntries g ff row i) :
    g.nonterms.size ≤ e.1 ∧ e.1 < g.nonterms.size + g.eof + 1 := by
  unfold itemEntries at he
  split at he
  · rename_i t _
    simp only [Option.mem_toList, Option.map_eq_some_iff] at he
    obtain ⟨j, target, rfl⟩ := he
    have symbol := known _ (increasing.mem_iff_lookup.2 target)
    have bound : t < g.eof := by simpa [Grammar.mem_symbols, Grammar.eof] using symbol
    exact ⟨Nat.le_add_right _ _, by dsimp only; omega⟩
  · cases he
  · split at he
    · rw [List.mem_singleton.1 he]
      exact ⟨Nat.le_add_right _ _, Nat.lt_succ_self _⟩
    · split at he
      · obtain ⟨t, mem, rfl⟩ := List.mem_map.1 he
        have bound := sets.le_of_mem_follow mem
        exact ⟨Nat.le_add_right _ _, by dsimp only; omega⟩
      · cases he

theorem map_gather_stateEntries (sets : ff.Fits g) (known : ∀ e ∈ row, e.1 ∈ g.symbols)
    (increasing : Increasing row) :
    ((List.range (g.nonterms.size + g.eof + 1)).map fun c =>
      (gather c (stateEntries g ff row items)).eraseDups).map Action.cell? =
      cells g ff row (items.marked g) := by
  have goto (b : Nat) (hb : b < g.nonterms.size) :
      (gather b (stateEntries g ff row items)).eraseDups =
        entries g ff row (items.marked g) (.nonterminal b) := by
    have none_of_items : gather b (items.toList.flatMap (itemEntries g ff row)) = [] := by
      refine gather_eq_nil fun e he same => ?_
      obtain ⟨i, _, he⟩ := List.mem_flatMap.1 he
      have beyond := (column_of_mem_itemEntries sets known increasing he).1
      omega
    rw [stateEntries, gather_append, none_of_items, List.nil_append,
      gather_gotoEntries increasing, entries]
    cases row.lookup (.nonterminal b) <;> simp [List.eraseDups_cons]
  have action (t : Nat) : (gather (g.nonterms.size + t) (stateEntries g ff row items)).eraseDups =
      entries g ff row (items.marked g) (.terminal t) := by
    have none_of_gotos : gather (g.nonterms.size + t) (gotoEntries row) = [] := by
      refine gather_eq_nil fun e he same => ?_
      have inside := column_of_mem_gotoEntries known he
      omega
    rw [stateEntries, gather_append, none_of_gotos, List.append_nil, entries, gather,
      List.filterMap_flatMap]
    congr 1
    rw [ItemSet.marked, List.filterMap_map, List.filterMap_eq_flatMap_toList]
    exact List.flatMap_congr fun i _ => gather_itemEntries
  rw [cells, columns, Nat.add_assoc, List.range_add, List.map_append, List.map_append,
    List.map_append, List.map_map, List.map_map, List.map_map, List.map_map, List.map_map]
  congr 1
  · refine List.map_congr_left fun b hb => congrArg Action.cell? (goto b (List.mem_range.1 hb))
  · exact List.map_congr_left fun t _ => congrArg Action.cell? (action t)

end

section

variable {g : Grammar} {ff : TerminalSets} {a : Automaton} {items : ItemSet} {i : Item} {s : Nat}
  {cells : List Slots} {slots : Slots}

theorem mem_edges_of_lt (fillable : Fillable g ff a) (state : a.states[s]? = some items) :
    a.edges[s]? = some (a.transitions s) ∧ a.transitions s ∈ a.edges := by
  have bound := (List.getElem?_eq_some_iff.1 state).1
  rw [← fillable.length_edges] at bound
  rw [Automaton.transitions, Automaton.row?, List.getElem?_eq_getElem bound]
  exact ⟨rfl, List.getElem_mem bound⟩

theorem itemEntries?_eq (fillable : Fillable g ff a) (state : a.states[s]? = some items)
    (hi : i ∈ items) :
    itemEntries? g ff a s i = some (itemEntries g ff (a.transitions s) i) := by
  obtain ⟨row, mem⟩ := mem_edges_of_lt fillable state
  have known := ItemSet.fits_iff.1 (fillable.fits items (List.mem_of_getElem? state)) i hi
  have found : g.prod? i.prod = some g.prods[i.prod] := Array.getElem?_eq_getElem known
  simp only [itemEntries?, itemEntries, Item.peek?_eq known, Option.bind_eq_bind, Option.bind_some]
  cases next : i.next? g with
  | some x =>
      cases x with
      | terminal t =>
          have target : a.transition? s (.terminal t) =
              some ((a.transitions s).lookup (.terminal t)) := by
            rw [Automaton.transition?, row,
              ← Automaton.search_eq_lookup (fillable.increasing _ mem)]
            rfl
          simp only [target]
          rfl
      | nonterminal b => rfl
      | empty => rfl
  | none =>
      have head := fillable.head_lt _ (Array.getElem_mem known)
      rw [← fillable.sets.size_eq] at head
      simp only [found, Option.bind_some, TerminalSets.getElem?_facts head]
      split <;> rfl

theorem foldlM_fillItem? (fillable : Fillable g ff a) (state : a.states[s]? = some items)
    {l : List Item} (sub : ∀ i ∈ l, i ∈ items) (here : cells[s]? = some slots)
    (width : slots.length = g.nonterms.size + g.eof + 1) :
    l.foldlM (fillItem? g ff a s) cells =
      some (cells.set s ((l.flatMap (itemEntries g ff (a.transitions s))).foldl put slots)) := by
  obtain ⟨_, mem⟩ := mem_edges_of_lt fillable state
  induction l generalizing cells slots with
  | nil =>
      obtain ⟨bound, rfl⟩ := List.getElem?_eq_some_iff.1 here
      simp
  | cons i l ih =>
      have bound := (List.getElem?_eq_some_iff.1 here).1
      have inside : ∀ e ∈ itemEntries g ff (a.transitions s) i, e.1 < slots.length := fun e he =>
        width ▸ (column_of_mem_itemEntries fillable.sets (fillable.known _ mem)
          (fillable.increasing _ mem) he).2
      have first : fillItem? g ff a s cells i =
          some (cells.set s ((itemEntries g ff (a.transitions s) i).foldl put slots)) := by
        rw [fillItem?, itemEntries?_eq fillable state (sub i List.mem_cons_self)]
        exact foldlM_add? here inside
      have next : (cells.set s ((itemEntries g ff (a.transitions s) i).foldl put slots))[s]? =
          some ((itemEntries g ff (a.transitions s) i).foldl put slots) := by simp [bound]
      rw [List.foldlM_cons, first, Option.bind_eq_bind, Option.bind_some,
        ih (fun j hj => sub j (List.mem_cons_of_mem i hj)) next (by rw [length_foldl_put, width]),
        List.set_set, List.flatMap_cons, List.foldl_append]

theorem fillState?_eq (fillable : Fillable g ff a) (state : a.states[s]? = some items)
    (here : cells[s]? = some slots) (width : slots.length = g.nonterms.size + g.eof + 1) :
    fillState? g ff a cells (items, s) =
      some (cells.set s ((stateEntries g ff (a.transitions s) items).foldl put slots)) := by
  obtain ⟨row, mem⟩ := mem_edges_of_lt fillable state
  have bound := (List.getElem?_eq_some_iff.1 here).1
  have of_items := foldlM_fillItem? fillable state (fun _ hi => hi) here width
  have inside : ∀ e ∈ gotoEntries (a.transitions s), e.1 < slots.length := by
    intro e he
    have column := column_of_mem_gotoEntries (fillable.known _ mem) he
    omega
  have begun : (cells.set s ((items.toList.flatMap (itemEntries g ff (a.transitions s))).foldl
      put slots))[s]? = some _ := List.getElem?_set_self bound
  simp only [fillState?, of_items, row, Option.bind_eq_bind, Option.bind_some]
  rw [foldlM_add? begun (by rwa [length_foldl_put]), List.set_set, stateEntries, List.foldl_append]

def filled (g : Grammar) (ff : TerminalSets) (a : Automaton) (state : ItemSet × Nat) : Slots :=
  (stateEntries g ff (a.transitions state.2) state.1).foldl put (blank g)

theorem foldlM_fillState? (fillable : Fillable g ff a) {done : List Slots} {l : List ItemSet}
    (states : ∀ j items, l[j]? = some items → a.states[done.length + j]? = some items) :
    (l.zipIdx done.length).foldlM (fillState? g ff a)
        (done ++ List.replicate l.length (blank g)) =
      some (done ++ (l.zipIdx done.length).map (filled g ff a)) := by
  induction l generalizing done with
  | nil => simp
  | cons items l ih =>
      have here : (done ++ List.replicate (items :: l).length (blank g))[done.length]? =
          some (blank g) := by simp [List.replicate_succ]
      have state : a.states[done.length]? = some items := states 0 items rfl
      have first := fillState?_eq fillable state here List.length_replicate
      have behind : ∀ j other, l[j]? = some other →
          a.states[(done ++ [filled g ff a (items, done.length)]).length + j]? = some other := by
        intro j other hj
        rw [List.length_append, List.length_singleton, Nat.add_assoc, Nat.add_comm 1]
        exact states (j + 1) other hj
      have rest := ih behind
      rw [List.length_append, List.length_singleton] at rest
      rw [List.zipIdx_cons, List.foldlM_cons, first, Option.bind_eq_bind, Option.bind_some]
      simpa [List.replicate_succ, filled] using rest

theorem fill?_eq (fillable : Fillable g ff a) : fill? g ff a = some (build g ff a) := by
  have states : ∀ j items, a.states[j]? = some items →
      a.states[([] : List Slots).length + j]? = some items := by simp
  have cells := foldlM_fillState? fillable states
  have rows : (a.states.zipIdx.map (filled g ff a)).map (fun row => row.map Action.cell?) =
      (build g ff a).rows := by
    rw [List.map_map, build]
    refine List.map_congr_left fun state mem => ?_
    have here := List.mem_zipIdx_iff_getElem?.1 mem
    obtain ⟨_, row⟩ := mem_edges_of_lt fillable here
    rw [Function.comp_apply, filled, blank, foldl_put_blank]
    exact map_gather_stateEntries fillable.sets (fillable.known _ row) (fillable.increasing _ row)
  rw [List.nil_append, List.nil_append, List.length_nil] at cells
  simp only [fill?, cells, conflicts?_eq, rows, Option.bind_eq_bind, Option.bind_some]
  rfl

theorem fillable_ofGrammar (wf : g.WellFormed) {p : Production} (first : g.prod? 0 = some p) :
    Fillable g (TerminalSets.ofGrammar g) (Automaton.ofGrammar g) := by
  obtain ⟨kernels, explored, full⟩ := Automaton.exists_explored first
  refine ⟨wf.head_lt, TerminalSets.fits_ofGrammar wf, fun items mem => ?_, ?_,
    Automaton.increasing_of_mem_edges first, fun row mem e he => ?_⟩
  · rw [explored.states_eq_map full] at mem
    obtain ⟨kernel, hk, rfl⟩ := List.mem_map.1 mem
    exact explored.fits_closure first hk
  · rw [explored.edges_eq, List.length_map]
  · rw [explored.edges_eq] at mem
    obtain ⟨items, _, rfl⟩ := List.mem_map.1 mem
    obtain ⟨x, hx, here⟩ := List.mem_filterMap.1 he
    obtain ⟨_, here⟩ := Option.ite_none_left_eq_some.1 here
    cases here
    exact hx

end

end Table

end ShiftReduce
