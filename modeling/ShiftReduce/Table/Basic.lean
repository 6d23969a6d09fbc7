import ShiftReduce.TerminalSets
import ShiftReduce.Automaton
import ShiftReduce.Table.Action

/-!
SLR(1) parse tables: one row per state, and one column per nonterminal, per terminal and for the end
marker, in this order. Complete items reduce on what can follow their head; production 0 accepts
instead, on the end marker alone.
-/

namespace ShiftReduce

structure Table where
  rows : List (List (Option Action))
  nonterms : Nat
  eof : Nat
deriving DecidableEq

structure Conflict where
  state : Nat
  symbol : Symbol
  kind : ConflictKind
  entries : List Action
deriving DecidableEq

namespace Table

/-- What one item of a state with transitions `row` has to say on terminal `t`. -/
def entryFor (g : Grammar) (ff : TerminalSets) (row : Transitions) (t : Nat) :
    MarkedItem → Option Action
  | (_, some (.terminal u)) => if u = t then (row.lookup (.terminal t)).map .shift else none
  | (_, some _) => none
  | (i, none) =>
      if i.prod = 0 then if t = g.eof then some .accept else none
      else
        match g.prod? i.prod with
        | some p => if t ∈ ff.follow p.head then some (.reduce i.prod) else none
        | none => none

def entries (g : Grammar) (ff : TerminalSets) (row : Transitions) (items : List MarkedItem) :
    Symbol → List Action
  | .nonterminal b => ((row.lookup (.nonterminal b)).map .goto).toList
  | .terminal t => (items.filterMap (entryFor g ff row t)).eraseDups
  | .empty => []

def columns (nonterms eof : Nat) : List Symbol :=
  (List.range nonterms).map .nonterminal ++ (List.range (eof + 1)).map .terminal

def cells (g : Grammar) (ff : TerminalSets) (row : Transitions) (items : List MarkedItem) :
    List (Option Action) :=
  (columns g.nonterms.size g.eof).map fun x => Action.cell? (entries g ff row items x)

def build (g : Grammar) (ff : TerminalSets) (a : Automaton) : Table where
  rows := a.states.zipIdx.map fun (items, s) => cells g ff (a.transitions s) (items.marked g)
  nonterms := g.nonterms.size
  eof := g.eof

def size (tab : Table) : Nat := tab.rows.length

def width (tab : Table) : Nat := tab.nonterms + tab.eof + 1

def column? (tab : Table) : Symbol → Option Nat
  | .nonterminal a => if a < tab.nonterms then some a else none
  | .terminal t => if t ≤ tab.eof then some (tab.nonterms + t) else none
  | .empty => none

def lookup (tab : Table) (s : Nat) (x : Symbol) : Option Action := do
  let c ← tab.column? x
  let row ← tab.rows[s]?
  (row[c]?).join

def action (tab : Table) (s t : Nat) : Option Action := tab.lookup s (.terminal t)

def goto (tab : Table) (s a : Nat) : Option Nat :=
  match tab.lookup s (.nonterminal a) with
  | some (.goto target) => some target
  | _ => none

def symbol (tab : Table) (c : Nat) : Symbol :=
  if c < tab.nonterms then .nonterminal c else .terminal (c - tab.nonterms)

def rowEntries (tab : Table) (row : List (Option Action)) : List (Symbol × Action) :=
  row.zipIdx.filterMap fun (cell, c) => cell.map fun a => (tab.symbol c, a)

def row (tab : Table) (s : Nat) : List (Symbol × Action) :=
  tab.rowEntries ((tab.rows[s]?).getD [])

def rowConflicts (s : Nat) (row : List (Symbol × Action)) : List Conflict :=
  row.filterMap fun
    | (x, .conflict entries) => some ⟨s, x, .ofEntries entries, entries⟩
    | _ => none

def conflicts (tab : Table) : List Conflict :=
  (List.range tab.size).flatMap fun s => rowConflicts s (tab.row s)

def isConflict : Option Action → Bool
  | some (.conflict _) => true
  | _ => false

def isSLR1 (tab : Table) : Bool := tab.rows.all fun row => row.all fun cell => !isConflict cell

theorem mem_columns {nonterms eof : Nat} {x : Symbol} :
    x ∈ columns nonterms eof ↔
      (∃ a < nonterms, x = .nonterminal a) ∨ ∃ t ≤ eof, x = .terminal t := by
  simp only [columns, List.mem_append, List.mem_map, List.mem_range, Nat.lt_succ_iff, eq_comm]

theorem getElem?_columns_terminal {nonterms eof t : Nat} (le : t ≤ eof) :
    (columns nonterms eof)[nonterms + t]? = some (.terminal t) := by
  rw [columns, List.getElem?_append_right (by simp), List.length_map, List.length_range,
    Nat.add_sub_cancel_left, List.getElem?_map, List.getElem?_range (Nat.lt_succ_of_le le)]
  rfl

theorem lookup_build {g : Grammar} {ff : TerminalSets} {a : Automaton} {s : Nat} {items : ItemSet}
    {x : Symbol} (state : a.states[s]? = some items)
    (column : x ∈ columns g.nonterms.size g.eof) :
    (build g ff a).lookup s x =
      Action.cell? (entries g ff (a.transitions s) (items.marked g) x) := by
  rcases mem_columns.1 column with ⟨b, hb, rfl⟩ | ⟨t, ht, rfl⟩
  · simp [lookup, column?, build, cells, columns, hb, state, List.getElem?_append]
  · simp [lookup, column?, build, cells, ht, state, getElem?_columns_terminal ht]

def patch? (tab : Table) (s c : Nat) (cell : Option Action) : Option Table := do
  let row ← tab.rows[s]?
  if c < row.length then some { tab with rows := tab.rows.set s (row.set c cell) } else none

end Table

end ShiftReduce
