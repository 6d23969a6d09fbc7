import ShiftReduce.ItemSet

/-!
The canonical collection of LR(0) item sets. State 0 is the closure of the first production with
the dot in front; the others are numbered as they are discovered, where states are taken in order
and the symbols of each nonterminals first. A state is known again by its kernel, the items that a
closure has been taken of: no kernel is listed twice, so there are no more states than sets of
items.
-/

namespace ShiftReduce

abbrev Transitions := List (Symbol × Nat)

structure Automaton where
  states : List ItemSet
  edges : List Transitions
deriving DecidableEq

namespace Automaton

/-- The kernels known once all transitions of a state have been found, and these transitions. -/
def successors (items : List MarkedItem) :
    List Symbol → List ItemSet → List ItemSet × Transitions
  | [], kernels => (kernels, [])
  | x :: xs, kernels =>
      let target := ItemSet.moved x items
      if target.isEmpty then successors items xs kernels
      else
        let number := kernels.idxOf target
        let known := if number < kernels.length then kernels else kernels ++ [target]
        let (final, row) := successors items xs known
        (final, (x, number) :: row)

/-- Closes and expands the kernels that have no state yet, in order. -/
def explore (g : Grammar) : Nat → List ItemSet → Automaton → Automaton
  | 0, _, a => a
  | n + 1, kernels, a =>
      match kernels[a.states.length]? with
      | none => a
      | some kernel =>
          let items := kernel.closure g
          let (kernels, row) := successors (items.marked g) g.symbols kernels
          explore g n kernels ⟨a.states ++ [items], a.edges ++ [row]⟩

def itemCount (g : Grammar) : Nat :=
  g.prods.toList.foldr (fun p count => p.rhs.length + 1 + count) 0

def ofGrammar (g : Grammar) : Automaton :=
  explore g (Nat.pow 2 (itemCount g)) [.singleton ⟨0, 0⟩] ⟨[], []⟩

def size (a : Automaton) : Nat := a.states.length

def row? (a : Automaton) (s : Nat) : Option Transitions := a.edges[s]?

def transitions (a : Automaton) (s : Nat) : Transitions := (a.row? s).getD []

def transition (a : Automaton) (s : Nat) (x : Symbol) : Option Nat := (a.transitions s).lookup x

/-- Whether a state holds the first production with its one symbol read. -/
def accepts (items : ItemSet) : Bool := (⟨0, 1⟩ : Item) ∈ items

end Automaton

end ShiftReduce
