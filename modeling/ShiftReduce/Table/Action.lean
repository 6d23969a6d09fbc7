/-!
Entries of a parse table. A cell with several entries holds them in one `Action.conflict`, in the
order in which they were found; nothing resolves it.
-/

namespace ShiftReduce

inductive Action where
  | shift (state : Nat)
  | reduce (prod : Nat)
  | accept
  | goto (state : Nat)
  | conflict (entries : List Action)

namespace Action

mutual

def same : Action → Action → Bool
  | shift s, shift t => s == t
  | reduce p, reduce q => p == q
  | accept, accept => true
  | goto s, goto t => s == t
  | conflict as, conflict bs => sameAll as bs
  | _, _ => false

def sameAll : List Action → List Action → Bool
  | [], [] => true
  | a :: as, b :: bs => same a b && sameAll as bs
  | _, _ => false

end

mutual

theorem same_iff : ∀ {a b : Action}, same a b ↔ a = b
  | shift s, b => by cases b <;> simp [same]
  | reduce p, b => by cases b <;> simp [same]
  | accept, b => by cases b <;> simp [same]
  | goto s, b => by cases b <;> simp [same]
  | conflict as, b => by cases b <;> simp [same, sameAll_iff]

theorem sameAll_iff : ∀ {as bs : List Action}, sameAll as bs ↔ as = bs
  | [], bs => by cases bs <;> simp [sameAll]
  | a :: as, bs => by cases bs <;> simp [sameAll, same_iff, sameAll_iff]

end

instance : DecidableEq Action := fun _ _ => decidable_of_iff _ same_iff

/-- Accepting is the reduction by production 0. -/
def isReduction : Action → Bool
  | reduce _ => true
  | accept => true
  | _ => false

mutual

def text : Action → String
  | shift s => "s" ++ toString s
  | reduce p => "r" ++ toString p
  | accept => "acc"
  | goto s => toString s
  | conflict entries => "/".intercalate (texts entries)

def texts : List Action → List String
  | [] => []
  | a :: as => text a :: texts as

end

def cell? : List Action → Option Action
  | [] => none
  | [a] => some a
  | entries => some (conflict entries)

end Action

inductive ConflictKind where
  | shiftReduce
  | reduceReduce
deriving DecidableEq

namespace ConflictKind

/-- Two reductions make a reduce-reduce conflict, whatever else competes with them. -/
def ofEntries (entries : List Action) : ConflictKind :=
  if entries.countP Action.isReduction ≥ 2 then reduceReduce else shiftReduce

def text : ConflictKind → String
  | shiftReduce => "shift-reduce"
  | reduceReduce => "reduce-reduce"

end ConflictKind

end ShiftReduce
