import ShiftReduce.OrderedSet
import ShiftReduce.Grammar.Basic

/-!
FIRST, nullability and FOLLOW of every nonterminal, as the least solution of the two systems of
inclusions that the productions give. Passes over all productions repeat until one changes nothing;
every pass but the last adds a fact, and there are `passLimit - 1` facts in all.
-/

namespace ShiftReduce

/-- Terminals by number, the end marker among them. -/
abbrev TermSet := OrderedSet Nat

structure NontermFacts where
  first : TermSet
  nullable : Bool
  follow : TermSet
deriving DecidableEq

structure TerminalSets where
  facts : Array NontermFacts
deriving DecidableEq

namespace TerminalSets

def first (s : TerminalSets) (a : Nat) : TermSet := (s.facts[a]?.map NontermFacts.first).getD ∅

def nullable (s : TerminalSets) (a : Nat) : Bool :=
  (s.facts[a]?.map NontermFacts.nullable).getD false

def follow (s : TerminalSets) (a : Nat) : TermSet := (s.facts[a]?.map NontermFacts.follow).getD ∅

def firstOf (s : TerminalSets) : Symbol → TermSet × Bool
  | .nonterminal a => (s.first a, s.nullable a)
  | .terminal t => (.singleton t, false)
  | .empty => (∅, true)

/-- FIRST of a string of symbols; what follows a symbol that is not nullable does not count. -/
def firstOfSeq (s : TerminalSets) : List Symbol → TermSet × Bool
  | [] => (∅, true)
  | x :: xs =>
      let head := s.firstOf x
      if head.2 then
        let tail := s.firstOfSeq xs
        (head.1 ∪ tail.1, tail.2)
      else (head.1, false)

def covers (s : TerminalSets) : List Symbol → Bool
  | [] => true
  | .nonterminal a :: xs => a < s.facts.size && (!s.nullable a || s.covers xs)
  | .terminal _ :: _ => true
  | .empty :: xs => s.covers xs

def firstOfSeq? (s : TerminalSets) (xs : List Symbol) : Option (TermSet × Bool) :=
  if s.covers xs then some (s.firstOfSeq xs) else none

def addFirst (s : TerminalSets) (a : Nat) (first : TermSet) (nullable : Bool) : TerminalSets :=
  ⟨s.facts.modify a fun f =>
    { f with first := f.first ∪ first, nullable := f.nullable || nullable }⟩

def addFollow (s : TerminalSets) (a : Nat) (follow : TermSet) : TerminalSets :=
  ⟨s.facts.modify a fun f => { f with follow := f.follow ∪ follow }⟩

/-- What can come next in front of `xs`, where `after` can come after `xs`. -/
def trailing (s : TerminalSets) (after : TermSet) (xs : List Symbol) : TermSet :=
  let seen := s.firstOfSeq xs
  if seen.2 then seen.1 ∪ after else seen.1

/-- The FOLLOW facts that a body gives whose head is followed by `after`. -/
def addFollows (after : TermSet) : List Symbol → TerminalSets → TerminalSets
  | [], s => s
  | .nonterminal a :: xs, s => addFollows after xs (s.addFollow a (s.trailing after xs))
  | _ :: xs, s => addFollows after xs s

def visit (s : TerminalSets) (p : Production) : TerminalSets :=
  let seen := s.firstOfSeq p.body
  let s := s.addFirst p.head seen.1 seen.2
  addFollows (s.follow p.head) p.body s

def pass (g : Grammar) (s : TerminalSets) : TerminalSets := g.prods.foldl visit s

def seed (g : Grammar) : TerminalSets :=
  addFollow ⟨Array.replicate g.nonterms.size ⟨∅, false, ∅⟩⟩ g.start (.singleton g.eof)

/-- Repeats passes until one changes nothing, and counts them with that last one. -/
def settle (g : Grammar) : Nat → TerminalSets → TerminalSets × Nat
  | 0, s => (s, 0)
  | n + 1, s =>
      let next := pass g s
      if next = s then (s, 1)
      else
        let (final, passes) := settle g n next
        (final, passes + 1)

/-- One pass for every fact there can be, and the one that finds nothing new. -/
def passLimit (g : Grammar) : Nat := g.nonterms.size * (2 * g.terms.size + 2) + 1

def ofGrammar (g : Grammar) : TerminalSets := (settle g (passLimit g) (seed g)).1

def passes (g : Grammar) : Nat := (settle g (passLimit g) (seed g)).2

theorem first_addFollow (s : TerminalSets) (a b : Nat) (follow : TermSet) :
    (s.addFollow a follow).first b = s.first b := by
  simp only [first, addFollow, Array.getElem?_modify]
  split <;> simp [Function.comp_def]

theorem nullable_addFollow (s : TerminalSets) (a b : Nat) (follow : TermSet) :
    (s.addFollow a follow).nullable b = s.nullable b := by
  simp only [nullable, addFollow, Array.getElem?_modify]
  split <;> simp [Function.comp_def]

theorem follow_addFirst (s : TerminalSets) (a b : Nat) (first : TermSet) (nullable : Bool) :
    (s.addFirst a first nullable).follow b = s.follow b := by
  simp only [follow, addFirst, Array.getElem?_modify]
  split <;> simp [Function.comp_def]

theorem mem_follow_addFollow {s : TerminalSets} {a b t : Nat} {follow : TermSet} :
    t ∈ (s.addFollow a follow).follow b ↔
      t ∈ s.follow b ∨ a < s.facts.size ∧ a = b ∧ t ∈ follow := by
  simp only [TerminalSets.follow, addFollow, Array.getElem?_modify]
  split
  · rename_i same
    subst same
    by_cases known : a < s.facts.size
    · simp [OrderedSet.mem_union, known]
    · simp [known]
  · simp [*]

theorem mem_first_addFirst {s : TerminalSets} {a b t : Nat} {first : TermSet} {nullable : Bool} :
    t ∈ (s.addFirst a first nullable).first b ↔
      t ∈ s.first b ∨ a < s.facts.size ∧ a = b ∧ t ∈ first := by
  simp only [TerminalSets.first, addFirst, Array.getElem?_modify]
  split
  · rename_i same
    subst same
    by_cases known : a < s.facts.size
    · simp [OrderedSet.mem_union, known]
    · simp [known]
  · simp [*]

theorem nullable_addFirst {s : TerminalSets} {a b : Nat} {first : TermSet} {nullable : Bool} :
    (s.addFirst a first nullable).nullable b ↔
      s.nullable b ∨ a < s.facts.size ∧ a = b ∧ nullable := by
  simp only [TerminalSets.nullable, addFirst, Array.getElem?_modify]
  split
  · rename_i same
    subst same
    by_cases known : a < s.facts.size
    · simp [known]
    · simp [known]
  · simp [*]

end TerminalSets

end ShiftReduce
