import ShiftReduce.Alphabet
import ShiftReduce.Text.Words

/-!
Context-free grammars. Symbols and productions have numbers; those of symbols are positions in the
two alphabets of the grammar, and `Symbol.empty` stands for the empty string and never beside
another symbol of a body. `augment` puts a fresh start symbol `S'` with the one production `S' -> S`
in front of everything; the end marker is the terminal after the last one of the alphabet and is
never found by its spelling. Written as text, a grammar has one line per head, its bodies separated
by bars, and the production that augmentation adds is not shown.
-/

namespace ShiftReduce

inductive Symbol where
  | nonterminal (index : Nat)
  | terminal (index : Nat)
  | empty
deriving DecidableEq

structure Production where
  head : Nat
  body : List Symbol
deriving DecidableEq

namespace Production

def isEmpty (p : Production) : Bool := p.body = [.empty]

/-- The symbols that a dot moves over: the body, or nothing where the body is the empty string. -/
def rhs (p : Production) : List Symbol := if p.isEmpty then [] else p.body

theorem rhs_of_isEmpty {p : Production} (h : p.isEmpty) : p.rhs = [] := by
  simp [rhs, h]

theorem rhs_of_not_isEmpty {p : Production} (h : ¬ p.isEmpty) : p.rhs = p.body := by
  simp [rhs, h]

theorem rhs_map {ρ : Symbol → Symbol} (apart : ∀ x, ρ x = .empty ↔ x = .empty) (head : Nat)
    (p : Production) : (⟨head, p.body.map ρ⟩ : Production).rhs = p.rhs.map ρ := by
  have same : (⟨head, p.body.map ρ⟩ : Production).isEmpty = p.isEmpty := by
    refine decide_eq_decide.2 ⟨fun marker => ?_, fun marker => ?_⟩
    · obtain ⟨x, body, here⟩ := List.map_eq_singleton_iff.1 marker
      rw [body, (apart x).1 here]
    · rw [marker, List.map_singleton, (apart .empty).2 rfl]
  rw [rhs, rhs, same]
  split <;> rfl

end Production

namespace Symbol

/-- The same symbol once a nonterminal has been put in front of all others. -/
def shift : Symbol → Symbol
  | nonterminal a => nonterminal (a + 1)
  | other => other

theorem shift_injective {x y : Symbol} (h : x.shift = y.shift) : x = y := by
  cases x <;> cases y <;> simp_all [shift]

end Symbol

structure Grammar where
  nonterms : Alphabet
  terms : Alphabet
  start : Nat
  prods : Array Production
  augmented : Bool
deriving DecidableEq

namespace Grammar

def emptySpelling : String := "^"

def endSpelling : String := "$"

def eof (g : Grammar) : Nat := g.terms.size

def prod? (g : Grammar) (p : Nat) : Option Production := g.prods[p]?

def rules (g : Grammar) (nonterm : Nat) : List Nat :=
  (g.prods.toList.zipIdx.filter fun (p, _) => p.head == nonterm).map (·.2)

def nonterminals (g : Grammar) : List Symbol :=
  (List.range g.nonterms.size).map .nonterminal

/-- The terminals without the end marker. -/
def terminals (g : Grammar) : List Symbol :=
  (List.range g.terms.size).map .terminal

def symbols (g : Grammar) : List Symbol := g.nonterminals ++ g.terminals

def undefinedNonterms (g : Grammar) : List Nat :=
  (List.range g.nonterms.size).filter fun a => g.prods.all fun p => p.head != a

def nontermName (g : Grammar) (a : Nat) : String := (g.nonterms.name? a).getD ""

def termName (g : Grammar) (t : Nat) : String :=
  if t = g.eof then endSpelling else (g.terms.name? t).getD ""

def symbolName (g : Grammar) : Symbol → String
  | .nonterminal a => g.nontermName a
  | .terminal t => g.termName t
  | .empty => emptySpelling

/-- The symbol of a spelling, where nonterminals come before terminals. -/
def symbol? (g : Grammar) (name : String) : Option Symbol :=
  if name = emptySpelling then some .empty
  else (g.nonterms.index? name).map .nonterminal <|> (g.terms.index? name).map .terminal

def augmentedName (name : String) : String := name ++ "'"

def augment (g : Grammar) : Grammar :=
  if g.augmented then g
  else
    { nonterms := Alphabet.ofList (augmentedName (g.nontermName g.start) :: g.nonterms.names)
      terms := g.terms
      start := 0
      prods := #[⟨0, [.nonterminal (g.start + 1)]⟩] ++
        g.prods.map fun p => ⟨p.head + 1, p.body.map Symbol.shift⟩
      augmented := true }

theorem mem_rules {g : Grammar} {a n : Nat} :
    n ∈ g.rules a ↔ ∃ p, g.prod? n = some p ∧ p.head = a := by
  simp only [rules, prod?, List.mem_map, List.mem_filter, Prod.exists, List.mem_zipIdx_iff_getElem?,
    Array.getElem?_toList, beq_iff_eq]
  constructor
  · rintro ⟨p, _, ⟨found, head⟩, rfl⟩
    exact ⟨p, found, head⟩
  · rintro ⟨p, found, head⟩
    exact ⟨p, n, ⟨found, head⟩, rfl⟩

theorem augmented_augment (g : Grammar) : g.augment.augmented := by
  unfold augment
  split <;> simp_all

theorem augment_augment (g : Grammar) : g.augment.augment = g.augment := by
  rw [augment, if_pos g.augmented_augment]

theorem eof_augment (g : Grammar) : g.augment.eof = g.eof := by
  unfold augment
  split <;> rfl

def bodyText (g : Grammar) (p : Production) : String :=
  Text.spaced (p.body.map g.symbolName)

def productionText (g : Grammar) (p : Production) : String :=
  g.nontermName p.head ++ " -> " ++ g.bodyText p

def headText (g : Grammar) (group : List Production) : String :=
  match group with
  | [] => ""
  | p :: rest => " | ".intercalate (g.productionText p :: rest.map g.bodyText)

def ownProductions (g : Grammar) : List Production :=
  if g.augmented then g.prods.toList.drop 1 else g.prods.toList

def toText (g : Grammar) : String :=
  "\n".intercalate ((g.ownProductions.splitBy fun p q => p.head == q.head).map g.headText)

end Grammar

end ShiftReduce
