import ShiftReduce.Proofs.Grammar.Derivation

/-!
Rightmost derivations can be checked. Which form comes next is computed from the form and the
production (`replaceLast?_eq_some_iff`), so a list of productions is replayed on the start symbol
and its last form compared with the tokens (`rightmostDerivation_iff`).
-/

namespace ShiftReduce.Grammar

variable {g : Grammar} {p : Production} {ns : List Nat} {α β : List Symbol}

def isTerminal : Symbol → Bool
  | .terminal _ => true
  | _ => false

theorem all_isTerminal_iff : α.all isTerminal ↔ ∃ ts : List Nat, α = ts.map .terminal := by
  induction α with
  | nil => exact ⟨fun _ => ⟨[], rfl⟩, fun _ => rfl⟩
  | cons x α ih =>
      rw [List.all_cons, Bool.and_eq_true, ih]
      apply Iff.intro
      · intro ⟨terminal, ts, rest⟩
        cases x with
        | terminal t => exact ⟨t :: ts, by rw [rest, List.map_cons]⟩
        | nonterminal a => cases terminal
        | empty => cases terminal
      · intro ⟨ts, whole⟩
        cases ts with
        | nil => cases whole
        | cons t ts =>
            obtain ⟨rfl, rest⟩ := List.cons.inj whole
            exact ⟨rfl, ts, rest⟩

/-- Puts the right-hand side of `p` in the place of the last nonterminal, which has to be the head
of `p`. -/
def replaceLast? (p : Production) : List Symbol → Option (List Symbol)
  | [] => none
  | x :: α =>
      match replaceLast? p α with
      | some β => some (x :: β)
      | none =>
          if x = .nonterminal p.head ∧ α.all isTerminal then some (p.rhs ++ α) else none

theorem replaceLast?_terminals (ts : List Nat) : replaceLast? p (ts.map .terminal) = none := by
  induction ts with
  | nil => rfl
  | cons t ts ih => simp [replaceLast?, ih]

theorem replaceLast?_eq_some_iff :
    replaceLast? p α = some β ↔ ∃ left, ∃ ts : List Nat,
      α = left ++ .nonterminal p.head :: ts.map .terminal ∧
        β = left ++ p.rhs ++ ts.map .terminal := by
  apply Iff.intro
  · intro h
    induction α generalizing β with
    | nil => cases h
    | cons x α ih =>
        rw [replaceLast?] at h
        cases behind : replaceLast? p α with
        | some γ =>
            rw [behind] at h
            cases h
            obtain ⟨left, ts, rfl, rfl⟩ := ih behind
            exact ⟨x :: left, ts, rfl, rfl⟩
        | none =>
            simp only [behind, Option.ite_none_right_eq_some, Option.some.injEq] at h
            obtain ⟨⟨rfl, terminals⟩, rfl⟩ := h
            obtain ⟨ts, rfl⟩ := all_isTerminal_iff.1 terminals
            exact ⟨[], ts, rfl, rfl⟩
  · intro ⟨left, ts, hα, hβ⟩
    subst hα hβ
    induction left with
    | nil =>
        have terminals := all_isTerminal_iff.2 ⟨ts, rfl⟩
        simp [replaceLast?, replaceLast?_terminals, terminals]
    | cons x left ih => simp [replaceLast?, ih]

theorem rightStep_iff {n : Nat} :
    g.RightStep n α β ↔ ∃ p, g.prod? n = some p ∧ replaceLast? p α = some β := by
  simp only [RightStep, replaceLast?_eq_some_iff, exists_and_left]

def replay? (g : Grammar) : List Nat → List Symbol → Option (List Symbol)
  | [], α => some α
  | n :: ns, α => ((g.prod? n).bind fun p => replaceLast? p α).bind (g.replay? ns)

theorem rightDerives_iff : g.RightDerives ns α β ↔ g.replay? ns α = some β := by
  induction ns generalizing α with
  | nil =>
      rw [replay?, Option.some.injEq]
      apply Iff.intro
      · intro h
        cases h
        rfl
      · intro same
        exact same ▸ .refl α
  | cons n ns ih =>
      simp only [replay?, Option.bind_eq_some_iff, ← ih, ← rightStep_iff]
      apply Iff.intro
      · intro h
        cases h with
        | head step rest => exact ⟨_, step, rest⟩
      · intro ⟨γ, step, rest⟩
        exact .head step rest

theorem indexOf_of_index? {a : Alphabet} {name : String} {t : Nat} (h : a.index? name = some t) :
    a.indexOf name = t := by
  obtain ⟨bound, here⟩ := List.getElem?_eq_some_iff.1 (Alphabet.index?_eq_some_iff.1 h)
  rw [Alphabet.indexOf, ← here, a.nodup.idxOf_getElem]

theorem Spells.eq_map_indexOf {ts : List Nat} {w : List String} (h : g.Spells ts w) :
    ts = w.map g.terms.indexOf := by
  induction w generalizing ts with
  | nil => exact List.map_eq_nil_iff.1 h.symm
  | cons token w ih =>
      cases ts with
      | nil => cases h
      | cons t ts =>
          obtain ⟨here, rest⟩ := List.cons.inj h
          rw [List.map_cons, indexOf_of_index? here, ← ih rest]

theorem rightmostDerivation_iff {w : List String} :
    g.RightmostDerivation ns w ↔ g.Spells (w.map g.terms.indexOf) w ∧
      g.replay? ns [.nonterminal g.start] =
        some ((w.map g.terms.indexOf).map .terminal) := by
  rw [← rightDerives_iff]
  apply Iff.intro
  · intro ⟨ts, spelled, derives⟩
    rw [← spelled.eq_map_indexOf]
    exact ⟨spelled, derives⟩
  · intro ⟨spelled, derives⟩
    exact ⟨_, spelled, derives⟩

instance {ts : List Nat} {w : List String} : Decidable (g.Spells ts w) :=
  inferInstanceAs (Decidable (w.map g.terms.index? = ts.map some))

instance {w : List String} : Decidable (g.RightmostDerivation ns w) :=
  decidable_of_iff' _ rightmostDerivation_iff

end ShiftReduce.Grammar
