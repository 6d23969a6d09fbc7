import ShiftReduce.Proofs.Table.Conflicts
import ShiftReduce.Proofs.TerminalSets.Exactness

/-!
The SLR(1) condition. A complete item calls for a reduction on what can follow its head, and an item
with a terminal after its dot for a shift. A table has no conflict exactly if no two items that are
valid for one string of symbols call for different moves on one terminal
(`isSLR1_iff_compatible`). Every nonterminal has to occur in a form of the start symbol here: FOLLOW
counts the forms of those that do not.
-/

namespace ShiftReduce

/-- Terminal `t` makes the complete item a reduction. Production 0 is one on the end marker only. -/
inductive Item.ReducesOn (g : Grammar) (i : Item) (t : Nat) : Prop
  | first (complete : i.next? g = none) (zero : i.prod = 0) (eof : t = g.eof)
  | other {p : Production} (complete : i.next? g = none) (positive : i.prod ≠ 0)
      (found : g.prod? i.prod = some p) (follows : g.Follows p.head t)

/-- No terminal calls for a reduction by `i` and for another move by `j`. -/
structure Item.Compatible (g : Grammar) (i j : Item) : Prop where
  reduce : ∀ t, i.ReducesOn g t → ¬ j.ReducesOn g t
  shift : ∀ t, i.ReducesOn g t → j.next? g ≠ some (.terminal t)

variable {c : Construction} {g : Grammar} {start s t : Nat} {i j : Item} {e f : Action}

theorem Table.Entry.unique {ff : TerminalSets} {row : Transitions} {mark : Option Symbol}
    (first : Entry g ff row t i mark e) (second : Entry g ff row t i mark f) : e = f :=
  Option.some.inj ((entryFor_eq_some_iff.2 first).symm.trans (entryFor_eq_some_iff.2 second))

theorem Table.Entry.reduction_or_shift {ff : TerminalSets} {row : Transitions}
    {mark : Option Symbol} (entry : Entry g ff row t i mark e) :
    e.isReduction ∨ mark = some (.terminal t) ∧ (row.lookup (.terminal t)).map .shift = some e := by
  cases entry with
  | shift target => exact .inr ⟨rfl, by rw [target, Option.map_some]⟩
  | accept _ _ => exact .inl rfl
  | reduce _ _ _ => exact .inl rfl

namespace Construction.Built

variable (built : c.Built start)

include built

theorem exists_valid_string {items : ItemSet} (state : c.automaton.states[s]? = some items) :
    ∃ γ, ∀ i, i ∈ items ↔ Item.ValidFor c.grammar γ i := by
  obtain ⟨p, first⟩ := built.exists_first
  rw [built.automaton_eq] at state
  obtain ⟨γ, walk⟩ := Automaton.exists_walk first state
  obtain ⟨items', state', valid⟩ :=
    Automaton.mem_iff_valid first built.augmented.toWellFormed walk
  obtain rfl : items = items' := Option.some.inj (state.symm.trans state')
  exact ⟨γ, fun i => (valid i).trans (valid_iff_validFor first)⟩

theorem exists_state_of_validFor {γ : List Symbol} (valid : i.ValidFor c.grammar γ) :
    ∃ (s : Nat) (items : ItemSet), c.automaton.states[s]? = some items ∧
      ∀ i, i ∈ items ↔ Item.ValidFor c.grammar γ i := by
  obtain ⟨p, first⟩ := built.exists_first
  have wf := built.augmented.toWellFormed
  rw [built.automaton_eq]
  obtain ⟨s, _, walk, _⟩ := Automaton.reached_of_valid first wf ((valid_iff_validFor first).2 valid)
  obtain ⟨items, state, members⟩ := Automaton.mem_iff_valid first wf walk
  exact ⟨s, items, state, fun i => (members i).trans (valid_iff_validFor first)⟩

section

variable {items : ItemSet} (state : c.automaton.states[s]? = some items) (hi : i ∈ items)
  (hj : j ∈ items)

include state hi hj

theorem eq_of_complete (same : i.prod = j.prod) (complete : i.next? c.grammar = none)
    (complete' : j.next? c.grammar = none) : i = j := by
  obtain ⟨p, found, _⟩ := built.inRange_of_mem state i hi
  have dot := (built.complete_iff state hi found).1 complete
  have dot' := (built.complete_iff state hj (same ▸ found)).1 complete'
  rw [show i = ⟨i.prod, i.dot⟩ from rfl, show j = ⟨j.prod, j.dot⟩ from rfl, same, dot, dot']

theorem eq_of_entry (reduction : e.isReduction)
    (first : Table.Entry c.grammar c.sets (c.automaton.transitions s) t i (i.next? c.grammar) e)
    (second : Table.Entry c.grammar c.sets (c.automaton.transitions s) t j (j.next? c.grammar) e) :
    i = j := by
  generalize marked : i.next? c.grammar = mark at first
  generalize marked' : j.next? c.grammar = mark' at second
  cases first with
  | shift _ => cases reduction
  | accept zero _ =>
      cases second with
      | accept zero' _ =>
          exact built.eq_of_complete state hi hj (zero.trans zero'.symm) marked marked'
  | reduce _ _ _ =>
      generalize same : Action.reduce i.prod = made at second
      cases second with
      | shift _ => cases same
      | accept _ _ => cases same
      | reduce _ _ _ =>
          exact built.eq_of_complete state hi hj (Action.reduce.inj same) marked marked'

end

variable (occurs : ∀ a < c.grammar.nonterms.size, c.grammar.Occurs a)

include occurs

theorem reducesOn_iff {row : Transitions} :
    i.ReducesOn c.grammar t ↔ ∃ e : Action, e.isReduction ∧
      Table.Entry c.grammar c.sets row t i (i.next? c.grammar) e := by
  have follow_iff {a : Nat} : t ∈ c.sets.follow a ↔ c.grammar.Follows a t := by
    rw [built.sets_eq]
    exact TerminalSets.mem_follow_iff_follows built.augmented.toWellFormed occurs
  apply Iff.intro
  · intro reduces
    cases reduces with
    | first complete zero eof =>
        rw [complete]
        exact ⟨.accept, rfl, .accept zero eof⟩
    | other complete positive found follows =>
        rw [complete]
        exact ⟨.reduce i.prod, rfl, .reduce positive found (follow_iff.2 follows)⟩
  · intro ⟨e, reduction, entry⟩
    generalize marked : i.next? c.grammar = mark at entry
    cases entry with
    | shift _ => cases reduction
    | accept zero eof => exact .first marked zero eof
    | reduce positive found follow => exact .other marked positive found (follow_iff.1 follow)

variable {items : ItemSet} (state : c.automaton.states[s]? = some items)

include state

theorem compatible_of_offers (single : ∀ t e f, c.Offers s t e → c.Offers s t f → e = f)
    (hi : i ∈ items) (hj : j ∈ items) (apart : i ≠ j) : i.Compatible c.grammar j where
  reduce t reduces reduces' := by
    obtain ⟨e, reduction, entry⟩ := (built.reducesOn_iff occurs).1 reduces
    obtain ⟨f, _, entry'⟩ := (built.reducesOn_iff occurs).1 reduces'
    have same := single t e f (built.offers_of_entry state hi entry)
      (built.offers_of_entry state hj entry')
    exact apart (built.eq_of_entry state hi hj reduction entry (same ▸ entry'))
  shift t reduces next := by
    obtain ⟨e, reduction, entry⟩ := (built.reducesOn_iff occurs).1 reduces
    obtain ⟨k, target⟩ := built.exists_transition_of_next state hj next
    have same := single t e _ (built.offers_of_entry state hi entry) (.shift target)
    rw [same] at reduction
    cases reduction

theorem eq_of_offers (compatible : ∀ i ∈ items, ∀ j ∈ items, i ≠ j → i.Compatible c.grammar j)
    (first : c.Offers s t e) (second : c.Offers s t f) : e = f := by
  obtain ⟨i, hi, entry⟩ := built.exists_entry_of_offers state first
  obtain ⟨j, hj, entry'⟩ := built.exists_entry_of_offers state second
  by_cases same : i = j
  · subst same
    exact entry.unique entry'
  · rcases entry.reduction_or_shift with reduction | ⟨next, made⟩
    · have reduces := (built.reducesOn_iff occurs).2 ⟨e, reduction, entry⟩
      rcases entry'.reduction_or_shift with reduction' | ⟨next', _⟩
      · have reduces' := (built.reducesOn_iff occurs).2 ⟨f, reduction', entry'⟩
        exact absurd reduces' ((compatible i hi j hj same).reduce t reduces)
      · exact absurd next' ((compatible i hi j hj same).shift t reduces)
    · rcases entry'.reduction_or_shift with reduction' | ⟨_, made'⟩
      · have reduces' := (built.reducesOn_iff occurs).2 ⟨f, reduction', entry'⟩
        exact absurd next ((compatible j hj i hi (Ne.symm same)).shift t reduces')
      · exact Option.some.inj (made.symm.trans made')

end Construction.Built

namespace Construction

theorem isSLR1_iff_compatible {text : String} (read : Grammar.ofText text = .ok g)
    (built : ofText text = .ok c) (occurs : ∀ a < g.nonterms.size, g.Occurs a) :
    c.isSLR1 ↔ ∀ γ i j, i ≠ j → Item.ValidFor g.augment γ i → Item.ValidFor g.augment γ j →
      i.Compatible g.augment j := by
  have plain := Grammar.plain_of_ofText read
  have occurs := Grammar.occurs_augment plain occurs
  obtain rfl := eq_ofGrammar read built
  have built := built_ofGrammar plain
  rw [built.isSLR1_iff_offers]
  apply Iff.intro
  · intro single γ i j apart valid valid'
    obtain ⟨s, items, state, members⟩ := built.exists_state_of_validFor valid
    exact built.compatible_of_offers occurs state (single s) ((members i).2 valid)
      ((members j).2 valid') apart
  · intro compatible s t e f first second
    obtain ⟨items, state⟩ := built.state_of_offers first
    obtain ⟨γ, members⟩ := built.exists_valid_string state
    refine built.eq_of_offers occurs state (fun i hi j hj apart => ?_) first second
    exact compatible γ i j apart ((members i).1 hi) ((members j).1 hj)

/-- Assignments: `=` behind the first `L` is shifted, and as it follows `R` in other forms it calls
for the reduction by `R -> L` too. -/
def assignments : Grammar where
  nonterms := .ofList ["S", "L", "R"]
  terms := .ofList ["=", "*", "id"]
  start := 0
  prods := #[⟨0, [.nonterminal 1, .terminal 0, .nonterminal 2]⟩, ⟨0, [.nonterminal 2]⟩,
    ⟨1, [.terminal 1, .nonterminal 2]⟩, ⟨1, [.terminal 2]⟩, ⟨2, [.nonterminal 1]⟩]
  augmented := false

theorem read_assignments :
    Grammar.ofText "S -> L = R | R\nL -> * R | id\nR -> L" = .ok assignments := by
  decide +kernel

theorem occurs_assignments : ∀ a < assignments.nonterms.size, assignments.Occurs a := by
  have step : assignments.Derives [.nonterminal 0] [.nonterminal 1, .terminal 0, .nonterminal 2] :=
    Grammar.derives_rhs (p := ⟨0, [.nonterminal 1, .terminal 0, .nonterminal 2]⟩)
      (by simp [assignments])
  intro a known
  match a, known with
  | 0, _ => exact ⟨[], [], .refl⟩
  | 1, _ => exact ⟨[], [.terminal 0, .nonterminal 2], step⟩
  | 2, _ => exact ⟨[.nonterminal 1, .terminal 0], [], step⟩

theorem compatible_samples :
    (∀ γ i j, i ≠ j → Item.ValidFor Automaton.leftRecursive.augment γ i →
      Item.ValidFor Automaton.leftRecursive.augment γ j →
      i.Compatible Automaton.leftRecursive.augment j) ∧
    ∃ γ i j, i ≠ j ∧ Item.ValidFor assignments.augment γ i ∧
      Item.ValidFor assignments.augment γ j ∧ ¬ i.Compatible assignments.augment j := by
  apply And.intro
  · have occurs : ∀ a < Automaton.leftRecursive.nonterms.size,
        Automaton.leftRecursive.Occurs a := by
      intro a known
      obtain rfl : a = 0 := Nat.lt_one_iff.1 known
      exact ⟨[], [], .refl⟩
    have read := Automaton.read_leftRecursive
    exact (isSLR1_iff_compatible read (ofText_of_read read) occurs).1 (by decide +kernel)
  · have built := ofText_of_read read_assignments
    by_contra none_competes
    push Not at none_competes
    have single := (isSLR1_iff_compatible read_assignments built occurs_assignments).2 none_competes
    exact absurd single (by decide +kernel)

end Construction

end ShiftReduce
