import ShiftReduce.Proofs.Table.Conflicts

/-!
What competes in a cell. Entries stand in the order of the items that give them (`Precedes`), and a
state has one complete item of a production, so reductions are listed by increasing numbers and the
one that accepts comes first. Shifts go where the one transition over the terminal leads, and there
is none over the end marker. Hence two entries are a shift and a reduction, or else two of them are
reductions (`Competing`).
-/

namespace ShiftReduce

namespace Action

variable {entries : List Action} {e f : Action}

def isShift : Action → Bool
  | shift _ => true
  | _ => false

def reduction? : Action → Option Nat
  | reduce n => some n
  | _ => none

theorem isReduction_iff : e.isReduction ↔ (∃ n, e = .reduce n) ∨ e = .accept := by
  cases e <;> simp [isReduction]

theorem isShift_iff : e.isShift ↔ ∃ j, e = .shift j := by
  cases e <;> simp [isShift]

/-- `e` may stand in front of `f`: that one does not accept, and of two reductions it has the larger
number. -/
def Precedes (e f : Action) : Prop := f ≠ .accept ∧ ∀ m n, e = .reduce m → f = .reduce n → m < n

theorem pairwise_reductions (ordered : entries.Pairwise Precedes) :
    (entries.filterMap reduction?).Pairwise (· < ·) := by
  refine ordered.filterMap _ fun e f before m hm n hn => ?_
  cases e <;> cases f <;> simp_all [reduction?, Precedes]

theorem head?_eq_accept (ordered : entries.Pairwise Precedes) (mem : .accept ∈ entries) :
    entries.head? = some .accept := by
  cases entries with
  | nil => cases mem
  | cons e entries =>
      obtain ⟨behind, _⟩ := List.pairwise_cons.1 ordered
      rcases List.mem_cons.1 mem with rfl | mem
      · rfl
      · exact absurd rfl (behind _ mem).1

theorem two_le_length_of_cell? (flat : ∀ e ∈ entries, ∀ es, e ≠ .conflict es) {es : List Action}
    (h : cell? entries = some (.conflict es)) : 2 ≤ es.length := by
  obtain rfl := eq_of_cell?_eq_conflict flat h
  match es, flat, h with
  | [e], flat, h => exact absurd (Option.some.inj h) (flat e List.mem_cons_self _)
  | _ :: _ :: _, _, _ => exact Nat.le_add_left 2 _

theorem exists_pair (two_le : 2 ≤ entries.length)
    (kinds : ∀ e ∈ entries, e.isShift ∨ e.isReduction) (one_shift : entries.countP isShift ≤ 1)
    (one_reduction : entries.countP isReduction ≤ 1) :
    ∃ e f, entries = [e, f] ∧ (e.isShift ∧ f.isReduction ∨ e.isReduction ∧ f.isShift) := by
  -- What is no reduction is a shift, so there are two entries in all.
  have others : entries.countP (fun e => ¬ e.isReduction) ≤ entries.countP isShift := by
    refine List.countP_mono_left fun e he other => ?_
    exact (kinds e he).resolve_right (of_decide_eq_true other)
  have counted := List.length_eq_countP_add_countP isReduction (l := entries)
  obtain ⟨e, f, rfl⟩ := List.length_eq_two.1 (show entries.length = 2 by omega)
  refine ⟨e, f, rfl, ?_⟩
  rcases kinds e (by simp) with first | first <;> rcases kinds f (by simp) with second | second
  · simp [first, second] at one_shift
  · exact .inl ⟨first, second⟩
  · exact .inr ⟨first, second⟩
  · simp [first, second] at one_reduction

end Action

theorem ConflictKind.ofEntries_eq_shiftReduce_iff {entries : List Action} :
    ofEntries entries = .shiftReduce ↔ entries.countP Action.isReduction ≤ 1 := by
  unfold ofEntries
  split
  · simp only [reduceCtorEq, false_iff]
    omega
  · simp only [true_iff]
    omega

theorem countP_le_one {α : Type} {p : α → Bool} {xs : List α} (nodup : xs.Nodup)
    (single : ∀ a ∈ xs, ∀ b ∈ xs, p a → p b → a = b) : xs.countP p ≤ 1 := by
  induction xs with
  | nil => exact Nat.zero_le 1
  | cons x xs ih =>
      obtain ⟨fresh, rest⟩ := List.nodup_cons.1 nodup
      have single_rest : ∀ a ∈ xs, ∀ b ∈ xs, p a → p b → a = b := fun a ha b hb =>
        single a (List.mem_cons_of_mem x ha) b (List.mem_cons_of_mem x hb)
      by_cases first : p x
      · have none_behind : xs.countP p = 0 := List.countP_eq_zero.2 fun a ha second =>
          fresh (single x List.mem_cons_self a (List.mem_cons_of_mem x ha) first second ▸ ha)
        rw [List.countP_cons_of_pos first, none_behind]
      · rw [List.countP_cons_of_neg first]
        exact ih rest single_rest

namespace Table

variable {g : Grammar} {ff : TerminalSets} {row : Transitions} {t : Nat} {i j : Item}
  {items : ItemSet} {e f : Action}

/-- An item stands for what it reduces: at most one item of a production is complete, and production
0 has no terminal in it. -/
structure Decisive (g : Grammar) (items : ItemSet) : Prop where
  eq_of_complete : ∀ i ∈ items, ∀ j ∈ items, i.prod = j.prod → i.next? g = none →
    j.next? g = none → i = j
  first : ∀ i ∈ items, i.prod = 0 → ∀ t, i.next? g ≠ some (.terminal t)

theorem Entry.precedes (decisive : Decisive g items) (hi : i ∈ items) (hj : j ∈ items) (lt : i < j)
    (before : Entry g ff row t i (i.next? g) e) (behind : Entry g ff row t j (j.next? g) f) :
    e.Precedes f := by
  have apart : i.prod = j.prod → i.next? g = none → j.next? g ≠ none := fun same left right =>
    StrictOrder.irrefl j (decisive.eq_of_complete i hi j hj same left right ▸ lt)
  generalize next_i : i.next? g = mark_i at before
  generalize next_j : j.next? g = mark_j at behind
  refine ⟨?_, ?_⟩
  · rintro rfl
    cases behind with
    | accept zero_j _ =>
        -- Only an item of production 0 can stand in front, and none of these gives an entry.
        have zero_i : i.prod = 0 := by
          rcases lt with lt | ⟨same, _⟩
          · exact absurd (zero_j ▸ lt) (Nat.not_lt_zero _)
          · exact same.trans zero_j
        cases before with
        | shift _ => exact decisive.first i hi zero_i t next_i
        | accept _ _ => exact apart (zero_i.trans zero_j.symm) next_i next_j
        | reduce positive _ _ => exact positive zero_i
  · rintro m n rfl rfl
    cases before with
    | reduce _ _ _ =>
        cases behind with
        | reduce _ _ _ => exact lt.resolve_right fun same => apart same.1 next_i next_j

theorem pairwise_entries (decisive : Decisive g items) :
    (entries g ff row (items.marked g) (.terminal t)).Pairwise Action.Precedes := by
  refine List.Pairwise.sublist (eraseDups_sublist _) ?_
  rw [ItemSet.marked, List.filterMap_map, List.pairwise_filterMap]
  refine items.sorted.imp_of_mem fun {i j} hi hj lt e he f hf => ?_
  exact Entry.precedes decisive hi hj lt (entryFor_eq_some_iff.1 he) (entryFor_eq_some_iff.1 hf)

end Table

namespace Construction

variable {c : Construction} {start s t : Nat} {e : Action} {es : List Action}

structure Competing (c : Construction) (t : Nat) (es : List Action) : Prop where
  two_le : 2 ≤ es.length
  nodup : es.Nodup
  flat : ∀ e ∈ es, (∀ j, e ≠ .goto j) ∧ ∀ fs, e ≠ .conflict fs
  one_shift : es.countP Action.isShift ≤ 1
  increasing : (es.filterMap Action.reduction?).Pairwise (· < ·)
  reduces_later : .reduce 0 ∉ es
  accept_first : .accept ∈ es → t = c.grammar.eof ∧ es.head? = some .accept
  at_eof : t = c.grammar.eof →
    (∀ j, .shift j ∉ es) ∧ ConflictKind.ofEntries es = .reduceReduce
  kind_iff : ConflictKind.ofEntries es = .shiftReduce ↔
    ∃ j n, es = [.shift j, .reduce n] ∨ es = [.reduce n, .shift j]

theorem Offers.isShift_or_isReduction (offers : c.Offers s t e) : e.isShift ∨ e.isReduction := by
  cases offers with
  | shift _ => exact .inl rfl
  | reduce _ _ _ _ _ => exact .inr rfl
  | accept _ _ _ => exact .inr rfl

theorem Offers.eq_of_shift {j k : Nat} (offers : c.Offers s t (.shift j))
    (offers' : c.Offers s t (.shift k)) : j = k := by
  cases offers with
  | shift target =>
      cases offers' with
      | shift target' => exact Option.some.inj (target.symm.trans target')

theorem Offers.eq_eof (offers : c.Offers s t .accept) : t = c.grammar.eof := by
  cases offers with
  | accept _ _ eof => exact eof

namespace Built

variable (built : c.Built start)

include built

theorem decisive {items : ItemSet} (state : c.automaton.states[s]? = some items) :
    Table.Decisive c.grammar items where
  eq_of_complete i hi j hj same left right := by
    obtain ⟨p, found, _⟩ := built.inRange_of_mem state i hi
    have found' : c.grammar.prod? j.prod = some p := same ▸ found
    cases i
    cases j
    have dot := (built.complete_iff state hi found).1 left
    have dot' := (built.complete_iff state hj found').1 right
    simp_all
  first i _ zero t next := by
    obtain ⟨p, found, here⟩ := Item.next?_eq_some_iff.1 next
    rw [zero, built.augmented.first] at found
    cases found
    have mem := List.mem_of_getElem? here
    simp [Production.rhs, Production.isEmpty] at mem

theorem pairwise_precedes (h : c.table.lookup s (.terminal t) = some (.conflict es)) :
    es.Pairwise Action.Precedes := by
  have cell := h
  rw [built.table_eq] at cell
  obtain ⟨items, state, _, cell⟩ := Table.exists_of_lookup_build cell
  have flat := fun e he => ((built.mem_entries_iff (e := e) (t := t) state).1 he).ne_conflict
  rw [Action.eq_of_cell?_eq_conflict flat cell]
  exact Table.pairwise_entries (built.decisive state)

theorem not_offers_shift_eof {j : Nat} : ¬ c.Offers s c.grammar.eof (.shift j) := by
  intro offers
  cases offers with
  | shift target => exact Nat.lt_irrefl _ (built.lt_eof_of_transition target)

theorem not_accept_of_shift {j : Nat} (offers : c.Offers s t (.shift j)) :
    ¬ c.Offers s t .accept :=
  fun accept => built.not_offers_shift_eof (accept.eq_eof ▸ offers)

section

variable (h : c.table.lookup s (.terminal t) = some (.conflict es))

include h

theorem two_le_length : 2 ≤ es.length := by
  obtain ⟨entries, _, flat, _, cell⟩ := built.exists_entries s t
  exact Action.two_le_length_of_cell? flat (cell.symm.trans h)

theorem countP_isShift_le_one : es.countP Action.isShift ≤ 1 := by
  refine countP_le_one (built.nodup_of_conflict h) fun e he f hf first second => ?_
  obtain ⟨j, rfl⟩ := Action.isShift_iff.1 first
  obtain ⟨k, rfl⟩ := Action.isShift_iff.1 second
  exact congrArg _ ((built.offers_of_mem_conflict h he).eq_of_shift
    (built.offers_of_mem_conflict h hf))

theorem exists_reduce {j : Nat} (shift : .shift j ∈ es) (he : e ∈ es) (reduction : e.isReduction) :
    ∃ n, e = .reduce n := by
  rcases Action.isReduction_iff.1 reduction with reduce | rfl
  · exact reduce
  · exact absurd (built.offers_of_mem_conflict h he)
      (built.not_accept_of_shift (built.offers_of_mem_conflict h shift))

theorem ofEntries_eq_shiftReduce_iff : ConflictKind.ofEntries es = .shiftReduce ↔
    ∃ j n, es = [.shift j, .reduce n] ∨ es = [.reduce n, .shift j] := by
  rw [ConflictKind.ofEntries_eq_shiftReduce_iff]
  apply Iff.intro
  · intro one_reduction
    have kinds : ∀ e ∈ es, e.isShift ∨ e.isReduction := fun e he =>
      (built.offers_of_mem_conflict h he).isShift_or_isReduction
    obtain ⟨e, f, rfl, ⟨shift, reduction⟩ | ⟨reduction, shift⟩⟩ := Action.exists_pair
      (built.two_le_length h) kinds (built.countP_isShift_le_one h) one_reduction
    · obtain ⟨j, rfl⟩ := Action.isShift_iff.1 shift
      obtain ⟨n, rfl⟩ := built.exists_reduce h (j := j) (by simp) (by simp) reduction
      exact ⟨j, n, .inl rfl⟩
    · obtain ⟨j, rfl⟩ := Action.isShift_iff.1 shift
      obtain ⟨n, rfl⟩ := built.exists_reduce h (j := j) (by simp) (by simp) reduction
      exact ⟨j, n, .inr rfl⟩
  · rintro ⟨j, n, rfl | rfl⟩ <;> exact Nat.le_refl 1

theorem competing_of_conflict : c.Competing t es := by
  have offers : ∀ e ∈ es, c.Offers s t e := fun e he => built.offers_of_mem_conflict h he
  have ordered := built.pairwise_precedes h
  have kind_iff := built.ofEntries_eq_shiftReduce_iff h
  have no_shift : t = c.grammar.eof → ∀ j, .shift j ∉ es := by
    rintro rfl j mem
    exact built.not_offers_shift_eof (offers _ mem)
  refine ⟨built.two_le_length h, built.nodup_of_conflict h, fun e he => ?_,
    built.countP_isShift_le_one h, Action.pairwise_reductions ordered, fun mem => ?_,
    fun mem => ⟨(offers _ mem).eq_eof, Action.head?_eq_accept ordered mem⟩,
    fun eof => ⟨no_shift eof, ?_⟩, kind_iff⟩
  · refine ⟨fun j => ?_, (offers e he).ne_conflict⟩
    cases offers e he <;> simp
  · cases offers _ mem with
    | reduce positive _ _ _ _ => exact positive rfl
  · cases kind : ConflictKind.ofEntries es with
    | reduceReduce => rfl
    | shiftReduce =>
        obtain ⟨j, n, rfl | rfl⟩ := kind_iff.1 kind
        · exact (no_shift eof j (by simp)).elim
        · exact (no_shift eof j (by simp)).elim

end

end Built

/-- Where entries compete and how they do; on nonterminals there are gotos only. -/
structure Classified (c : Construction) : Prop where
  competing : ∀ s x es, c.table.lookup s x = some (.conflict es) →
    ∃ t ≤ c.grammar.eof, x = .terminal t ∧ c.Competing t es
  shift_ne_eof : ∀ s j, .shift j ∉ Action.members (c.table.lookup s (.terminal c.grammar.eof))
  accept_eof : ∀ s x, .accept ∈ Action.members (c.table.lookup s x) → x = .terminal c.grammar.eof
  goto : ∀ s a e, c.table.lookup s (.nonterminal a) = some e → ∃ j, e = .goto j
  start : ∀ s, c.table.lookup s (.nonterminal c.grammar.start) = none

theorem Built.toClassified (built : c.Built start) : c.Classified where
  competing s x es h := by
    obtain ⟨t, rfl⟩ := built.exists_terminal_of_conflict h
    have competing := built.competing_of_conflict h
    have some_entry : 0 < es.length := Nat.lt_of_lt_of_le Nat.zero_lt_two competing.two_le
    obtain ⟨e, he⟩ := List.exists_mem_of_length_pos some_entry
    exact ⟨t, built.le_eof_of_offers (built.offers_of_mem_conflict h he), rfl, competing⟩
  shift_ne_eof s j mem := built.not_offers_shift_eof (built.mem_members_iff.1 mem)
  accept_eof s x mem := (built.accept_mem_members_iff.1 mem).2
  goto s a e h := by
    rw [built.lookup_nonterminal, Option.map_eq_some_iff] at h
    obtain ⟨j, _, rfl⟩ := h
    exact ⟨j, rfl⟩
  start s := by
    rw [built.lookup_nonterminal, Option.map_eq_none_iff, built.augmented.start_eq]
    by_contra some_there
    obtain ⟨j, target⟩ := Option.ne_none_iff_exists'.1 some_there
    obtain ⟨_, _, i, _, next⟩ := built.exists_next_of_transition target
    exact built.augmented.next?_ne_start next

theorem classified_ofText {text : String} (built : ofText text = .ok c) : c.Classified := by
  obtain ⟨g, read, rfl⟩ := exists_read built
  exact (built_ofGrammar (Grammar.plain_of_ofText read)).toClassified

/-- The start symbol derives itself, so accepting competes with that derivation. -/
def looping : Grammar where
  nonterms := .ofList ["S"]
  terms := .ofList ["a"]
  start := 0
  prods := #[⟨0, [.nonterminal 0]⟩, ⟨0, [.terminal 0]⟩]
  augmented := false

theorem ofText_looping : ofText "S -> S | a" = .ok (ofGrammar looping) := by
  decide +kernel

/-- There is a conflict of either kind. -/
theorem classified_samples :
    (ofGrammar looping).Classified ∧ (ofGrammar doubling).Classified ∧
    (ofGrammar looping).conflicts =
      [⟨1, .terminal 1, .reduceReduce, [.accept, .reduce 1]⟩] ∧
    (ofGrammar doubling).conflicts = [⟨3, .terminal 0, .shiftReduce, [.reduce 1, .shift 2]⟩] :=
  ⟨classified_ofText ofText_looping, classified_ofText ofText_doubling, by decide +kernel,
    by decide +kernel⟩

end Construction

end ShiftReduce
