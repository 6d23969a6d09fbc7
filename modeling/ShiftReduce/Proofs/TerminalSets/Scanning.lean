import Mathlib.Data.List.Perm.Subperm
import Mathlib.Data.PFun
import ShiftReduce.Proofs.TerminalSets.Passes

/-!
A pass that changes the facts while it scans a production: FIRST from the left, up to a symbol that
is not nullable, and FOLLOW from the right, with what can come next carried along. The flag that
says whether there is anything new is raised by sets that have grown. Every look-up of a nonterminal
is checked, and the passes go on until the flag stays down, whatever that takes. On a well-formed
grammar no look-up fails, a scan finds what `visit` finds (`scan?_eq`), and the passes come to rest
at the same facts after as many passes (`fixpoint?_eq`).
-/

namespace ShiftReduce

theorem OrderedSet.nodup_toList {α : Type} [StrictOrder α] (s : OrderedSet α) : s.toList.Nodup :=
  s.sorted.imp fun {a b} (lt : a < b) (same : a = b) => StrictOrder.irrefl b (same ▸ lt)

theorem OrderedSet.union_eq_left_iff {α : Type} [StrictOrder α] {s t : OrderedSet α} :
    s ∪ t = s ↔ (s ∪ t).toList.length = s.toList.length := by
  refine ⟨fun same => by rw [same], fun length => ?_⟩
  have sub : s.toList ⊆ (s ∪ t).toList := fun a ha => mem_union.2 (.inl ha)
  have perm := (List.subperm_of_subset s.nodup_toList sub).perm_of_length_le length.le
  exact eq_of_mem_iff fun a => perm.symm.mem_iff

theorem OrderedSet.union_empty {α : Type} [StrictOrder α] (s : OrderedSet α) : s ∪ ∅ = s :=
  eq_of_mem_iff fun a => by simp [mem_union, not_mem_empty]

structure Sweep where
  sets : TerminalSets
  changed : Bool

namespace Sweep

def become (w : Sweep) (t : TerminalSets) : Sweep := ⟨t, w.changed || t != w.sets⟩

/-- Whether `new` makes a set grow is seen by its size. -/
def addFirst? (w : Sweep) (a : Nat) (new : TermSet) : Option Sweep := do
  let f ← w.sets.facts[a]?
  let grown := (f.first ∪ new).toList.length != f.first.toList.length
  return ⟨w.sets.addFirst a new false, w.changed || grown⟩

def addNullable? (w : Sweep) (a : Nat) (reached : Bool) : Option Sweep :=
  if reached then do
    let f ← w.sets.facts[a]?
    if f.nullable then return w else return ⟨w.sets.addFirst a ∅ true, true⟩
  else some w

def addFollow? (w : Sweep) (a : Nat) (new : TermSet) : Option Sweep := do
  let f ← w.sets.facts[a]?
  let grown := (f.follow ∪ new).toList.length != f.follow.toList.length
  return ⟨w.sets.addFollow a new, w.changed || grown⟩

/-- From the left, for the head; with it, whether the end of the body has been reached. -/
def scanFirst? (head : Nat) : List Symbol → Sweep → Option (Sweep × Bool)
  | [], w => some (w, true)
  | .empty :: xs, w => scanFirst? head xs w
  | .terminal t :: _, w => do
      let w ← w.addFirst? head (.singleton t)
      return (w, false)
  | .nonterminal a :: xs, w => do
      let f ← w.sets.facts[a]?
      let w ← w.addFirst? head f.first
      let f ← w.sets.facts[a]?
      if f.nullable then scanFirst? head xs w else return (w, false)

/-- From the right, with what can come next after the symbols that have been scanned. -/
def scanFollow? : List Symbol → TermSet → Sweep → Option (Sweep × TermSet)
  | [], after, w => some (w, after)
  | x :: xs, after, w => do
      let (w, trailing) ← scanFollow? xs after w
      match x with
      | .empty => return (w, trailing)
      | .terminal t => return (w, .singleton t)
      | .nonterminal a =>
          let w ← w.addFollow? a trailing
          let f ← w.sets.facts[a]?
          return (w, if f.nullable then trailing ∪ f.first else f.first)

def scan? (w : Sweep) (p : Production) : Option Sweep := do
  let (w, reached) ← scanFirst? p.head p.body w
  let w ← w.addNullable? p.head reached
  let f ← w.sets.facts[p.head]?
  let (w, _) ← scanFollow? p.body f.follow w
  return w

end Sweep

namespace TerminalSets

open Sweep (scanFirst? scanFollow?)

variable {s : TerminalSets} {a : Nat} {xs : List Symbol} {new : TermSet}

def sweep? (g : Grammar) (s : TerminalSets) : Option Sweep :=
  g.prods.toList.foldlM Sweep.scan? ⟨s, false⟩

/-- One more pass, with the number of passes so far. It is the last one if it changes nothing. -/
def again? (g : Grammar) : TerminalSets × Nat →. (TerminalSets × Nat) ⊕ (TerminalSets × Nat)
  | (s, n) => do
      let w ← Part.ofOption (sweep? g s)
      return if w.changed then .inr (w.sets, n + 1) else .inl (w.sets, n + 1)

def settle? (g : Grammar) : TerminalSets × Nat →. TerminalSets × Nat := (again? g).fix

def fixpoint? (g : Grammar) : Part (TerminalSets × Nat) := do
  let blank : TerminalSets := ⟨Array.replicate g.nonterms.size ⟨∅, false, ∅⟩⟩
  let _ ← Part.ofOption blank.facts[g.start]?
  settle? g (blank.addFollow g.start (.singleton g.eof), 0)

theorem getElem?_facts (known : a < s.facts.size) :
    s.facts[a]? = some ⟨s.first a, s.nullable a, s.follow a⟩ := by
  simp [TerminalSets.first, TerminalSets.nullable, TerminalSets.follow, known]

theorem addFirst_addFirst (s : TerminalSets) (a : Nat) (new more : TermSet) (b c : Bool) :
    (s.addFirst a new b).addFirst a more c = s.addFirst a (new ∪ more) (b || c) := by
  refine eq_of_holds (by simp only [size_addFirst]) fun f => ?_
  simp only [holds_addFirst, size_addFirst, OrderedSet.mem_union, Bool.or_eq_true]
  grind

theorem addFollow_comm (s : TerminalSets) (a b : Nat) (new more : TermSet) :
    (s.addFollow a new).addFollow b more = (s.addFollow b more).addFollow a new := by
  refine eq_of_holds (by simp only [size_addFollow]) fun f => ?_
  simp only [holds_addFollow, size_addFollow]
  grind

theorem firstOf_addFollow (x : Symbol) : (s.addFollow a new).firstOf x = s.firstOf x := by
  cases x with
  | nonterminal b => rw [firstOf, firstOf, first_addFollow, nullable_addFollow]
  | terminal t => rfl
  | empty => rfl

theorem firstOf_addFollows (after : TermSet) (xs : List Symbol) (s : TerminalSets) (x : Symbol) :
    (addFollows after xs s).firstOf x = s.firstOf x := by
  induction xs generalizing s with
  | nil => rfl
  | cons y xs ih =>
      cases y with
      | nonterminal b => rw [addFollows, ih, firstOf_addFollow]
      | terminal t => exact ih s
      | empty => exact ih s

theorem firstOfSeq_addFollow (xs : List Symbol) :
    (s.addFollow a new).firstOfSeq xs = s.firstOfSeq xs := by
  induction xs with
  | nil => rfl
  | cons x xs ih => rw [firstOfSeq, firstOfSeq, firstOf_addFollow, ih]

theorem trailing_addFollow (after : TermSet) (xs : List Symbol) :
    (s.addFollow a new).trailing after xs = s.trailing after xs := by
  rw [trailing, trailing, firstOfSeq_addFollow]

theorem addFollows_addFollow (after : TermSet) (xs : List Symbol) (s : TerminalSets) :
    addFollows after xs (s.addFollow a new) = (addFollows after xs s).addFollow a new := by
  induction xs generalizing s with
  | nil => rfl
  | cons x xs ih =>
      cases x with
      | nonterminal b =>
          rw [addFollows, addFollows, trailing_addFollow, addFollow_comm, ih]
      | terminal t => exact ih s
      | empty => exact ih s

theorem firstOfSeq_cons_empty : s.firstOfSeq (.empty :: xs) = s.firstOfSeq xs := by
  refine Prod.ext (OrderedSet.eq_of_mem_iff fun c => ?_) ?_
  · rw [mem_firstOfSeq_cons]
    simp [firstOf, OrderedSet.not_mem_empty]
  · rw [Bool.eq_iff_iff, nullable_firstOfSeq_cons]
    simp [firstOf]

theorem trailing_nil (after : TermSet) : s.trailing after [] = after :=
  OrderedSet.eq_of_mem_iff fun c => by
    simp [mem_trailing, firstOfSeq, OrderedSet.not_mem_empty]

theorem trailing_cons_empty (after : TermSet) :
    s.trailing after (.empty :: xs) = s.trailing after xs := by
  rw [trailing, trailing, firstOfSeq_cons_empty]

theorem trailing_cons_nonterminal (after : TermSet) :
    s.trailing after (.nonterminal a :: xs) =
      if s.nullable a then s.trailing after xs ∪ s.first a else s.first a := by
  refine OrderedSet.eq_of_mem_iff fun c => ?_
  rw [mem_trailing, mem_firstOfSeq_cons, nullable_firstOfSeq_cons]
  cases empty : s.nullable a with
  | false => simp [firstOf, empty]
  | true =>
      simp only [firstOf, empty, true_and, if_true, OrderedSet.mem_union, mem_trailing]
      grind

theorem nullable_firstOf_addFirst (x : Symbol) :
    ((s.addFirst a new false).firstOf x).2 = (s.firstOf x).2 := by
  cases x with
  | nonterminal b =>
      rw [firstOf, firstOf, Bool.eq_iff_iff, nullable_addFirst]
      simp
  | terminal t => rfl
  | empty => rfl

theorem nullable_firstOfSeq_addFirst (xs : List Symbol) :
    ((s.addFirst a new false).firstOfSeq xs).2 = (s.firstOfSeq xs).2 := by
  induction xs with
  | nil => rfl
  | cons x xs ih =>
      rw [Bool.eq_iff_iff, nullable_firstOfSeq_cons, nullable_firstOfSeq_cons,
        nullable_firstOf_addFirst, ih]

theorem union_firstOfSeq_addFirst (xs : List Symbol) :
    new ∪ ((s.addFirst a new false).firstOfSeq xs).1 = new ∪ (s.firstOfSeq xs).1 := by
  refine OrderedSet.eq_of_mem_iff fun c => ?_
  rw [OrderedSet.mem_union, OrderedSet.mem_union]
  by_cases old : c ∈ new
  · simp [old]
  · simp only [old, false_or]
    induction xs with
    | nil => exact Iff.rfl
    | cons x xs ih =>
        have head : c ∈ ((s.addFirst a new false).firstOf x).1 ↔ c ∈ (s.firstOf x).1 := by
          cases x with
          | nonterminal b => simp [firstOf, mem_first_addFirst, old]
          | terminal t => exact Iff.rfl
          | empty => exact Iff.rfl
        rw [mem_firstOfSeq_cons, mem_firstOfSeq_cons, head, nullable_firstOf_addFirst, ih]

theorem addFirst_eq_self_iff (known : a < s.facts.size) :
    s.addFirst a new false = s ↔ s.first a ∪ new = s.first a := by
  refine ⟨fun same => OrderedSet.eq_of_mem_iff fun c => ?_, fun same => ?_⟩
  · have mem : c ∈ (s.addFirst a new false).first a ↔ _ := mem_first_addFirst
    rw [same] at mem
    rw [OrderedSet.mem_union]
    grind
  · have le : s.addFirst a new false ≤ s := by
      refine ⟨size_addFirst _ _ _ _, fun f hf => ?_⟩
      rcases holds_addFirst.1 hf with old | ⟨_, ⟨c, hc, rfl⟩ | ⟨none, _⟩⟩
      · exact old
      · rw [holds_first, ← same]
        exact OrderedSet.mem_union.2 (.inr hc)
      · cases none
    exact le_antisymm le (le_addFirst _ _ _ _)

theorem addFollow_eq_self_iff (known : a < s.facts.size) :
    s.addFollow a new = s ↔ s.follow a ∪ new = s.follow a := by
  refine ⟨fun same => OrderedSet.eq_of_mem_iff fun c => ?_, fun same => ?_⟩
  · have mem : c ∈ (s.addFollow a new).follow a ↔ _ := mem_follow_addFollow
    rw [same] at mem
    rw [OrderedSet.mem_union]
    grind
  · have le : s.addFollow a new ≤ s := by
      refine ⟨size_addFollow _ _ _, fun f hf => ?_⟩
      rcases holds_addFollow.1 hf with old | ⟨_, c, hc, rfl⟩
      · exact old
      · rw [holds_follow, ← same]
        exact OrderedSet.mem_union.2 (.inr hc)
    exact le_antisymm le (le_addFollow _ _ _)

theorem addNullable_eq_self_iff (known : a < s.facts.size) :
    s.addFirst a ∅ true = s ↔ s.nullable a := by
  refine ⟨fun same => ?_, fun same => ?_⟩
  · rw [← same, nullable_addFirst]
    exact .inr ⟨known, rfl, rfl⟩
  · have le : s.addFirst a ∅ true ≤ s := by
      refine ⟨size_addFirst _ _ _ _, fun f hf => ?_⟩
      rcases holds_addFirst.1 hf with old | ⟨_, ⟨c, hc, _⟩ | ⟨_, rfl⟩⟩
      · exact old
      · exact absurd hc (OrderedSet.not_mem_empty c)
      · exact holds_nullable.2 same
    exact le_antisymm le (le_addFirst _ _ _ _)

end TerminalSets

namespace Sweep

open TerminalSets

variable {w : Sweep} {t u : TerminalSets} {a head : Nat} {xs : List Symbol} {new after : TermSet}
  {p : Production}

@[simp] theorem sets_become (w : Sweep) (t : TerminalSets) : (w.become t).sets = t := rfl

theorem become_self (w : Sweep) : w.become w.sets = w := by
  simp [become]

/-- Facts are only added, so that none is found on the way that is lost again. -/
theorem become_become (le : w.sets ≤ t) (le' : t ≤ u) : (w.become t).become u = w.become u := by
  have back : u = w.sets ↔ t = w.sets ∧ u = t := by
    refine ⟨fun same => ?_, fun ⟨same, same'⟩ => same'.trans same⟩
    have first : t = w.sets := le_antisymm (le'.trans same.le) le
    exact ⟨first, same.trans first.symm⟩
  simp only [become, Sweep.mk.injEq, true_and]
  rw [Bool.eq_iff_iff]
  simp only [Bool.or_eq_true, bne_iff_ne, ne_eq, back]
  tauto

theorem addFirst?_eq (known : a < w.sets.facts.size) :
    w.addFirst? a new = some (w.become (w.sets.addFirst a new false)) := by
  have grown : ((w.sets.first a ∪ new).toList.length != (w.sets.first a).toList.length) =
      (w.sets.addFirst a new false != w.sets) := by
    rw [Bool.eq_iff_iff, bne_iff_ne, bne_iff_ne, ne_eq, ne_eq, addFirst_eq_self_iff known,
      OrderedSet.union_eq_left_iff]
  simp only [addFirst?, getElem?_facts known, Option.bind_eq_bind, Option.bind_some, grown]
  rfl

theorem addFollow?_eq (known : a < w.sets.facts.size) :
    w.addFollow? a new = some (w.become (w.sets.addFollow a new)) := by
  have grown : ((w.sets.follow a ∪ new).toList.length != (w.sets.follow a).toList.length) =
      (w.sets.addFollow a new != w.sets) := by
    rw [Bool.eq_iff_iff, bne_iff_ne, bne_iff_ne, ne_eq, ne_eq, addFollow_eq_self_iff known,
      OrderedSet.union_eq_left_iff]
  simp only [addFollow?, getElem?_facts known, Option.bind_eq_bind, Option.bind_some, grown]
  rfl

theorem addNullable?_eq (known : a < w.sets.facts.size) (reached : Bool) :
    w.addNullable? a reached = some (w.become (w.sets.addFirst a ∅ reached)) := by
  cases reached with
  | false =>
      rw [(addFirst_eq_self_iff known).2 (OrderedSet.union_empty _), become_self]
      rfl
  | true =>
      simp only [addNullable?, if_true, getElem?_facts known, Option.bind_eq_bind,
        Option.bind_some]
      split
      · rename_i old
        rw [(addNullable_eq_self_iff known).2 old, become_self]
        rfl
      · rename_i new
        have ne : w.sets.addFirst a ∅ true ≠ w.sets := mt (addNullable_eq_self_iff known).1 new
        simp [become, ne]

theorem scanFirst?_eq (known : head < w.sets.facts.size)
    (body : ∀ a, .nonterminal a ∈ xs → a < w.sets.facts.size) :
    scanFirst? head xs w =
      some (w.become (w.sets.addFirst head (w.sets.firstOfSeq xs).1 false),
        (w.sets.firstOfSeq xs).2) := by
  induction xs generalizing w with
  | nil =>
      rw [scanFirst?, firstOfSeq, (addFirst_eq_self_iff known).2 (OrderedSet.union_empty _),
        become_self]
  | cons x xs ih =>
      cases x with
      | empty =>
          rw [scanFirst?, firstOfSeq_cons_empty]
          exact ih known fun a mem => body a (List.mem_cons_of_mem _ mem)
      | terminal t =>
          rw [scanFirst?, addFirst?_eq known]
          rfl
      | nonterminal a =>
          have known_a := body a List.mem_cons_self
          have size := size_addFirst w.sets head (w.sets.first a) false
          -- Whether `a` is nullable is read behind the change, and `a` may be the head itself.
          have stop : (w.sets.addFirst head (w.sets.first a) false).nullable a =
              w.sets.nullable a :=
            nullable_firstOf_addFirst (.nonterminal a)
          have again := getElem?_facts (s := w.sets.addFirst head (w.sets.first a) false)
            (size.symm ▸ known_a)
          have rest := ih (w := w.become (w.sets.addFirst head (w.sets.first a) false))
            (size.symm ▸ known) fun b mem => size.symm ▸ body b (List.mem_cons_of_mem _ mem)
          simp only [scanFirst?, getElem?_facts known_a, addFirst?_eq known, Option.bind_eq_bind,
            Option.bind_some, sets_become, again, stop, rest]
          cases empty : w.sets.nullable a with
          | false => simp [firstOfSeq, firstOf, empty]
          | true =>
              rw [become_become (le_addFirst _ _ _ _) (le_addFirst _ _ _ _), addFirst_addFirst,
                union_firstOfSeq_addFirst, nullable_firstOfSeq_addFirst]
              simp [firstOfSeq, firstOf, empty]

theorem scanFollow?_eq (body : ∀ a, .nonterminal a ∈ xs → a < w.sets.facts.size) :
    scanFollow? xs after w =
      some (w.become (addFollows after xs w.sets), w.sets.trailing after xs) := by
  induction xs with
  | nil => rw [scanFollow?, addFollows, become_self, trailing_nil]
  | cons x xs ih =>
      have rest := ih fun a mem => body a (List.mem_cons_of_mem _ mem)
      simp only [scanFollow?, rest, Option.bind_eq_bind, Option.bind_some]
      cases x with
      | empty => rw [trailing_cons_empty]; rfl
      | terminal t => rfl
      | nonterminal a =>
          have size := size_eq_of_le (le_addFollows after xs w.sets)
          have known : a < (addFollows after xs w.sets).facts.size :=
            size ▸ body a List.mem_cons_self
          have added : (w.become (addFollows after xs w.sets)).addFollow? a
              (w.sets.trailing after xs) =
              some (w.become (addFollows after (.nonterminal a :: xs) w.sets)) := by
            rw [addFollow?_eq known, sets_become,
              become_become (le_addFollows after xs w.sets) (le_addFollow _ _ _), addFollows,
              addFollows_addFollow]
          have again := getElem?_facts (s := addFollows after (.nonterminal a :: xs) w.sets)
            (size_eq_of_le (le_addFollows after _ w.sets) ▸ body a List.mem_cons_self)
          have facts := firstOf_addFollows after (.nonterminal a :: xs) w.sets (.nonterminal a)
          obtain ⟨first, nullable⟩ := Prod.mk.inj facts
          simp only [added, Option.bind_some, sets_become, again, first, nullable,
            trailing_cons_nonterminal]
          rfl

theorem scan?_eq (head : p.head < w.sets.facts.size)
    (body : ∀ a, .nonterminal a ∈ p.body → a < w.sets.facts.size) :
    w.scan? p = some (w.become (w.sets.visit p)) := by
  have scanned := scanFirst?_eq head body
  generalize both : w.sets.firstOfSeq p.body = seen at scanned
  have le := le_addFirst w.sets p.head seen.1
  have marked : (w.become (w.sets.addFirst p.head seen.1 false)).addNullable? p.head seen.2 =
      some (w.become (w.sets.addFirst p.head seen.1 seen.2)) := by
    rw [addNullable?_eq (by rwa [sets_become, size_addFirst]), sets_become,
      become_become (le false) (le_addFirst _ _ _ _), addFirst_addFirst, OrderedSet.union_empty,
      Bool.false_or]
  have after := getElem?_facts (s := w.sets.addFirst p.head seen.1 seen.2) (a := p.head)
    (by rwa [size_addFirst])
  simp only [scan?, scanned, marked, after, Option.bind_eq_bind, Option.bind_some, sets_become]
  rw [scanFollow?_eq (by rwa [sets_become, size_addFirst]), Option.bind_some, sets_become,
    become_become (le _) (le_addFollows _ _ _), visit, both]
  rfl

end Sweep

namespace TerminalSets

variable {g : Grammar} {s : TerminalSets}

theorem foldlM_scan?_eq {ps : List Production} {w : Sweep}
    (head : ∀ p ∈ ps, p.head < w.sets.facts.size)
    (body : ∀ p ∈ ps, ∀ a, .nonterminal a ∈ p.body → a < w.sets.facts.size) :
    ps.foldlM Sweep.scan? w = some (w.become (ps.foldl visit w.sets)) := by
  induction ps generalizing w with
  | nil => rw [List.foldl_nil, Sweep.become_self]; rfl
  | cons p ps ih =>
      have size := size_eq_of_le (le_visit w.sets p)
      have first := Sweep.scan?_eq (head p List.mem_cons_self) (body p List.mem_cons_self)
      have rest := ih (w := w.become (w.sets.visit p))
        (fun q mem => size ▸ head q (List.mem_cons_of_mem p mem))
        fun q mem => size ▸ body q (List.mem_cons_of_mem p mem)
      rw [List.foldlM_cons, first, List.foldl_cons]
      exact rest.trans (congrArg some
        (Sweep.become_become (le_visit w.sets p) (le_foldl_visit ps _)))

theorem sweep?_eq (wf : g.WellFormed) (fits : s.Fits g) :
    sweep? g s = some ⟨pass g s, pass g s != s⟩ := by
  rw [sweep?, foldlM_scan?_eq, pass_eq_foldl]
  · simp [Sweep.become]
  · intro p hp
    exact fits.size_eq ▸ wf.head_lt p (Array.mem_toList_iff.1 hp)
  · intro p hp
    exact fits.size_eq ▸ wf.nonterminal_lt p (Array.mem_toList_iff.1 hp)

/-- The passes come to rest before the limit that `settle` has, which counts them likewise. -/
theorem settle?_eq (wf : g.WellFormed) {n : Nat} (fits : s.Fits g)
    (enough : (allFacts g).length < count g s + n) (m : Nat) :
    settle? g (s, m) = Part.some ((settle g n s).1, m + (settle g n s).2) ∧
      (settle g n s).2 ≤ n := by
  induction n generalizing s m with
  | zero => exact absurd enough (Nat.not_lt.2 List.countP_le_length)
  | succ n ih =>
      rw [settle]
      by_cases same : pass g s = s
      · have last : again? g (s, m) = Part.some (.inl (s, m + 1)) := by
          simp [again?, sweep?_eq wf fits, same]
        rw [if_pos same]
        exact ⟨Part.eq_some_iff.2 (PFun.fix_stop (Part.eq_some_iff.1 last)), Nat.le_add_left 1 n⟩
      · have next : again? g (s, m) = Part.some (.inr (pass g s, m + 1)) := by
          simp [again?, sweep?_eq wf fits, same]
        have more := count_lt_count (le_pass g s) (Ne.symm same) (fits.pass wf)
        obtain ⟨rest, bound⟩ := ih (fits.pass wf) (by omega) (m + 1)
        rw [if_neg same, settle?, PFun.fix_fwd_eq (Part.eq_some_iff.1 next)]
        refine ⟨rest.trans ?_, Nat.succ_le_succ bound⟩
        rw [Nat.add_assoc, Nat.add_comm 1]

theorem fixpoint?_eq (wf : g.WellFormed) : fixpoint? g = Part.some (ofGrammar g, passes g) := by
  have enough : (allFacts g).length < count g (seed g) + passLimit g := by
    rw [length_allFacts, passLimit]
    omega
  have start : (Array.replicate g.nonterms.size (⟨∅, false, ∅⟩ : NontermFacts))[g.start]? =
      some ⟨∅, false, ∅⟩ := by
    simp [wf.start_lt]
  have settled := (settle?_eq wf (fits_seed g) enough 0).1
  rw [Nat.zero_add] at settled
  simp only [fixpoint?, start, Part.coe_some, Part.bind_eq_bind, Part.bind_some]
  exact settled

theorem passes_le (wf : g.WellFormed) : passes g ≤ passLimit g := by
  have enough : (allFacts g).length < count g (seed g) + passLimit g := by
    rw [length_allFacts, passLimit]
    omega
  exact (settle?_eq wf (fits_seed g) enough 0).2

end TerminalSets

end ShiftReduce
