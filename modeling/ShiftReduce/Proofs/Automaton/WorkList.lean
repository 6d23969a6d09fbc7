import Mathlib.Data.Prod.Lex
import ShiftReduce.Proofs.Automaton.Canonical

/-!
Closures as least saturated sets. A work list may take its pending items in any order: what one turn
does keeps the set between the given items and their closure, and every item that is not pending has
been answered (`Turn.between`). So a run that leaves nothing pending ends at the closure, and no run
goes on for ever (`leastClosure`).
-/

namespace ShiftReduce

namespace ItemSet

variable {g : Grammar} {items more larger set : ItemSet} {i j : Item} {a n : Nat}

/-- The productions of all nonterminals that are awaited are in the set, with the dot in front. -/
def Saturated (g : Grammar) (set : ItemSet) : Prop :=
  ∀ i ∈ set, ∀ a, i.next? g = some (.nonterminal a) → ∀ n ∈ g.rules a, ⟨n, 0⟩ ∈ set

def predicted (g : Grammar) (i : Item) : List Item := starts g (awaited g [i])

theorem mem_predicted : j ∈ predicted g i ↔
    ∃ a, i.next? g = some (.nonterminal a) ∧ ∃ n ∈ g.rules a, j = ⟨n, 0⟩ := by
  simp only [predicted, mem_starts, mem_awaited, List.mem_singleton, exists_eq_left]
  apply Iff.intro
  · intro ⟨dot, p, found, await⟩
    refine ⟨p.head, await, j.prod, Grammar.mem_rules.2 ⟨p, found, rfl⟩, ?_⟩
    rw [← dot]
  · rintro ⟨a, await, n, rule, rfl⟩
    obtain ⟨p, found, rfl⟩ := Grammar.mem_rules.1 rule
    exact ⟨rfl, p, found, await⟩

theorem saturated_iff_predicted : set.Saturated g ↔ ∀ i ∈ set, ∀ j ∈ predicted g i, j ∈ set := by
  refine forall₂_congr fun i _ => ⟨fun sat j hj => ?_, fun sat a await n rule => ?_⟩
  · obtain ⟨a, await, n, rule, rfl⟩ := mem_predicted.1 hj
    exact sat a await n rule
  · exact sat _ (mem_predicted.2 ⟨a, await, n, rule, rfl⟩)

theorem Saturated.expand_eq (sat : set.Saturated g) : set.expand g = set := by
  refine OrderedSet.eq_of_mem_iff fun j => ?_
  rw [expand, OrderedSet.mem_insertAll]
  refine ⟨fun h => h.elim id fun start => ?_, .inl⟩
  obtain ⟨dot, p, found, await⟩ := mem_starts.1 start
  obtain ⟨i, hi, next⟩ := mem_awaited.1 await
  have mem := sat i hi p.head next j.prod (Grammar.mem_rules.2 ⟨p, found, rfl⟩)
  rwa [← dot] at mem

theorem saturated_closure (g : Grammar) (items : ItemSet) : (closure g items).Saturated g := by
  intro i hi a await n rule
  obtain ⟨p, found, rfl⟩ := Grammar.mem_rules.1 rule
  exact start_mem_closure hi await found

theorem closure_subset_of_saturated (sat : larger.Saturated g) (sub : ∀ i ∈ items, i ∈ larger) :
    ∀ i ∈ closure g items, i ∈ larger :=
  closure_subset sat.expand_eq sub

theorem closure_mono (sub : ∀ i ∈ items, i ∈ more) : ∀ i ∈ closure g items, i ∈ closure g more :=
  closure_subset_of_saturated (saturated_closure g more) fun i hi => subset_closure (sub i hi)

theorem Saturated.union (sat : items.Saturated g) (sat' : more.Saturated g) :
    (items ∪ more).Saturated g := by
  intro i hi a await n rule
  exact OrderedSet.mem_union.2 ((OrderedSet.mem_union.1 hi).imp
    (fun h => sat i h a await n rule) fun h => sat' i h a await n rule)

theorem closure_union (g : Grammar) (items more : ItemSet) :
    closure g (items ∪ more) = closure g items ∪ closure g more := by
  have sat := (saturated_closure g items).union (saturated_closure g more)
  refine OrderedSet.eq_of_mem_iff fun i => ⟨?_, fun hi => ?_⟩
  · refine closure_subset_of_saturated sat (fun i hi => ?_) i
    exact OrderedSet.mem_union.2 ((OrderedSet.mem_union.1 hi).imp subset_closure subset_closure)
  · rcases OrderedSet.mem_union.1 hi with hi | hi
    · exact closure_mono (fun _ h => OrderedSet.mem_union.2 (.inl h)) i hi
    · exact closure_mono (fun _ h => OrderedSet.mem_union.2 (.inr h)) i hi

end ItemSet

open ItemSet (closure predicted Saturated)
open Automaton (leftRecursive)

/-- A set that grows, and the items of it whose productions have not been asked for yet. -/
structure WorkList where
  set : ItemSet
  pending : List Item

namespace WorkList

variable {g : Grammar} {items : ItemSet} {w w' : WorkList} {i j : Item}

def begin (items : ItemSet) : WorkList := ⟨items, items.toList⟩

def fresh (g : Grammar) (set : ItemSet) (i : Item) : List Item :=
  (predicted g i).filter fun j => j ∉ set

/-- One pending item is taken, wherever it stands; what is new in the set becomes pending. -/
def Turn (g : Grammar) (i : Item) (w w' : WorkList) : Prop :=
  ∃ rest, w.pending.Perm (i :: rest) ∧
    w' = ⟨w.set.insertAll (fresh g w.set i), fresh g w.set i ++ rest⟩

inductive Run (g : Grammar) (items : ItemSet) : WorkList → Prop
  | begin : Run g items (.begin items)
  | turn {w w' : WorkList} {i : Item} (run : Run g items w) (turn : Turn g i w w') : Run g items w'

/-- What is not pending has been answered, and nothing is in the set that is not called for. -/
structure Between (g : Grammar) (items : ItemSet) (w : WorkList) : Prop where
  lower : ∀ i ∈ items, i ∈ w.set
  upper : ∀ i ∈ w.set, i ∈ closure g items
  pending : ∀ i ∈ w.pending, i ∈ w.set
  answered : ∀ i ∈ w.set, i ∉ w.pending → ∀ j ∈ predicted g i, j ∈ w.set

theorem mem_fresh {set : ItemSet} : j ∈ fresh g set i ↔ j ∈ predicted g i ∧ j ∉ set := by
  simp [fresh]

theorem between_begin (g : Grammar) (items : ItemSet) : Between g items (.begin items) where
  lower _ hi := hi
  upper _ hi := ItemSet.subset_closure hi
  pending _ hi := hi
  answered _ hi done := absurd hi done

theorem Turn.between (between : Between g items w) (turn : Turn g i w w') :
    Between g items w' := by
  obtain ⟨rest, taken, rfl⟩ := turn
  have pending : i ∈ w.pending := taken.mem_iff.2 List.mem_cons_self
  have called := ItemSet.saturated_iff_predicted.1 (ItemSet.saturated_closure g items)
  refine ⟨fun j hj => ?_, fun j hj => ?_, fun j hj => ?_, fun k hk done j hj => ?_⟩
  · exact OrderedSet.mem_insertAll.2 (.inl (between.lower j hj))
  · rcases OrderedSet.mem_insertAll.1 hj with hj | hj
    · exact between.upper j hj
    · exact called i (between.upper i (between.pending i pending)) j (mem_fresh.1 hj).1
  · refine OrderedSet.mem_insertAll.2 ((List.mem_append.1 hj).symm.imp (fun hj => ?_) id)
    exact between.pending j (taken.mem_iff.2 (List.mem_cons_of_mem i hj))
  · obtain ⟨not_fresh, not_rest⟩ := not_or.1 (mt List.mem_append.2 done)
    have old := (OrderedSet.mem_insertAll.1 hk).resolve_right not_fresh
    rw [OrderedSet.mem_insertAll]
    -- What is no longer pending was taken in this turn or was not pending before it.
    by_cases same : k = i
    · subst same
      by_cases known : j ∈ w.set
      · exact .inl known
      · exact .inr (mem_fresh.2 ⟨hj, known⟩)
    · have idle : k ∉ w.pending := fun h =>
        (List.mem_cons.1 (taken.mem_iff.1 h)).elim same not_rest
      exact .inl (between.answered k old idle j hj)

theorem Run.between (run : Run g items w) : Between g items w := by
  induction run with
  | begin => exact between_begin g items
  | turn _ turn ih => exact turn.between ih

theorem Run.set_eq (run : Run g items w) (done : w.pending = []) : w.set = closure g items := by
  have between := run.between
  have sat : w.set.Saturated g := ItemSet.saturated_iff_predicted.2 fun i hi =>
    between.answered i hi (done ▸ List.not_mem_nil)
  refine OrderedSet.eq_of_mem_iff fun i => ⟨between.upper i, ?_⟩
  exact ItemSet.closure_subset_of_saturated sat between.lower i

theorem exists_turn (hi : i ∈ w.pending) : ∃ w', Turn g i w w' :=
  ⟨_, _, List.perm_cons_erase hi, rfl⟩

def missing (g : Grammar) (set : ItemSet) : Nat :=
  (List.range g.prods.size).countP fun n => ⟨n, 0⟩ ∉ set

theorem missing_insertAll_lt {set : ItemSet} (hj : j ∈ fresh g set i) :
    missing g (set.insertAll (fresh g set i)) < missing g set := by
  obtain ⟨asked, new⟩ := mem_fresh.1 hj
  obtain ⟨a, _, n, rule, rfl⟩ := ItemSet.mem_predicted.1 asked
  obtain ⟨p, found, _⟩ := Grammar.mem_rules.1 rule
  refine ItemSet.countP_lt_countP (a := n) (fun m => ?_) ?_ (by simpa using new) ?_
  · simp only [decide_eq_true_eq]
    exact mt fun h => OrderedSet.mem_insertAll.2 (.inl h)
  · exact List.mem_range.2 (Array.getElem?_eq_some_iff.1 found).1
  · simpa using OrderedSet.mem_insertAll.2 (.inr hj)

/-- Each turn starts a production or has one item less to take. -/
theorem wellFounded_turn (g : Grammar) : WellFounded fun w' w => ∃ i, Turn g i w w' := by
  have lex : WellFounded (Prod.Lex (· < ·) (· < ·) : Nat × Nat → Nat × Nat → Prop) :=
    WellFounded.prod_lex Nat.lt_wfRel.wf Nat.lt_wfRel.wf
  refine Subrelation.wf ?_ (InvImage.wf (fun w => (missing g w.set, w.pending.length)) lex)
  rintro _ w ⟨i, rest, taken, rfl⟩
  -- With nothing new the set stays as it is, and one item less is pending.
  cases new : fresh g w.set i with
  | nil =>
      refine Prod.Lex.right _ ?_
      rw [List.nil_append, taken.length_eq]
      exact Nat.lt_succ_self _
  | cons j others =>
      rw [← new]
      exact Prod.Lex.left _ _ (missing_insertAll_lt (new ▸ List.mem_cons_self))

theorem Run.exists_done (run : Run g items w) : ∃ w', Run g items w' ∧ w'.pending = [] := by
  induction w using (wellFounded_turn g).induction with
  | _ w ih =>
      cases pending : w.pending with
      | nil => exact ⟨w, run, pending⟩
      | cons i rest =>
          obtain ⟨w', turn⟩ := exists_turn (g := g) (w := w) (i := i) (by simp [pending])
          exact ih w' ⟨i, turn⟩ (run.turn turn)

end WorkList

/-- `closure` is the closure operator of the saturated sets, and what every run of a work list
ends at. -/
structure LeastClosure (g : Grammar) : Prop where
  subset : ∀ items, ∀ i ∈ items, i ∈ closure g items
  saturated : ∀ items, (closure g items).Saturated g
  least : ∀ items larger : ItemSet, (∀ i ∈ items, i ∈ larger) → larger.Saturated g →
    ∀ i ∈ closure g items, i ∈ larger
  idempotent : ∀ items, closure g (closure g items) = closure g items
  mono : ∀ items more : ItemSet, (∀ i ∈ items, i ∈ more) →
    ∀ i ∈ closure g items, i ∈ closure g more
  union : ∀ items more, closure g (items ∪ more) = closure g items ∪ closure g more
  turn : ∀ w : WorkList, ∀ i ∈ w.pending, ∃ w', WorkList.Turn g i w w'
  ends : WellFounded fun w' w => ∃ i, WorkList.Turn g i w w'
  exists_done : ∀ items w, WorkList.Run g items w → ∃ w', WorkList.Run g items w' ∧ w'.pending = []
  set_eq : ∀ items w, WorkList.Run g items w → w.pending = [] → w.set = closure g items

theorem leastClosure (g : Grammar) : LeastClosure g where
  subset _ _ := ItemSet.subset_closure
  saturated := ItemSet.saturated_closure g
  least _ _ sub sat := ItemSet.closure_subset_of_saturated sat sub
  idempotent := ItemSet.closure_closure g
  mono _ _ := ItemSet.closure_mono
  union := ItemSet.closure_union g
  turn _ _ := WorkList.exists_turn
  ends := WorkList.wellFounded_turn g
  exists_done _ _ := WorkList.Run.exists_done
  set_eq _ _ := WorkList.Run.set_eq

theorem leastClosure_leftRecursive : LeastClosure leftRecursive.augment ∧
    (closure leftRecursive.augment (.ofList [⟨1, 1⟩, ⟨0, 0⟩])).toList =
      [⟨0, 0⟩, ⟨1, 0⟩, ⟨1, 1⟩, ⟨2, 0⟩] :=
  ⟨leastClosure _, by decide +kernel⟩

end ShiftReduce
