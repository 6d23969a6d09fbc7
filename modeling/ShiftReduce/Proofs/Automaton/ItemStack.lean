import Mathlib.Data.PFun
import ShiftReduce.Proofs.Automaton.WorkList
import ShiftReduce.Proofs.Grammar.Representation

/-!
Closures by a stack of items, from which the last one is taken and to which new ones are pushed, for
as long as there are any. The look-ups of productions and of the lists of their numbers are checked.
The stack is one way to work through a list of pending items, so on items of the grammar it comes to
its end at the closure without a look-up that fails (`closure?_eq`), and so does `goto?`.
-/

namespace ShiftReduce

def Grammar.stored? (g : Grammar) (a : Nat) : Option (List Nat) :=
  (ruleTable g.nonterms.size g.prods.toList)[a]?

theorem Grammar.stored?_eq {g : Grammar} {a : Nat} (known : a < g.nonterms.size) :
    g.stored? a = some (g.rules a) := by
  rw [stored?, ruleTable_eq, List.getElem?_map, List.getElem?_range known]
  rfl

def Item.peek? (g : Grammar) (i : Item) : Option (Option Symbol) := do
  let p ← g.prod? i.prod
  return p.rhs[i.dot]?

theorem Item.peek?_eq {g : Grammar} {i : Item} (known : i.prod < g.prods.size) :
    i.peek? g = some (i.next? g) := by
  rw [peek?, next?, Grammar.prod?, Array.getElem?_eq_getElem known]
  rfl

namespace ItemSet

variable {g : Grammar} {items set : ItemSet} {stack : List Item} {i : Item} {a : Nat}

def push (work : ItemSet × List Item) (n : Nat) : ItemSet × List Item :=
  if ⟨n, 0⟩ ∈ work.1 then work else (work.1.insert ⟨n, 0⟩, ⟨n, 0⟩ :: work.2)

def pop? (g : Grammar) : ItemSet × List Item →. ItemSet ⊕ (ItemSet × List Item)
  | (set, []) => return .inl set
  | (set, i :: stack) => do
      match ← Part.ofOption (i.peek? g) with
      | some (.nonterminal a) =>
          let numbers ← Part.ofOption (g.stored? a)
          return .inr (numbers.foldl push (set, stack))
      | _ => return .inr (set, stack)

def popAll? (g : Grammar) : ItemSet × List Item →. ItemSet := (pop? g).fix

def closure? (g : Grammar) (items : ItemSet) : Part ItemSet :=
  popAll? g (items, items.toList.reverse)

def marked? (g : Grammar) (items : ItemSet) : Option (List MarkedItem) :=
  items.toList.mapM fun i => (i.peek? g).map fun next => (i, next)

def goto? (g : Grammar) (items : ItemSet) (x : Symbol) : Part ItemSet := do
  let marked ← Part.ofOption (items.marked? g)
  closure? g (moved x marked)

theorem fits_iff : items.fits g ↔ ∀ i ∈ items, i.prod < g.prods.size := by
  simp [fits, OrderedSet.mem_def]

theorem fits_closure (fits : items.fits g) : (closure g items).fits g := by
  rw [fits_iff] at fits ⊢
  exact closure_induction fits fun _ n p _ _ found => (Array.getElem?_eq_some_iff.1 found).1

theorem fits_moved {x : Symbol} (fits : items.fits g) : (moved x (items.marked g)).fits g := by
  rw [fits_iff] at fits ⊢
  intro i hi
  obtain ⟨j, hj, _, rfl⟩ := mem_moved.1 hi
  exact fits j hj

theorem marked?_eq (fits : items.fits g) : items.marked? g = some (items.marked g) :=
  mapM_eq_some_map fun i hi => by rw [Item.peek?_eq (fits_iff.1 fits i hi)]; rfl

theorem predicted_eq_map (next : i.next? g = some (.nonterminal a)) :
    predicted g i = (g.rules a).map fun n => ⟨n, 0⟩ := by
  have await : awaited g [i] = [a] := by simp [awaited, next, List.eraseDups_cons]
  rw [predicted, await, starts, Grammar.rules, List.map_map]
  · congr 2
    funext q
    simp [beq_eq_decide]
  · exact List.cons_ne_nil a []

theorem predicted_eq_nil (next : ∀ a, i.next? g ≠ some (.nonterminal a)) : predicted g i = [] := by
  refine List.eq_nil_iff_forall_not_mem.2 fun j hj => ?_
  obtain ⟨a, await, _⟩ := mem_predicted.1 hj
  exact next a await

/-- Pushed one by one, what is new goes to the set and on top of the stack. -/
theorem foldl_push {numbers : List Nat} (nodup : numbers.Nodup) :
    numbers.foldl push (set, stack) =
      (set.insertAll ((numbers.map fun n => (⟨n, 0⟩ : Item)).filter fun j => j ∉ set),
        ((numbers.map fun n => (⟨n, 0⟩ : Item)).filter fun j => j ∉ set).reverse ++ stack) := by
  induction numbers generalizing set stack with
  | nil => rfl
  | cons n numbers ih =>
      obtain ⟨other, nodup⟩ := List.nodup_cons.1 nodup
      by_cases old : (⟨n, 0⟩ : Item) ∈ set
      · simp [push, old, ih nodup]
      · -- The first number changes nothing about whether the others are new.
        have same : (numbers.map fun n => (⟨n, 0⟩ : Item)).filter (fun j => j ∉ set.insert ⟨n, 0⟩) =
            (numbers.map fun n => (⟨n, 0⟩ : Item)).filter fun j => j ∉ set := by
          refine List.filter_congr fun j hj => ?_
          obtain ⟨m, hm, rfl⟩ := List.mem_map.1 hj
          have apart : m ≠ n := fun same => other (same ▸ hm)
          simp [OrderedSet.mem_insert, apart]
        rw [List.foldl_cons, push, if_neg old, ih nodup, same]
        refine Prod.ext (OrderedSet.eq_of_mem_iff fun j => ?_) ?_
        · simp only [OrderedSet.mem_insertAll, OrderedSet.mem_insert, List.map_cons,
            List.filter_cons, old, not_false_iff, decide_true, if_true, List.mem_cons]
          tauto
        · simp [old]

end ItemSet

open ItemSet (pop? popAll? closure)
open WorkList (fresh)

theorem ItemSet.pop?_cons {g : Grammar} (wf : g.WellFormed) {set : ItemSet} {stack : List Item}
    {i : Item} (known : i.prod < g.prods.size) :
    pop? g (set, i :: stack) =
      Part.some (.inr (set.insertAll (fresh g set i), (fresh g set i).reverse ++ stack)) := by
  -- Without a nonterminal after the dot nothing is fresh, and the set stays as it is.
  have nothing (other : ∀ a, i.next? g ≠ some (.nonterminal a)) :
      (set, stack) = (set.insertAll (fresh g set i), (fresh g set i).reverse ++ stack) := by
    rw [fresh, ItemSet.predicted_eq_nil other, List.filter_nil]
    rfl
  simp only [pop?, Item.peek?_eq known, Part.coe_some, Part.bind_eq_bind, Part.bind_some]
  cases next : i.next? g with
  | none => rw [← nothing (by simp [next])]; rfl
  | some x =>
      cases x with
      | terminal t => rw [← nothing (by simp [next])]; rfl
      | empty => rw [← nothing (by simp [next])]; rfl
      | nonterminal a =>
          have stored : g.stored? a = some (g.rules a) := by
            have mem := Item.next?_mem_symbols wf next
            exact Grammar.stored?_eq (by simpa [Grammar.mem_symbols] using mem)
          have fresh_eq := fresh.eq_1 g set i
          rw [ItemSet.predicted_eq_map next] at fresh_eq
          simp only [stored, Part.coe_some, Part.bind_some,
            ItemSet.foldl_push (Grammar.pairwise_rules g a).nodup, ← fresh_eq]
          rfl

theorem WorkList.Run.popAll?_eq {g : Grammar} (wf : g.WellFormed) {items : ItemSet}
    (fits : items.fits g) {w : WorkList} (run : Run g items w) {stack : List Item}
    (pending : w.pending.Perm stack) : popAll? g (w.set, stack) = Part.some (closure g items) := by
  induction w using (wellFounded_turn g).induction generalizing stack with
  | _ w ih =>
      cases stack with
      | nil =>
          rw [← run.set_eq pending.eq_nil]
          exact Part.eq_some_iff.2 (PFun.fix_stop (Part.mem_some _))
      | cons i stack =>
          have known : i.prod < g.prods.size := by
            have mem := run.between.pending i (pending.mem_iff.2 List.mem_cons_self)
            exact ItemSet.fits_iff.1 (ItemSet.fits_closure fits) i (run.between.upper i mem)
          have turn : Turn g i w _ := ⟨stack, pending, rfl⟩
          have popped : pop? g (w.set, i :: stack) = _ := ItemSet.pop?_cons wf known
          rw [popAll?, PFun.fix_fwd_eq (Part.eq_some_iff.1 popped)]
          exact ih _ ⟨i, turn⟩ (run.turn turn) ((List.reverse_perm _).symm.append_right stack)

namespace ItemSet

variable {g : Grammar} {items : ItemSet}

theorem closure?_eq (wf : g.WellFormed) (fits : items.fits g) :
    closure? g items = Part.some (closure g items) :=
  WorkList.Run.popAll?_eq wf fits .begin (List.reverse_perm _).symm

theorem goto?_eq (wf : g.WellFormed) (fits : items.fits g) (x : Symbol) :
    goto? g items x = Part.some (goto g items x) := by
  simp only [goto?, marked?_eq fits, Part.coe_some, Part.bind_eq_bind, Part.bind_some]
  exact closure?_eq wf (fits_moved fits)

end ItemSet

end ShiftReduce
