import ShiftReduce.OrderedSet
import ShiftReduce.Grammar.Basic

/-!
LR(0) items, productions with a dot that marks how much of the right-hand side has been read, and
sets of them, ordered by production and then by dot. `closure` is the least set that holds the given
items and, for every nonterminal after a dot, its productions with the dot in front; `goto` moves
the dot over one symbol. Closing first gathers the nonterminals that are awaited, in rounds, and as
many rounds as there are productions are enough.
-/

namespace ShiftReduce

/-- A production with a dot after the first `dot` symbols of its right-hand side. -/
structure Item where
  prod : Nat
  dot : Nat
deriving DecidableEq

namespace Item

instance : LT Item := ⟨fun i j => i.prod < j.prod ∨ i.prod = j.prod ∧ i.dot < j.dot⟩

theorem lt_def {i j : Item} : i < j ↔ i.prod < j.prod ∨ i.prod = j.prod ∧ i.dot < j.dot := Iff.rfl

instance : StrictOrder Item where
  decideLT := fun i j =>
    inferInstanceAs (Decidable (i.prod < j.prod ∨ i.prod = j.prod ∧ i.dot < j.dot))
  irrefl := by simp [lt_def]
  trans := by
    intro a b c
    simp only [lt_def]
    omega
  connected := by
    rintro ⟨p, d⟩ ⟨q, e⟩
    simp only [lt_def, Item.mk.injEq]
    omega

def next? (g : Grammar) (i : Item) : Option Symbol :=
  (g.prod? i.prod).bind fun p => p.rhs[i.dot]?

def isComplete (g : Grammar) (i : Item) : Bool := (i.next? g).isNone

def advance (i : Item) : Item := ⟨i.prod, i.dot + 1⟩

def text (g : Grammar) (i : Item) : String :=
  match g.prod? i.prod with
  | none => ""
  | some p =>
      let names := p.rhs.map g.symbolName
      Text.spaced
        (g.nontermName p.head :: "→" :: (names.take i.dot ++ "." :: names.drop i.dot))

end Item

abbrev ItemSet := OrderedSet Item

abbrev MarkedItem := Item × Option Symbol

namespace ItemSet

def awaited (g : Grammar) (items : List Item) : List Nat :=
  (items.filterMap fun i =>
    match i.next? g with
    | some (.nonterminal a) => some a
    | _ => none).eraseDups

def starts (g : Grammar) : List Nat → List Item
  | [] => []
  | heads =>
      (g.prods.toList.zipIdx.filter fun (p, _) => heads.contains p.head).map fun (_, n) => ⟨n, 0⟩

/-- Adds the nonterminals that productions of the fresh heads begin with, and goes on with those
that were not among `heads`. -/
def reach (g : Grammar) : Nat → List Nat → List Nat → List Nat
  | 0, _, heads => heads
  | n + 1, fresh, heads =>
      let new := (awaited g (starts g fresh)).filter fun a => a ∉ heads
      if new.isEmpty then heads else reach g n new (heads ++ new)

def expected (g : Grammar) (items : ItemSet) : List Nat :=
  let heads := awaited g items.toList
  reach g g.prods.size heads heads

def closure (g : Grammar) (items : ItemSet) : ItemSet :=
  items.insertAll (starts g (items.expected g))

def expand (g : Grammar) (items : ItemSet) : ItemSet :=
  items.insertAll (starts g (awaited g items.toList))

def marked (g : Grammar) (items : ItemSet) : List MarkedItem :=
  items.toList.map fun i => (i, i.next? g)

def moved (x : Symbol) (items : List MarkedItem) : ItemSet :=
  .ofList (items.filterMap fun
    | (i, some y) => if y = x then some i.advance else none
    | (_, none) => none)

def goto (g : Grammar) (items : ItemSet) (x : Symbol) : ItemSet :=
  closure g (moved x (items.marked g))

def fits (g : Grammar) (items : ItemSet) : Bool :=
  items.toList.all fun i => i.prod < g.prods.size

def fitting? (g : Grammar) (items : ItemSet) : Option ItemSet :=
  if items.fits g then some items else none

theorem mem_moved {g : Grammar} {items : ItemSet} {x : Symbol} {i : Item} :
    i ∈ moved x (items.marked g) ↔ ∃ j ∈ items, j.next? g = some x ∧ j.advance = i := by
  rw [moved, OrderedSet.mem_ofList]
  simp only [marked, OrderedSet.mem_def, List.filterMap_map, List.mem_filterMap,
    Function.comp_apply]
  refine exists_congr fun j => and_congr_right fun _ => ?_
  cases j.next? g <;> simp

theorem mem_awaited {g : Grammar} {items : List Item} {a : Nat} :
    a ∈ awaited g items ↔ ∃ i ∈ items, i.next? g = some (.nonterminal a) := by
  simp only [awaited, List.mem_eraseDups, List.mem_filterMap]
  constructor
  · rintro ⟨i, mem, here⟩
    refine ⟨i, mem, ?_⟩
    split at here <;> simp_all
  · rintro ⟨i, mem, here⟩
    exact ⟨i, mem, by simp [here]⟩

theorem mem_starts {g : Grammar} {heads : List Nat} {i : Item} :
    i ∈ starts g heads ↔ i.dot = 0 ∧ ∃ p, g.prod? i.prod = some p ∧ p.head ∈ heads := by
  obtain ⟨n, d⟩ := i
  cases heads with
  | nil => simp [starts]
  | cons a heads =>
      simp only [starts, List.mem_map, List.mem_filter, List.contains_iff_mem, Item.mk.injEq,
        Prod.exists, List.mem_zipIdx_iff_getElem?, Grammar.prod?, Array.getElem?_toList]
      constructor
      · rintro ⟨p, m, ⟨at_m, head⟩, rfl, rfl⟩
        exact ⟨rfl, p, at_m, head⟩
      · rintro ⟨rfl, p, at_n, head⟩
        exact ⟨p, n, ⟨at_n, head⟩, rfl, rfl⟩

theorem subset_closure {g : Grammar} {items : ItemSet} {i : Item} (h : i ∈ items) :
    i ∈ closure g items :=
  OrderedSet.mem_insertAll.2 (.inl h)

theorem subset_reach {g : Grammar} {n : Nat} {fresh heads : List Nat} {a : Nat} (h : a ∈ heads) :
    a ∈ reach g n fresh heads := by
  induction n generalizing fresh heads with
  | zero => exact h
  | succ n ih =>
      simp only [reach]
      split
      · exact h
      · exact ih (List.mem_append_left _ h)

/-- How many productions belong to none of the heads. -/
def outside (g : Grammar) (heads : List Nat) : Nat :=
  g.prods.toList.countP fun p => p.head ∉ heads

theorem countP_lt_countP {α : Type} {p q : α → Bool} {l : List α} (le : ∀ a, p a → q a) {a : α}
    (mem : a ∈ l) (holds : q a) (fails : ¬ p a) : l.countP p < l.countP q := by
  induction l with
  | nil => simp at mem
  | cons b l ih =>
      have rest_le : l.countP p ≤ l.countP q := List.countP_mono_left fun x _ => le x
      rcases List.mem_cons.1 mem with rfl | mem
      · rw [List.countP_cons_of_pos holds, List.countP_cons_of_neg fails]
        omega
      · have rest_lt := ih mem
        have first := le b
        simp only [List.countP_cons]
        split <;> split <;> grind

theorem outside_append_lt {g : Grammar} {heads new : List Nat} {p : Production}
    (mem : p ∈ g.prods.toList) (fresh : p.head ∉ heads) (found : p.head ∈ new) :
    outside g (heads ++ new) < outside g heads := by
  refine countP_lt_countP (a := p) (fun q => ?_) mem (by simpa using fresh) (by simp [found])
  simp only [List.mem_append, decide_eq_true_eq]
  exact mt .inl

theorem starts_eq_nil_or (g : Grammar) (heads : List Nat) :
    starts g heads = [] ∨ ∃ p ∈ g.prods.toList, p.head ∈ heads := by
  refine Classical.or_iff_not_imp_left.2 fun some_start => ?_
  obtain ⟨i, start⟩ := List.exists_mem_of_ne_nil _ some_start
  obtain ⟨_, p, found, mem⟩ := mem_starts.1 start
  exact ⟨p, Array.mem_toList_iff.2 (Array.mem_of_getElem? found), mem⟩

theorem awaited_starts_append {g : Grammar} {heads more : List Nat} {a : Nat}
    (await : a ∈ awaited g (starts g (heads ++ more))) :
    a ∈ awaited g (starts g heads) ∨ a ∈ awaited g (starts g more) := by
  obtain ⟨i, start, here⟩ := mem_awaited.1 await
  obtain ⟨dot, p, found, mem⟩ := mem_starts.1 start
  have awaited_of {known : List Nat} (mem : p.head ∈ known) : a ∈ awaited g (starts g known) :=
    mem_awaited.2 ⟨i, mem_starts.2 ⟨dot, p, found, mem⟩, here⟩
  exact (List.mem_append.1 mem).imp awaited_of awaited_of

/-- What the productions of the heads begin with adds no production to theirs. -/
def Closed (g : Grammar) (heads : List Nat) : Prop :=
  ∀ a ∈ awaited g (starts g heads), ∀ p ∈ g.prods.toList, p.head = a → a ∈ heads

theorem closed_reach {g : Grammar} {n : Nat} {fresh heads : List Nat}
    (enough : outside g heads ≤ n ∨ starts g fresh = [])
    (settled : ∀ a ∈ awaited g (starts g heads), a ∈ heads ∨ a ∈ awaited g (starts g fresh)) :
    Closed g (reach g n fresh heads) := by
  induction n generalizing fresh heads with
  | zero =>
      intro a await p mem head
      -- Without a round left, every production belongs to one of the heads.
      rcases enough with enough | nothing
      · have all := List.countP_eq_zero.1 (Nat.le_zero.1 enough) p mem
        simpa [reach, head] using all
      · exact (settled a await).elim id fun h => absurd h (by simp [nothing, awaited])
  | succ n ih =>
      simp only [reach]
      split
      · rename_i none_new
        intro a await _ _ _
        refine (settled a await).elim id fun h => Classical.byContradiction fun missing => ?_
        have new : a ∈ (awaited g (starts g fresh)).filter fun a => a ∉ heads := by
          simp [h, missing]
        rw [List.isEmpty_iff.1 none_new] at new
        exact absurd new (by simp)
      · rename_i some_new
        refine ih ?_ ?_
        · rcases starts_eq_nil_or g ((awaited g (starts g fresh)).filter fun a => a ∉ heads)
            with nothing | found
          · exact .inr nothing
          · obtain ⟨p, mem, new⟩ := found
            have ⟨_, missing⟩ := List.mem_filter.1 new
            -- A production of a new head is no longer outside, which pays for the round.
            have fewer := outside_append_lt mem (by simpa using missing) new
            refine .inl (enough.elim (by omega) fun nothing => absurd some_new ?_)
            simp [nothing, awaited]
        · intro a await
          rcases awaited_starts_append await with await | await
          · refine .inl (List.mem_append.2 ?_)
            have known := settled a await
            by_cases old : a ∈ heads
            · exact .inl old
            · exact .inr (by simp [known.resolve_left old, old])
          · exact .inr await

theorem expand_closure (g : Grammar) (items : ItemSet) :
    (closure g items).expand g = closure g items := by
  have closed : Closed g (items.expected g) := by
    refine closed_reach (.inl (Nat.le_trans List.countP_le_length ?_)) fun a await => .inr await
    simp
  refine OrderedSet.eq_of_mem_iff fun i => ?_
  rw [expand, OrderedSet.mem_insertAll]
  refine ⟨fun h => h.elim id fun start => ?_, .inl⟩
  obtain ⟨dot, p, found, await⟩ := mem_starts.1 start
  obtain ⟨j, mem, here⟩ := mem_awaited.1 await
  refine OrderedSet.mem_insertAll.2 (.inr (mem_starts.2 ⟨dot, p, found, ?_⟩))
  rcases OrderedSet.mem_insertAll.1 mem with mem | mem
  · exact subset_reach (mem_awaited.2 ⟨j, mem, here⟩)
  · exact closed p.head (mem_awaited.2 ⟨j, mem, here⟩) p
      (Array.mem_toList_iff.2 (Array.mem_of_getElem? found)) rfl

theorem mem_of_mem_starts {g : Grammar} {items : ItemSet} (closed : items.expand g = items)
    {heads : List Nat} (sub : ∀ a ∈ heads, a ∈ awaited g items.toList) {i : Item}
    (start : i ∈ starts g heads) : i ∈ items := by
  obtain ⟨dot, p, found, mem⟩ := mem_starts.1 start
  rw [← closed]
  exact OrderedSet.mem_insertAll.2 (.inr (mem_starts.2 ⟨dot, p, found, sub _ mem⟩))

theorem reach_subset {g : Grammar} {items : ItemSet} (closed : items.expand g = items) {n : Nat}
    {fresh heads : List Nat} (sub_fresh : ∀ a ∈ fresh, a ∈ awaited g items.toList)
    (sub : ∀ a ∈ heads, a ∈ awaited g items.toList) :
    ∀ a ∈ reach g n fresh heads, a ∈ awaited g items.toList := by
  induction n generalizing fresh heads with
  | zero => exact sub
  | succ n ih =>
      have sub_new : ∀ a ∈ (awaited g (starts g fresh)).filter fun a => a ∉ heads,
          a ∈ awaited g items.toList := by
        intro a new
        obtain ⟨i, start, here⟩ := mem_awaited.1 (List.mem_filter.1 new).1
        exact mem_awaited.2 ⟨i, mem_of_mem_starts closed sub_fresh start, here⟩
      simp only [reach]
      split
      · exact sub
      · exact ih sub_new fun a mem => (List.mem_append.1 mem).elim (sub a) (sub_new a)

theorem closure_subset {g : Grammar} {items larger : ItemSet} (closed : larger.expand g = larger)
    (sub : ∀ i ∈ items, i ∈ larger) : ∀ i ∈ closure g items, i ∈ larger := by
  intro i mem
  have sub_awaited : ∀ a ∈ awaited g items.toList, a ∈ awaited g larger.toList := by
    intro a await
    obtain ⟨j, mem, here⟩ := mem_awaited.1 await
    exact mem_awaited.2 ⟨j, sub j mem, here⟩
  refine (OrderedSet.mem_insertAll.1 mem).elim (sub i) fun start => ?_
  exact mem_of_mem_starts closed (reach_subset closed sub_awaited sub_awaited) start

end ItemSet

end ShiftReduce
