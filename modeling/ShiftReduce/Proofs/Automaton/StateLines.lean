import ShiftReduce.Proofs.Automaton.ItemText
import ShiftReduce.Proofs.Table.Reporting
import ShiftReduce.Proofs.Diagram.Copying

/-!
States by their lines. The diagram and the report show a state as the texts of its items in their
order, so two states look alike exactly if their items do, one by one. That can happen to different
states if a terminal is spelled like the dot, and only then (`discernible_ofText`).
-/

namespace ShiftReduce

open List (Forall₂)

theorem flatMap_zipIdx_of_apart {α β : Type} {xs : List α} {f : α × Nat → List β} {s : Nat} {x : α}
    (here : xs[s]? = some x) (apart : ∀ y k, k ≠ s → f (y, k) = []) :
    xs.zipIdx.flatMap f = f (x, s) := by
  obtain ⟨bound, rfl⟩ := List.getElem?_eq_some_iff.1 here
  have whole : xs = xs.take s ++ xs[s] :: xs.drop (s + 1) := by simp
  have length : (xs.take s).length = s := by simp [Nat.le_of_lt bound]
  have before : (xs.take s).zipIdx.flatMap f = [] := by
    refine List.flatMap_eq_nil_iff.2 fun ⟨y, k⟩ mem => apart y k ?_
    have lt := List.snd_lt_of_mem_zipIdx mem
    omega
  have after : ((xs.drop (s + 1)).zipIdx (s + 1)).flatMap f = [] := by
    refine List.flatMap_eq_nil_iff.2 fun ⟨y, k⟩ mem => apart y k ?_
    have le := List.le_snd_of_mem_zipIdx mem
    omega
  conv_lhs => rw [whole, List.zipIdx_append, List.flatMap_append, before, length, Nat.zero_add,
    List.zipIdx_cons, List.flatMap_cons, after]
  simp

namespace Listing

variable {g : Grammar} {a : Automaton} {items : ItemSet} {s : Nat}

/-- The number of the state and the text of the item, from a line that shows an item. -/
def itemLine? (line : String) : Option (Nat × String) := do
  let (tag, fields) ← Text.cutFirst? line.toList
  if tag = "C".toList then
    let (state, shown) ← Text.cutFirst? fields
    return (← Text.number? state, String.ofList shown)
  else none

def shownItems (report : String) (s : Nat) : List String :=
  (((Text.lines report).filterMap itemLine?).filter fun line => line.1 == s).map Prod.snd

theorem itemLine?_item (s : Nat) (shown : String) :
    itemLine? (recordLine ["C", toString s, shown]) = some (s, shown) := by
  rw [itemLine?, toList_recordLine_cons, toList_recordLine_cons, toList_recordLine_singleton,
    Text.cutFirst?_append (by decide)]
  simp only [Option.bind_eq_bind, Option.bind_some, if_true,
    Text.cutFirst?_append (Text.not_mem_toString (by decide) s), Text.number?_toString,
    String.ofList_toList]
  rfl

theorem itemLine?_count (n : Nat) : itemLine? (recordLine ["CS", toString n]) = none := by
  rw [itemLine?, toList_recordLine_cons, Text.cutFirst?_append (by decide)]
  rfl

theorem filterMap_stateLines (g : Grammar) (a : Automaton) :
    (stateLines g a).filterMap itemLine? =
      a.states.zipIdx.flatMap fun (items, s) => items.toList.map fun i => (s, i.text g) := by
  have shown (s : Nat) (items : ItemSet) :
      (items.toList.map fun i => recordLine ["C", toString s, i.text g]).filterMap itemLine? =
        items.toList.map fun i => (s, i.text g) := by
    rw [List.filterMap_map, ← List.filterMap_eq_map]
    exact List.filterMap_congr fun i _ => itemLine?_item s (i.text g)
  have blank : itemLine? "" = none := rfl
  simp only [stateLines, List.cons_append, List.nil_append, List.filterMap_cons, itemLine?_count,
    blank, List.filterMap_flatMap, List.filterMap_append, List.filterMap_nil, List.append_nil,
    shown]

section

variable (unbroken : ∀ i : Item, '\n' ∉ (i.text g).toList)

include unbroken

theorem newline_not_mem_stateLines : ∀ line ∈ stateLines g a, '\n' ∉ line.toList := by
  have blank : '\n' ∉ "".toList := by decide
  have number (n : Nat) : '\n' ∉ (toString n).toList := Text.not_mem_toString (by decide) n
  have count : '\n' ∉ (recordLine ["CS", toString a.size]).toList := by
    apply newline_not_mem_recordLine
    simp only [List.forall_mem_cons]
    exact ⟨by decide, number a.size, by simp⟩
  have item (s : Nat) (i : Item) : '\n' ∉ (recordLine ["C", toString s, i.text g]).toList := by
    apply newline_not_mem_recordLine
    simp only [List.forall_mem_cons]
    exact ⟨by decide, number s, unbroken i, by simp⟩
  intro line mem
  simp only [stateLines, List.mem_append, List.mem_cons, List.mem_flatMap, List.mem_map,
    List.not_mem_nil, or_false] at mem
  rcases mem with (rfl | rfl) | ⟨⟨items, s⟩, _, ⟨i, _, rfl⟩ | rfl⟩
  · exact count
  · exact blank
  · exact item s i
  · exact blank

theorem shownItems_stateLines (state : a.states[s]? = some items) :
    shownItems (Text.unlines (stateLines g a)) s = items.toList.map (Item.text g) := by
  have lines := Text.lines_unlines (newline_not_mem_stateLines (a := a) unbroken)
  have nothing_behind : [""].filterMap itemLine? = [] := rfl
  rw [shownItems, lines, List.filterMap_append, filterMap_stateLines, nothing_behind,
    List.append_nil, List.filter_flatMap, List.map_flatMap, flatMap_zipIdx_of_apart state]
  · simp [List.filter_map, Function.comp_def]
  · intro items k other
    simp [List.filter_map, Function.comp_def, other]

end

end Listing

namespace Item

variable {g : Grammar} {xs ys : List Item}

theorem map_text_eq_map_text_iff {text : String} (read : Grammar.ofText text = .ok g)
    (hxs : ∀ i ∈ xs, i.InRange g.augment) (hys : ∀ j ∈ ys, j.InRange g.augment) :
    xs.map (Item.text g.augment) = ys.map (Item.text g.augment) ↔
      Forall₂ (Alike g.augment) xs ys := by
  induction xs generalizing ys with
  | nil => cases ys <;> simp
  | cons i xs ih =>
      cases ys with
      | nil => simp
      | cons j ys =>
          obtain ⟨hi, hxs⟩ := List.forall_mem_cons.1 hxs
          obtain ⟨hj, hys⟩ := List.forall_mem_cons.1 hys
          rw [List.map_cons, List.map_cons, List.cons.injEq, List.forall₂_cons,
            text_eq_text_iff read hi hj, ih hxs hys]

theorem eq_of_forall₂_alike (no_dot : "." ∉ g.terms.names) (alike : Forall₂ (Alike g) xs ys) :
    xs = ys := by
  have same : Forall₂ (· = ·) xs ys := alike.imp fun _ _ each => each.eq no_dot
  rwa [List.forall₂_eq_eq_eq] at same

end Item

namespace Construction

variable {c : Construction} {start s : Nat} {items : ItemSet}

def nodeLines (c : Construction) (s : Nat) : List String :=
  ((c.diagram.node? (Diagram.stateId s)).map Node.lines).getD []

def reportLines (c : Construction) (s : Nat) : List String :=
  Listing.shownItems (Text.unlines (Listing.stateLines c.grammar c.automaton)) s

theorem lines_ofGrammar {g : Grammar} {text : String} (read : Grammar.ofText text = .ok g)
    (state : (ofGrammar g).automaton.states[s]? = some items) :
    (ofGrammar g).nodeLines s = items.toList.map (Item.text g.augment) ∧
      (ofGrammar g).reportLines s = items.toList.map (Item.text g.augment) := by
  have built := built_ofGrammar (Grammar.plain_of_ofText read)
  have unbroken := Item.newline_not_mem_text built.augmented.toWellFormed fun _ hx =>
    Grammar.isWord_symbolName_augment read hx
  refine ⟨?_, Listing.shownItems_stateLines unbroken state⟩
  rw [nodeLines, built.toCopies.node?_state s items state]
  rfl

theorem Built.state_inj (built : c.Built start) {r : Nat}
    (first : c.automaton.states[r]? = some items) (second : c.automaton.states[s]? = some items) :
    r = s := by
  obtain ⟨p, found⟩ := built.exists_first
  rw [built.automaton_eq] at first second
  exact eq_of_getElem?_eq_some (Automaton.nodup_states found) first second

/-- What the texts of items tell about items and states. -/
structure Discernible (c : Construction) : Prop where
  shown : ∀ s items, c.automaton.states[s]? = some items →
    c.nodeLines s = items.toList.map (Item.text c.grammar) ∧
      c.reportLines s = items.toList.map (Item.text c.grammar)
  text_eq_iff : ∀ i j : Item, i.InRange c.grammar → j.InRange c.grammar →
    (i.text c.grammar = j.text c.grammar ↔ i.Alike c.grammar j)
  lines_eq_iff : ∀ r s items others, c.automaton.states[r]? = some items →
    c.automaton.states[s]? = some others →
      (c.nodeLines r = c.nodeLines s ↔
        Forall₂ (Item.Alike c.grammar) items.toList others.toList) ∧
      (c.reportLines r = c.reportLines s ↔
        Forall₂ (Item.Alike c.grammar) items.toList others.toList)
  item_eq : "." ∉ c.grammar.terms.names → ∀ i j : Item, i.InRange c.grammar →
    j.InRange c.grammar → i.text c.grammar = j.text c.grammar → i = j
  state_eq : "." ∉ c.grammar.terms.names → ∀ r s, r < c.automaton.size → s < c.automaton.size →
    c.nodeLines r = c.nodeLines s ∨ c.reportLines r = c.reportLines s → r = s

theorem discernible_ofText {text : String} (built : ofText text = .ok c) : c.Discernible := by
  obtain ⟨g, read, rfl⟩ := exists_read built
  have built := built_ofGrammar (Grammar.plain_of_ofText read)
  have texts {r s items others} (first : (ofGrammar g).automaton.states[r]? = some items)
      (second : (ofGrammar g).automaton.states[s]? = some others) :=
    Item.map_text_eq_map_text_iff read (built.inRange_of_mem first) (built.inRange_of_mem second)
  exact {
    shown := fun s items => lines_ofGrammar read
    text_eq_iff := fun i j => Item.text_eq_text_iff read
    lines_eq_iff := fun r s items others first second => by
      obtain ⟨node, report⟩ := lines_ofGrammar read first
      obtain ⟨node', report'⟩ := lines_ofGrammar read second
      rw [node, node', report, report']
      exact ⟨texts first second, texts first second⟩
    item_eq := fun no_dot i j hi hj same => (Item.alike_of_text_eq read hi hj same).eq no_dot
    state_eq := fun no_dot r s known known' same => by
      have first := List.getElem?_eq_getElem known
      have second := List.getElem?_eq_getElem known'
      obtain ⟨node, report⟩ := lines_ofGrammar read first
      obtain ⟨node', report'⟩ := lines_ofGrammar read second
      rw [node, node', report, report', or_self, texts first second] at same
      have sets := OrderedSet.eq_of_toList_eq (Item.eq_of_forall₂_alike no_dot same)
      exact built.state_inj first (sets ▸ second) }

/-- Behind `a`, the dot of an item can stand in front of a terminal dot or behind it. -/
def dotted : Grammar where
  nonterms := .ofList ["S"]
  terms := .ofList ["a", "."]
  start := 0
  prods := #[⟨0, [.terminal 0, .terminal 1]⟩, ⟨0, [.terminal 1, .terminal 0]⟩]
  augmented := false

theorem read_dotted : Grammar.ofText "S -> a . | . a" = .ok dotted := by
  decide +kernel

theorem discernible_dotted : (ofGrammar dotted).Discernible ∧
    (⟨1, 1⟩ : Item).text dotted.augment = "S → a . ." ∧
    (⟨1, 2⟩ : Item).text dotted.augment = "S → a . ." ∧
    (⟨2, 2⟩ : Item).text dotted.augment = "S → . a ." :=
  ⟨discernible_ofText (ofText_of_read read_dotted), by decide +kernel, by decide +kernel,
    by decide +kernel⟩

/-- Neither items nor states are told by their lines in every grammar. -/
theorem confused_dotted :
    (¬ ∀ text g, Grammar.ofText text = .ok g → ∀ i j : Item, i.InRange g.augment →
      j.InRange g.augment → i.text g.augment = j.text g.augment → i = j) ∧
    ¬ ∀ text c, ofText text = .ok c → ∀ r s, r < c.automaton.size → s < c.automaton.size →
      c.nodeLines r = c.nodeLines s → c.reportLines r = c.reportLines s → r = s := by
  have found : dotted.augment.prod? 1 = some ⟨1, [.terminal 0, .terminal 1]⟩ := by decide +kernel
  have items : (⟨1, 1⟩ : Item).text dotted.augment = (⟨1, 2⟩ : Item).text dotted.augment := by
    decide +kernel
  have first : (ofGrammar dotted).automaton.states[2]? = some (.singleton ⟨1, 1⟩) := by
    decide +kernel
  have second : (ofGrammar dotted).automaton.states[4]? = some (.singleton ⟨1, 2⟩) := by
    decide +kernel
  obtain ⟨node, report⟩ := lines_ofGrammar read_dotted first
  obtain ⟨node', report'⟩ := lines_ofGrammar read_dotted second
  have lines : (OrderedSet.singleton (⟨1, 1⟩ : Item)).toList.map (Item.text dotted.augment) =
      (OrderedSet.singleton (⟨1, 2⟩ : Item)).toList.map (Item.text dotted.augment) :=
    congrArg (fun text => [text]) items
  apply And.intro
  · intro told
    have same := told _ dotted read_dotted ⟨1, 1⟩ ⟨1, 2⟩ ⟨_, found, by decide⟩
      ⟨_, found, by decide⟩ items
    exact absurd same (by decide)
  · intro told
    have same := told _ _ (ofText_of_read read_dotted) 2 4
      (List.getElem?_eq_some_iff.1 first).1 (List.getElem?_eq_some_iff.1 second).1
      (by rw [node, node', lines]) (by rw [report, report', lines])
    exact absurd same (by decide)

end Construction

end ShiftReduce
