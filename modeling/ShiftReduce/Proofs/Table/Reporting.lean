import ShiftReduce.Construction
import ShiftReduce.Proofs.Text.Rereading
import ShiftReduce.Proofs.Grammar.Spelling
import ShiftReduce.Proofs.Grammar.Writing
import ShiftReduce.Proofs.Table.Conflicts

/-!
The report on a table read back. Nothing is quoted in it, but the first two fields of a line and the
last one hold no comma, so what is left between them is the name, commas and all. A name tells its
symbol because the two kinds of names are disjoint and because the new start symbol, which a
terminal can be spelled like, has no cells (`symbol?_symbolName`). So the report holds the cells,
members of conflicts in their order (`reported_ofText`).
-/

namespace ShiftReduce

namespace Text

variable {front behind : List Char}

def cutFirst? : List Char → Option (List Char × List Char)
  | [] => none
  | c :: cs =>
      if c = ',' then some ([], cs)
      else (cutFirst? cs).map fun (front, behind) => (c :: front, behind)

def cutLast? (cs : List Char) : Option (List Char × List Char) :=
  (cutFirst? cs.reverse).map fun (behind, front) => (front.reverse, behind.reverse)

theorem cutFirst?_append (no_comma : ',' ∉ front) (behind : List Char) :
    cutFirst? (front ++ ',' :: behind) = some (front, behind) := by
  induction front with
  | nil => rfl
  | cons c front ih =>
      have other : c ≠ ',' := fun same => no_comma (same ▸ List.mem_cons_self)
      rw [List.cons_append, cutFirst?, if_neg other,
        ih fun mem => no_comma (List.mem_cons_of_mem c mem)]
      rfl

theorem cutLast?_append (front : List Char) (no_comma : ',' ∉ behind) :
    cutLast? (front ++ ',' :: behind) = some (front, behind) := by
  have reversed : (front ++ ',' :: behind).reverse = behind.reverse ++ ',' :: front.reverse := by
    simp
  rw [cutLast?, reversed, cutFirst?_append (by simpa using no_comma)]
  simp

end Text

namespace Listing

def lettered? : List Char → Option Action
  | 's' :: digits => (Text.number? digits).map .shift
  | 'r' :: digits => (Text.number? digits).map .reduce
  | cs => if cs = "acc".toList then some .accept else none

def member? (cs : List Char) : Option Action := (Text.number? cs).map .goto <|> lettered? cs

def action? (cs : List Char) : Option Action := do
  Action.cell? (← (cs.splitOn '/').mapM member?)

section

variable {e : Action} {entries : List Action} {c : Char}

theorem member?_text (flat : ∀ es, e ≠ .conflict es) : member? e.text.toList = some e := by
  cases e with
  | shift s =>
      have text : (Action.shift s).text.toList = 's' :: (toString s).toList := String.toList_append
      have digits := congrArg (Option.map Action.shift) (Text.number?_toString s)
      rw [text, member?, Text.number?_cons_eq_none (by decide)]
      exact digits
  | reduce p =>
      have text : (Action.reduce p).text.toList = 'r' :: (toString p).toList := String.toList_append
      have digits := congrArg (Option.map Action.reduce) (Text.number?_toString p)
      rw [text, member?, Text.number?_cons_eq_none (by decide)]
      exact digits
  | accept => decide
  | goto s =>
      rw [Action.text, member?, Text.number?_toString]
      rfl
  | conflict es => exact absurd rfl (flat es)

theorem char_of_mem_text (flat : ∀ es, e ≠ .conflict es) (mem : c ∈ e.text.toList) :
    c ∈ "acrs".toList ∨ c.isDigit := by
  cases e with
  | shift s =>
      have cases : c = 's' ∨ c ∈ (toString s).toList := by simpa [Action.text] using mem
      exact cases.imp (by simp +contextual) Text.isDigit_of_mem_toString
  | reduce p =>
      have cases : c = 'r' ∨ c ∈ (toString p).toList := by simpa [Action.text] using mem
      exact cases.imp (by simp +contextual) Text.isDigit_of_mem_toString
  | accept =>
      have cases : c = 'a' ∨ c = 'c' := by simpa [Action.text] using mem
      exact .inl (by rcases cases with rfl | rfl <;> decide)
  | goto s => exact .inr (Text.isDigit_of_mem_toString mem)
  | conflict es => exact absurd rfl (flat es)

theorem texts_eq_map (es : List Action) : Action.texts es = es.map Action.text := by
  induction es with
  | nil => rfl
  | cons e es ih => rw [Action.texts, ih, List.map_cons]

theorem text_of_cell? (filled : Action.cell? entries = some e) :
    e.text = "/".intercalate (entries.map Action.text) := by
  match entries with
  | [] => cases filled
  | [a] =>
      obtain rfl := Option.some.inj filled
      exact String.intercalate_singleton.symm
  | a :: b :: rest =>
      obtain rfl := Option.some.inj filled
      rw [Action.text, texts_eq_map]

variable (flat : ∀ e ∈ entries, ∀ es, e ≠ .conflict es) (filled : Action.cell? entries = some e)

include flat filled

theorem char_of_mem_cell_text (mem : c ∈ e.text.toList) :
    c ∈ "/acrs".toList ∨ c.isDigit := by
  rw [text_of_cell? filled, String.toList_intercalate, mem_intercalate] at mem
  rcases mem with ⟨_, slash⟩ | ⟨_, text, here⟩
  · exact .inl (List.mem_append_left "acrs".toList slash)
  · obtain ⟨_, member, rfl⟩ := List.mem_map.1 text
    obtain ⟨f, hf, rfl⟩ := List.mem_map.1 member
    exact (char_of_mem_text (flat f hf) here).imp_left (List.mem_append_right "/".toList)

theorem action?_text : action? e.text.toList = some e := by
  have some_entry : entries ≠ [] := by
    rintro rfl
    cases filled
  have cut : e.text.toList.splitOn '/' = entries.map fun f => f.text.toList := by
    rw [text_of_cell? filled, String.toList_intercalate, List.map_map]
    refine List.splitOn_intercalate '/' (List.forall_mem_map.2 fun f hf mem => ?_)
      (by simpa using some_entry)
    exact absurd (char_of_mem_text (flat f hf) mem) (by decide)
  have read : (entries.map fun f => f.text.toList).mapM member? = some entries :=
    mapM_map_eq_some fun f hf => member?_text (flat f hf)
  rw [action?, cut, read]
  exact filled

end

def symbol? (g : Grammar) (name : String) : Option Symbol :=
  ((g.nonterms.index? name).filter (· ≠ g.start)).map .nonterminal <|>
    (g.terms.index? name).map .terminal <|>
      if name = Grammar.endSpelling then some (.terminal g.eof) else none

section

variable {g : Grammar} {name : String} {x : Symbol}

/-- The new start symbol alone can share its name with a terminal. -/
theorem index?_nonterms_of_lower (plain : g.Plain) (lower : Text.isNonterminalName name = false) :
    (g.augment.nonterms.index? name).filter (· ≠ 0) = none := by
  refine Option.filter_eq_none_iff.2 fun a index => ?_
  cases a with
  | zero => simp
  | succ a =>
      have named := Alphabet.index?_eq_some_iff.1 index
      rw [Alphabet.name?, Grammar.names_augment plain, List.getElem?_cons_succ] at named
      have upper := plain.upper _ (List.mem_of_getElem? named)
      rw [lower] at upper
      cases upper

theorem symbol?_symbolName (plain : g.Plain) (no_end : Grammar.endSpelling ∉ g.terms.names)
    (column : x ∈ Table.columns g.augment.nonterms.size g.augment.eof)
    (no_start : x ≠ .nonterminal 0) :
    symbol? g.augment (g.augment.symbolName x) = some x := by
  have start_eq : g.augment.start = 0 := (Grammar.augmented_of_plain plain).start_eq
  rw [symbol?, start_eq]
  obtain ⟨a, known, rfl⟩ | ⟨t, le, rfl⟩ := Table.mem_columns.1 column
  · have other : a ≠ 0 := fun same => no_start (same ▸ rfl)
    simp [Grammar.symbolName, Grammar.index?_nontermName known, other]
  · rw [Grammar.symbolName]
    rcases Nat.lt_or_eq_of_le le with lt | rfl
    · have lower : Text.isNonterminalName (g.augment.termName t) = false :=
        plain.lower _ (Grammar.terms_augment plain ▸ Grammar.termName_mem_names lt)
      rw [index?_nonterms_of_lower plain lower, Grammar.index?_termName lt]
      rfl
    · have no_term : g.augment.terms.index? Grammar.endSpelling = none := by
        refine Option.eq_none_iff_forall_ne_some.2 fun t index => no_end ?_
        exact Grammar.terms_augment plain ▸ Grammar.mem_names_of_index? index
      rw [Grammar.termName_eof, index?_nonterms_of_lower plain (by decide), no_term]
      rfl

theorem isWord_symbolName_column {text : String} (read : Grammar.ofText text = .ok g)
    (column : x ∈ Table.columns g.augment.nonterms.size g.augment.eof) :
    Text.IsWord (g.augment.symbolName x) := by
  obtain ⟨a, known, rfl⟩ | ⟨t, le, rfl⟩ := Table.mem_columns.1 column
  · exact Grammar.isWord_symbolName_augment read (Grammar.mem_symbols.2 (.inl ⟨a, known, rfl⟩))
  · rcases Nat.lt_or_eq_of_le le with lt | rfl
    · exact Grammar.isWord_symbolName_augment read (Grammar.mem_symbols.2 (.inr ⟨t, lt, rfl⟩))
    · rw [Grammar.symbolName, Grammar.termName_eof]
      exact Grammar.isWord_endSpelling

end

theorem toList_recordLine_singleton (field : String) :
    (recordLine [field]).toList = field.toList := by
  rw [recordLine, String.intercalate_singleton]

theorem toList_recordLine_cons (field next : String) (fields : List String) :
    (recordLine (field :: next :: fields)).toList =
      field.toList ++ ',' :: (recordLine (next :: fields)).toList := by
  simp [recordLine, String.intercalate_cons_cons]

theorem newline_not_mem_recordLine {fields : List String}
    (unbroken : ∀ field ∈ fields, '\n' ∉ field.toList) : '\n' ∉ (recordLine fields).toList := by
  rw [recordLine, String.toList_intercalate, mem_intercalate]
  rintro (⟨_, comma⟩ | ⟨_, part, here⟩)
  · exact absurd comma (by decide)
  · obtain ⟨field, mem, rfl⟩ := List.mem_map.1 part
    exact unbroken field mem here

def cellLine (g : Grammar) (k : Table.Cell) : String :=
  recordLine ["TAB", toString k.state, g.symbolName k.symbol, k.entry.text]

def cell? (g : Grammar) (line : String) : Option Table.Cell := do
  let (tag, fields) ← Text.cutFirst? line.toList
  let (state, fields) ← Text.cutFirst? fields
  let (name, entry) ← Text.cutLast? fields
  if tag = "TAB".toList then
    return ⟨← Text.number? state, ← symbol? g (String.ofList name), ← action? entry⟩
  else none

def cells? (g : Grammar) (report : String) : Option (List Table.Cell) := do
  (← (Text.lines report).dropSuffix? [""]).mapM (cell? g)

section

variable {g : Grammar} {tab : Table} {k : Table.Cell}

theorem tableLines_eq (g : Grammar) (tab : Table) :
    tableLines g tab = tab.occupied.map (cellLine g) := by
  rw [tableLines, Table.occupied, List.map_flatMap]
  simp only [List.map_map]
  rfl

theorem toList_cellLine (g : Grammar) (k : Table.Cell) : (cellLine g k).toList =
    "TAB".toList ++ ',' :: ((toString k.state).toList ++ ',' ::
      ((g.symbolName k.symbol).toList ++ ',' :: k.entry.text.toList)) := by
  simp only [cellLine, toList_recordLine_cons, toList_recordLine_singleton]

structure Legible (g : Grammar) (k : Table.Cell) : Prop where
  symbol : symbol? g (g.symbolName k.symbol) = some k.symbol
  unbroken : '\n' ∉ (g.symbolName k.symbol).toList
  entry : ∃ entries, (∀ e ∈ entries, ∀ es, e ≠ .conflict es) ∧
    Action.cell? entries = some k.entry

namespace Legible

variable (legible : Legible g k)

include legible

theorem newline_not_mem_cellLine : '\n' ∉ (cellLine g k).toList := by
  obtain ⟨entries, flat, filled⟩ := legible.entry
  have state : '\n' ∉ (toString k.state).toList := Text.not_mem_toString (by decide) k.state
  have entry : '\n' ∉ k.entry.text.toList := fun mem =>
    absurd (char_of_mem_cell_text flat filled mem) (by decide)
  apply newline_not_mem_recordLine
  simp only [List.forall_mem_cons]
  exact ⟨by decide, state, legible.unbroken, entry, by simp⟩

theorem cell?_cellLine : cell? g (cellLine g k) = some k := by
  obtain ⟨entries, flat, filled⟩ := legible.entry
  have state : ',' ∉ (toString k.state).toList := Text.not_mem_toString (by decide) k.state
  have entry : ',' ∉ k.entry.text.toList := fun mem =>
    absurd (char_of_mem_cell_text flat filled mem) (by decide)
  rw [cell?, toList_cellLine, Text.cutFirst?_append (by decide)]
  simp only [Option.bind_eq_bind, Option.bind_some, Text.cutFirst?_append state,
    Text.cutLast?_append _ entry, Text.number?_toString, String.ofList_toList, legible.symbol,
    action?_text flat filled]
  rfl

end Legible

theorem lines_tableLines (legible : ∀ k ∈ tab.occupied, Legible g k) :
    Text.lines (Text.unlines (tableLines g tab)) = tab.occupied.map (cellLine g) ++ [""] := by
  rw [tableLines_eq, Text.lines_unlines]
  exact List.forall_mem_map.2 fun k hk => (legible k hk).newline_not_mem_cellLine

theorem cells?_tableLines (legible : ∀ k ∈ tab.occupied, Legible g k) :
    cells? g (Text.unlines (tableLines g tab)) = some tab.occupied := by
  have front : (tab.occupied.map (cellLine g) ++ [""]).dropSuffix? [""] =
      some (tab.occupied.map (cellLine g)) :=
    List.dropSuffix?_eq_some_iff.2 ⟨_, rfl, beq_self_eq_true _⟩
  rw [cells?, lines_tableLines legible, front]
  exact mapM_map_eq_some fun k hk => (legible k hk).cell?_cellLine

end

end Listing

namespace Construction

open Listing (cells? cellLine tableLines)

variable {c : Construction} {start s : Nat} {x : Symbol} {e : Action}

namespace Built

variable (built : c.Built start)

include built

theorem column_of_lookup (found : c.table.lookup s x = some e) :
    x ∈ Table.columns c.grammar.nonterms.size c.grammar.eof ∧ x ≠ .nonterminal 0 := by
  apply And.intro
  · rw [built.table_eq] at found
    obtain ⟨_, _, column, _⟩ := Table.exists_of_lookup_build found
    exact column
  · rintro rfl
    rw [built.lookup_nonterminal] at found
    obtain ⟨j, target, _⟩ := Option.map_eq_some_iff.1 found
    obtain ⟨_, _, i, _, next⟩ := built.exists_next_of_transition target
    exact built.augmented.next?_ne_start next

theorem exists_flat (found : c.table.lookup s x = some e) :
    ∃ entries, (∀ e ∈ entries, ∀ es, e ≠ .conflict es) ∧ Action.cell? entries = some e := by
  cases x with
  | nonterminal a =>
      rw [built.lookup_nonterminal] at found
      obtain ⟨j, _, rfl⟩ := Option.map_eq_some_iff.1 found
      exact ⟨[.goto j], by simp, rfl⟩
  | terminal t =>
      obtain ⟨entries, _, flat, _, cell⟩ := built.exists_entries s t
      exact ⟨entries, flat, cell.symm.trans found⟩
  | empty => cases found

end Built

/-- The report lists the cells of the table that hold an entry, by state and then by column, and can
be read. -/
structure Reported (c : Construction) : Prop where
  lines_eq : Text.lines (Text.unlines (tableLines c.grammar c.table)) =
    c.table.occupied.map (cellLine c.grammar) ++ [""]
  mem_occupied_iff : ∀ s x e, ⟨s, x, e⟩ ∈ c.table.occupied ↔ c.table.lookup s x = some e
  ordered : (c.table.occupied.map fun k => (k.state, k.symbol)).Pairwise
    (Prod.Lex (· < ·) (· < ·))
  cells?_eq : cells? c.grammar (Text.unlines (tableLines c.grammar c.table)) =
    some c.table.occupied

theorem reported_ofText {text : String} (built : ofText text = .ok c)
    (no_end : Grammar.endSpelling ∉ c.grammar.terms.names) : c.Reported := by
  obtain ⟨g, read, rfl⟩ := exists_read built
  have plain := Grammar.plain_of_ofText read
  have built := built_ofGrammar plain
  have legible : ∀ k ∈ (ofGrammar g).table.occupied, Listing.Legible g.augment k := by
    intro k hk
    have found := (Table.mem_occupied_iff built.fits_table).1 hk
    obtain ⟨column, no_start⟩ := built.column_of_lookup found
    exact ⟨Listing.symbol?_symbolName plain (Grammar.terms_augment plain ▸ no_end) column no_start,
      (Listing.isWord_symbolName_column read column).newline_not_mem, built.exists_flat found⟩
  exact {
    lines_eq := Listing.lines_tableLines legible
    mem_occupied_iff := fun s x e => Table.mem_occupied_iff built.fits_table
    ordered := Table.ordered_occupied _
    cells?_eq := Listing.cells?_tableLines legible }

/-- Terminals that look like entries, like fields and like the new start symbol. -/
def commas : Grammar where
  nonterms := .ofList ["S"]
  terms := .ofList [",", "s1,r2", "S'", "3/acc"]
  start := 0
  prods := #[⟨0, [.nonterminal 0, .nonterminal 0]⟩, ⟨0, [.terminal 0]⟩, ⟨0, [.terminal 1]⟩,
    ⟨0, [.terminal 2]⟩, ⟨0, [.terminal 3]⟩]
  augmented := false

theorem read_commas : Grammar.ofText "S -> S S | , | s1,r2 | S' | 3/acc" = .ok commas := by
  decide +kernel

theorem reported_commas : (ofGrammar commas).Reported ∧
    (tableLines commas.augment (ofGrammar commas).table).drop 31 =
      ["TAB,6,S,6", "TAB,6,,,r1/s2", "TAB,6,s1,r2,r1/s3", "TAB,6,S',r1/s4",
        "TAB,6,3/acc,r1/s5", "TAB,6,$,r1"] :=
  ⟨reported_ofText (ofText_of_read read_commas) (by decide +kernel), by decide +kernel⟩

end Construction

end ShiftReduce
