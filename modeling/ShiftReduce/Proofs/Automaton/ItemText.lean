import ShiftReduce.Proofs.Text.Rereading
import ShiftReduce.Proofs.Grammar.Spelling
import ShiftReduce.Proofs.Grammar.Writing
import ShiftReduce.Proofs.Grammar.Rearrangement
import ShiftReduce.Proofs.Automaton.Closure

/-!
Items by their text. Head and symbols are told by their spelling and the arrow stands in its place,
but the dot is a word like any other and may be taken for a terminal that is spelled like it. So the
text of an item tells the item up to one exchange of the dot with such a terminal
(`text_eq_text_iff`), and tells it exactly where there is none (`Alike.eq`).
-/

namespace ShiftReduce

namespace Grammar

variable {g : Grammar} {x y : Symbol} {xs ys : List Symbol} {p q : Production}

/-- A symbol that occurs in productions: the new start symbol of an augmented grammar does not. -/
def Inner (g : Grammar) (x : Symbol) : Prop := x ∈ g.symbols ∧ x ≠ .nonterminal 0

theorem Augmented.inner_of_mem_rhs {s : Nat} (augmented : g.Augmented s) (hp : p ∈ g.prods)
    (hx : x ∈ p.rhs) : g.Inner x := by
  refine ⟨augmented.mem_symbols_of_mem_rhs hp hx, ?_⟩
  rintro rfl
  exact augmented.start_not_mem p hp (mem_body_of_mem_rhs hx)

theorem Augmented.inner_of_append {s n : Nat} (augmented : g.Augmented s)
    (found : g.prod? n = some p) (rhs : p.rhs = xs ++ ys) :
    (∀ x ∈ xs, g.Inner x) ∧ ∀ y ∈ ys, g.Inner y :=
  List.forall_mem_append.1 fun _ hx =>
    augmented.inner_of_mem_rhs (mem_of_prod? found) (rhs ▸ hx)

namespace Plain

variable (plain : g.Plain)

include plain

theorem exists_shift_of_inner (inner : g.augment.Inner x) : ∃ y ∈ g.symbols, x = y.shift :=
  ((plain.mem_symbols_augment).1 inner.1).resolve_left inner.2

theorem symbolName_injOn_inner (hx : g.augment.Inner x) (hy : g.augment.Inner y)
    (same : g.augment.symbolName x = g.augment.symbolName y) : x = y := by
  obtain ⟨x, mem, rfl⟩ := plain.exists_shift_of_inner hx
  obtain ⟨y, mem', rfl⟩ := plain.exists_shift_of_inner hy
  rw [plain.symbolName_shift, plain.symbolName_shift] at same
  rw [plain.symbolName_injOn mem mem' same]

theorem eq_of_map_symbolName_eq (hxs : ∀ x ∈ xs, g.augment.Inner x)
    (hys : ∀ y ∈ ys, g.augment.Inner y)
    (same : xs.map g.augment.symbolName = ys.map g.augment.symbolName) : xs = ys := by
  have ids : xs.map id = ys.map id := map_eq_map_of_map_eq same fun x hx y hy =>
    plain.symbolName_injOn_inner (hxs x hx) (hys y hy)
  rwa [List.map_id, List.map_id] at ids

theorem exists_terminal_of_symbolName_eq_dot (hx : g.augment.Inner x)
    (dot : g.augment.symbolName x = ".") :
    ∃ t, x = .terminal t ∧ g.augment.terms.name? t = some "." := by
  obtain ⟨x, mem, rfl⟩ := plain.exists_shift_of_inner hx
  rw [plain.symbolName_shift] at dot
  have kind := plain.isNonterminalName_symbolName mem
  obtain ⟨a, known, rfl⟩ | ⟨t, known, rfl⟩ := mem_symbols.1 mem
  · have upper := kind.2 ⟨a, rfl⟩
    rw [dot] at upper
    exact absurd upper (by decide)
  · refine ⟨t, rfl, ?_⟩
    rw [terms_augment plain, name?_eq_some_termName known]
    exact congrArg some dot

end Plain

theorem symbolName_of_name? {t : Nat} {name : String} (spelled : g.terms.name? t = some name) :
    g.symbolName (.terminal t) = name := by
  have known : t < g.terms.size := (List.getElem?_eq_some_iff.1 spelled).1
  rw [name?_eq_some_termName known] at spelled
  exact Option.some.inj spelled

end Grammar

namespace Item

variable {g : Grammar} {i j : Item} {p : Production} {m n : Nat} {front behind : List Symbol}

def pieces (g : Grammar) (p : Production) (dot : Nat) : List String :=
  let names := p.rhs.map g.symbolName
  g.nontermName p.head :: "→" :: (names.take dot ++ "." :: names.drop dot)

theorem text_of_prod? (found : g.prod? i.prod = some p) :
    i.text g = Text.spaced (pieces g p i.dot) := by
  rw [text, found]
  rfl

theorem isWord_of_mem_pieces (wf : g.WellFormed)
    (words : ∀ x ∈ g.symbols, Text.IsWord (g.symbolName x)) (hp : p ∈ g.prods) (dot : Nat) :
    ∀ s ∈ pieces g p dot, Text.IsWord s := by
  have head : Text.IsWord (g.nontermName p.head) :=
    words (.nonterminal p.head) (Grammar.mem_symbols.2 (.inl ⟨_, wf.head_lt p hp, rfl⟩))
  have rhs : ∀ s ∈ p.rhs.map g.symbolName, Text.IsWord s :=
    List.forall_mem_map.2 fun x hx => words x (wf.mem_symbols_of_mem_rhs hp hx)
  have arrow : Text.IsWord "→" := Text.isWord_of_toList_eq rfl (by decide)
  have dot : Text.IsWord "." := Text.isWord_of_toList_eq rfl (by decide)
  simp only [pieces, List.forall_mem_cons, List.forall_mem_append]
  exact ⟨head, arrow, fun s hs => rhs s (List.mem_of_mem_take hs), dot,
    fun s hs => rhs s (List.mem_of_mem_drop hs)⟩

theorem newline_not_mem_text (wf : g.WellFormed)
    (words : ∀ x ∈ g.symbols, Text.IsWord (g.symbolName x)) (i : Item) :
    '\n' ∉ (i.text g).toList := by
  cases found : g.prod? i.prod with
  | none => simp [text, found]
  | some p =>
      rw [text_of_prod? found]
      intro newline
      rcases Piece.mem_toList_spaced.1 newline with ⟨_, space⟩ | ⟨s, hs, here⟩
      · exact absurd space (by decide)
      · have word := isWord_of_mem_pieces wf words (Grammar.mem_of_prod? found) i.dot s hs
        exact word.newline_not_mem here

theorem pieces_append (rhs : p.rhs = front ++ behind) : pieces g p front.length =
    g.nontermName p.head :: "→" ::
      (front.map g.symbolName ++ "." :: behind.map g.symbolName) := by
  have length : front.length = (front.map g.symbolName).length := by simp
  simp only [pieces, rhs, List.map_append]
  rw [length, List.take_left, List.drop_left]

theorem InRange.exists_append (inRange : i.InRange g) : ∃ p front behind,
    g.prod? i.prod = some p ∧ p.rhs = front ++ behind ∧ i.dot = front.length := by
  obtain ⟨p, found, le⟩ := inRange
  have length : i.dot = (p.rhs.take i.dot).length := by simp [le]
  exact ⟨p, p.rhs.take i.dot, p.rhs.drop i.dot, found, (List.take_append_drop _ _).symm, length⟩

theorem length_append_cons {α : Type} (front : List α) (a : α) (behind : List α) :
    (front ++ a :: behind).length = front.length + 1 + behind.length := by
  simp only [List.length_append, List.length_cons]
  omega

/-- The dot of each item stands where the other one has a terminal that is spelled like it. -/
inductive Mimics (g : Grammar) : Item → Item → Prop
  | intro {p q : Production} {m n t : Nat} {front between behind : List Symbol}
      (first : g.prod? m = some p) (second : g.prod? n = some q) (head : p.head = q.head)
      (spelled : g.terms.name? t = some ".")
      (rhs : p.rhs = front ++ (between ++ .terminal t :: behind))
      (rhs' : q.rhs = front ++ .terminal t :: between ++ behind) :
      Mimics g ⟨m, front.length⟩ ⟨n, front.length + 1 + between.length⟩

def Alike (g : Grammar) (i j : Item) : Prop := i = j ∨ i.Mimics g j ∨ j.Mimics g i

theorem Mimics.text_eq (mimics : i.Mimics g j) : i.text g = j.text g := by
  cases mimics with
  | @intro p q m n t front between behind first second head spelled rhs rhs' =>
      have dot := Grammar.symbolName_of_name? spelled
      rw [text_of_prod? first, text_of_prod? second]
      simp only [← length_append_cons front (.terminal t) between, pieces_append rhs,
        pieces_append rhs', head]
      simp [dot]

section

variable {q : Production} {front' behind' : List Symbol} {mid : List String} (plain : g.Plain)
  (first : g.augment.prod? m = some p) (second : g.augment.prod? n = some q)
  (head : p.head = q.head) (rhs : p.rhs = front ++ behind) (rhs' : q.rhs = front' ++ behind')

include plain first second head rhs rhs'

theorem eq_of_names_eq (distinct : g.augment.prods.toList.Nodup)
    (before : front.map g.augment.symbolName = front'.map g.augment.symbolName)
    (after : behind.map g.augment.symbolName = behind'.map g.augment.symbolName) :
    (⟨m, front.length⟩ : Item) = ⟨n, front'.length⟩ := by
  have augmented := Grammar.augmented_of_plain plain
  have inner := augmented.inner_of_append first rhs
  have inner' := augmented.inner_of_append second rhs'
  obtain rfl := plain.eq_of_map_symbolName_eq inner.1 inner'.1 before
  obtain rfl := plain.eq_of_map_symbolName_eq inner.2 inner'.2 after
  obtain rfl := augmented.eq_of_rhs_eq (Grammar.mem_of_prod? first) (Grammar.mem_of_prod? second)
    head (rhs.trans rhs'.symm)
  rw [Grammar.eq_of_prod? distinct first second]

theorem mimics_of_names
    (before : front'.map g.augment.symbolName = front.map g.augment.symbolName ++ "." :: mid)
    (after : behind.map g.augment.symbolName = mid ++ "." :: behind'.map g.augment.symbolName) :
    Mimics g.augment ⟨m, front.length⟩ ⟨n, front'.length⟩ := by
  have augmented := Grammar.augmented_of_plain plain
  have inner := augmented.inner_of_append first rhs
  have inner' := augmented.inner_of_append second rhs'
  obtain ⟨same, others, rfl, fronts, others_eq⟩ := List.map_eq_append_iff.1 before
  obtain ⟨x, between, rfl, dot, mids⟩ := List.map_eq_cons_iff.1 others_eq
  obtain ⟨between', others, rfl, mids', others_eq⟩ := List.map_eq_append_iff.1 after
  obtain ⟨y, rest, rfl, dot', behinds⟩ := List.map_eq_cons_iff.1 others_eq
  -- the parts in order: in front of both dots, the dot, between the dots, the other dot, the rest
  simp only [List.forall_mem_append, List.forall_mem_cons] at inner inner'
  obtain rfl := plain.eq_of_map_symbolName_eq inner'.1.1 inner.1 fronts
  obtain rfl := plain.eq_of_map_symbolName_eq inner'.1.2.2 inner.2.1 (mids.trans mids'.symm)
  obtain rfl := plain.eq_of_map_symbolName_eq inner.2.2.2 inner'.2 behinds
  obtain rfl := plain.symbolName_injOn_inner inner'.1.2.1 inner.2.2.1 (dot.trans dot'.symm)
  obtain ⟨t, rfl, spelled⟩ := plain.exists_terminal_of_symbolName_eq_dot inner'.1.2.1 dot
  rw [length_append_cons]
  exact .intro first second head spelled rhs rhs'

end

section

variable {text : String} (read : Grammar.ofText text = .ok g) (hi : i.InRange g.augment)
  (hj : j.InRange g.augment)

include read hi hj

theorem alike_of_text_eq (same : i.text g.augment = j.text g.augment) : i.Alike g.augment j := by
  have plain := Grammar.plain_of_ofText read
  have wf := Grammar.wellFormed_augment plain
  have distinct := Grammar.nodup_prods_augment plain (Grammar.represented_of_read read).distinct
  obtain ⟨p, front, behind, first, rhs, dot⟩ := hi.exists_append
  obtain ⟨q, front', behind', second, rhs', dot'⟩ := hj.exists_append
  have hp := Grammar.mem_of_prod? first
  have hq := Grammar.mem_of_prod? second
  have words {p : Production} (hp : p ∈ g.augment.prods) (dot : Nat) :
      Text.words (Text.spaced (pieces g.augment p dot)) = pieces g.augment p dot :=
    Text.words_spaced (isWord_of_mem_pieces wf
      (fun _ => Grammar.isWord_symbolName_augment read) hp dot)
  have written : pieces g.augment p i.dot = pieces g.augment q j.dot := by
    rw [← words hp, ← words hq, ← text_of_prod? first, ← text_of_prod? second, same]
  rw [dot, dot', pieces_append rhs, pieces_append rhs'] at written
  obtain ⟨heads, arrow⟩ := List.cons.inj written
  have head := Grammar.nontermName_inj (wf.head_lt p hp) (wf.head_lt q hq) heads
  obtain ⟨m, _⟩ := i
  obtain ⟨n, _⟩ := j
  subst dot dot'
  -- the dot of `i` is the dot of `j`, or it stands in front of that one, or behind it
  obtain ⟨mid, after, before⟩ | ⟨mid, before, after⟩ :=
    Grammar.append_eq_append_cons (List.cons.inj arrow).2
  · cases mid with
    | nil =>
        rw [List.append_nil] at before
        exact .inl (eq_of_names_eq plain first second head rhs rhs' distinct before.symm
          (List.cons.inj after).2)
    | cons word mid =>
        obtain ⟨rfl, behinds⟩ := List.cons.inj after
        exact .inr (.inl (mimics_of_names plain first second head rhs rhs' before behinds))
  · exact .inr (.inr (mimics_of_names plain second first head.symm rhs' rhs before after))

theorem text_eq_text_iff : i.text g.augment = j.text g.augment ↔ i.Alike g.augment j := by
  apply Iff.intro (alike_of_text_eq read hi hj)
  rintro (rfl | mimics | mimics)
  · rfl
  · exact mimics.text_eq
  · exact mimics.text_eq.symm

end

theorem Mimics.dot_mem_names (mimics : i.Mimics g j) : "." ∈ g.terms.names := by
  cases mimics with
  | intro _ _ _ spelled _ _ => exact List.mem_of_getElem? spelled

theorem Alike.eq (no_dot : "." ∉ g.terms.names) (alike : i.Alike g j) : i = j := by
  rcases alike with rfl | mimics | mimics
  · rfl
  · exact absurd mimics.dot_mem_names no_dot
  · exact absurd mimics.dot_mem_names no_dot

end Item

end ShiftReduce
