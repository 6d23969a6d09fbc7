import Mathlib.Data.List.SplitBy
import ShiftReduce.Grammar.Basic
import ShiftReduce.Proofs.Text.Rereading
import ShiftReduce.Proofs.Grammar.Rearrangement
import ShiftReduce.Proofs.Grammar.Writing

/-!
Grammars printed and read back. The productions of a head stand together, so they are printed on one
line, and what is printed depends on their spellings only (`Prints.toText_eq`). Reading the lines
gives the same productions in the same order (`ofText_toText`). The numbers of symbols may change:
reading numbers them as they are met.
-/

namespace ShiftReduce

open List (Forall₂)
open Text (isBlank spaced)

section

variable {α β : Type} {r : α → α → Bool}

theorem splitBy_flatten_of_apart {groups : List (List α)} (some_each : ∀ xs ∈ groups, xs ≠ [])
    (alike : ∀ xs ∈ groups, ∀ a ∈ xs, ∀ b ∈ xs, r a b)
    (apart : groups.Pairwise fun xs ys => ∀ a ∈ xs, ∀ b ∈ ys, r a b = false) :
    groups.flatten.splitBy r = groups := by
  refine List.splitBy_flatten (fun nothing => some_each [] nothing rfl) (fun xs hxs => ?_)
    (List.Pairwise.isChain (apart.imp_of_mem fun {xs ys} hxs hys apart => ?_))
  · exact (List.pairwise_of_forall_mem_list (alike xs hxs)).isChain
  · exact ⟨some_each xs hxs, some_each ys hys,
      apart _ (List.getLast_mem (some_each xs hxs)) _ (List.head_mem (some_each ys hys))⟩

theorem exists_groups_of_map_eq {f : α → β} {xs : List α} {labels : List (List β)}
    (labelled : xs.map f = labels.flatten) :
    ∃ groups : List (List α), xs = groups.flatten ∧ groups.map (List.map f) = labels := by
  induction labels generalizing xs with
  | nil => exact ⟨[], List.map_eq_nil_iff.1 labelled, rfl⟩
  | cons first labels ih =>
      obtain ⟨group, behind, rfl, rfl, rest⟩ := List.map_eq_append_iff.1 labelled
      obtain ⟨groups, rfl, rfl⟩ := ih rest
      exact ⟨group :: groups, rfl, rfl⟩

end

namespace Grammar

variable {g h : Grammar} {text head : String} {heads : List String}
  {altsOf : String → List (List String)} {rules : List (String × List (List String))}

def block (altsOf : String → List (List String)) (head : String) : List (String × List String) :=
  (altsOf head).map fun alt => (head, alt)

theorem headText_eq (writable : Writable head (altsOf head)) {group : List Production}
    (spelled : group.map g.spell = block altsOf head) :
    g.headText group = spaced (rulePieces head (altsOf head)) := by
  obtain ⟨alt, others, alts_eq⟩ := List.exists_cons_of_ne_nil writable.some_alt
  rw [block, alts_eq] at spelled
  obtain ⟨p, rest, rfl, first, spelled_rest⟩ := List.map_eq_cons_iff.1 spelled
  obtain ⟨name, body⟩ := Prod.mk.inj first
  have texts : rest.map g.bodyText = others.map spaced := by
    have bodies := congrArg (List.map fun q => spaced q.2) spelled_rest
    rwa [List.map_map, List.map_map] at bodies
  rw [writable.spaced_rulePieces, alts_eq, List.map_cons, headText, productionText, bodyText, body,
    name, texts, String.intercalate_cons_append]

/-- The own productions of the grammar stand in blocks, each of them on one line. -/
structure Prints (g : Grammar) (heads : List String) (altsOf : String → List (List String)) :
    Prop where
  nodup : heads.Nodup
  writable : ∀ head ∈ heads, Writable head (altsOf head)
  spelled : g.ownProductions.map g.spell = heads.flatMap (block altsOf)
  told_apart : ∀ p ∈ g.ownProductions, ∀ q ∈ g.ownProductions,
    g.nontermName p.head = g.nontermName q.head → p.head = q.head

def linesOf (heads : List String) (altsOf : String → List (List String)) : List String :=
  heads.map fun head => spaced (rulePieces head (altsOf head))

theorem name_eq_of_mem_block {q : String × List String} (h : q ∈ block altsOf head) :
    q.1 = head := by
  obtain ⟨_, _, rfl⟩ := List.mem_map.1 h
  rfl

theorem Prints.splitBy_eq (prints : g.Prints heads altsOf) :
    (g.ownProductions.splitBy fun p q => p.head == q.head).map (List.map g.spell) =
      heads.map (block altsOf) := by
  have spelled := prints.spelled
  rw [List.flatMap_def] at spelled
  obtain ⟨groups, own, labels⟩ := exists_groups_of_map_eq spelled
  have exists_head : ∀ group ∈ groups, ∃ head ∈ heads, group.map g.spell = block altsOf head := by
    intro group hgroup
    have mem : group.map g.spell ∈ heads.map (block altsOf) := labels ▸ List.mem_map_of_mem hgroup
    obtain ⟨head, hhead, same⟩ := List.mem_map.1 mem
    exact ⟨head, hhead, same.symm⟩
  have name_eq {group : List Production} {head : String} {p : Production}
      (same : group.map g.spell = block altsOf head) (hp : p ∈ group) :
      g.nontermName p.head = head :=
    name_eq_of_mem_block (same ▸ List.mem_map_of_mem (f := g.spell) hp)
  -- The groups are given by the spellings, so heads by number have to split in the same places.
  rw [← labels, own, splitBy_flatten_of_apart]
  · intro group hgroup nothing
    obtain ⟨head, hhead, same⟩ := exists_head group hgroup
    rw [nothing, block, eq_comm, List.map_nil, List.map_eq_nil_iff] at same
    exact (prints.writable head hhead).some_alt same
  · intro group hgroup p hp q hq
    obtain ⟨head, _, same⟩ := exists_head group hgroup
    have mem {p : Production} (hp : p ∈ group) : p ∈ g.ownProductions :=
      own ▸ List.mem_flatten.2 ⟨group, hgroup, hp⟩
    rw [beq_iff_eq]
    exact prints.told_apart p (mem hp) q (mem hq) ((name_eq same hp).trans (name_eq same hq).symm)
  · have names : (groups.map (List.map g.spell)).Pairwise fun xs ys =>
        ∀ a ∈ xs, ∀ b ∈ ys, a.1 ≠ b.1 := by
      rw [labels, List.pairwise_map]
      refine prints.nodup.imp fun {head head'} apart a ha b hb same => apart ?_
      rw [← name_eq_of_mem_block ha, same, name_eq_of_mem_block hb]
    refine (List.pairwise_map.1 names).imp fun {xs ys} apart p hp q hq => ?_
    refine beq_eq_false_iff_ne.2 fun same => ?_
    exact apart _ (List.mem_map_of_mem hp) _ (List.mem_map_of_mem hq)
      (congrArg g.nontermName same)

/-- Numbers play no part in what is printed. -/
theorem Prints.toText_eq (prints : g.Prints heads altsOf) :
    g.toText = "\n".intercalate (linesOf heads altsOf) :=
  congrArg _ (map_eq_map_of_map_eq prints.splitBy_eq fun _ _ head hhead same =>
    headText_eq (prints.writable head hhead) same)

section

variable (plain : g.Plain)

include plain

theorem ownProductions_of_plain : g.ownProductions = g.prods.toList := by
  rw [ownProductions, if_neg (by simp [plain.not_augmented])]

theorem ownProductions_augment :
    g.augment.ownProductions = g.prods.toList.map Production.shift := by
  rw [ownProductions, if_pos g.augmented_augment, augment_eq plain]
  simp

theorem head_eq_of_nontermName_eq : ∀ p ∈ g.ownProductions, ∀ q ∈ g.ownProductions,
    g.nontermName p.head = g.nontermName q.head → p.head = q.head := by
  rw [ownProductions_of_plain plain]
  intro p hp q hq
  exact nontermName_inj (plain.head_lt p (Array.mem_toList_iff.1 hp))
    (plain.head_lt q (Array.mem_toList_iff.1 hq))

theorem spell_shift (p : Production) : g.augment.spell p.shift = g.spell p := by
  refine Prod.ext (nontermName_augment plain p.head) ?_
  show List.map _ (List.map _ p.body) = _
  rw [List.map_map]
  exact List.map_congr_left fun x _ => plain.symbolName_shift x

theorem Prints.augment (prints : g.Prints heads altsOf) : g.augment.Prints heads altsOf where
  nodup := prints.nodup
  writable := prints.writable
  spelled := by
    rw [← prints.spelled, ownProductions_augment plain, ownProductions_of_plain plain, List.map_map]
    exact List.map_congr_left fun p _ => spell_shift plain p
  told_apart := by
    rw [ownProductions_augment plain]
    intro _ mem _ mem' same
    obtain ⟨p, hp, rfl⟩ := List.mem_map.1 mem
    obtain ⟨q, hq, rfl⟩ := List.mem_map.1 mem'
    rw [← ownProductions_of_plain plain] at hp hq
    have names : g.nontermName p.head = g.nontermName q.head := by
      rwa [← nontermName_augment plain, ← nontermName_augment plain]
    exact congrArg (· + 1) (prints.told_apart p hp q hq names)

end

theorem nonblankLines_intercalate {ls : List String} (some_line : ls ≠ [])
    (unbroken : ∀ l ∈ ls, '\n' ∉ l.toList)
    (filled : ∀ l ∈ ls, l.toList.any fun c => !isBlank c) :
    nonblankLines ("\n".intercalate ls) = ls := by
  rw [nonblankLines, Text.lines_intercalate some_line unbroken, List.filter_eq_self.2 filled]

theorem Prints.reads (prints : g.Prints heads altsOf) (some_head : heads ≠ []) :
    Forall₂ (fun line rule => Reads line rule.1 rule.2) (nonblankLines g.toText)
      (heads.map fun head => (head, altsOf head)) := by
  have lines : nonblankLines g.toText = linesOf heads altsOf := by
    rw [prints.toText_eq]
    refine nonblankLines_intercalate (by simpa [linesOf] using some_head) ?_ ?_
    · intro line hline
      obtain ⟨head, hhead, rfl⟩ := List.mem_map.1 hline
      exact (prints.writable head hhead).not_mem_line
    · intro line hline
      obtain ⟨head, _, rfl⟩ := List.mem_map.1 hline
      exact any_not_blank_rulePieces head (altsOf head)
  rw [lines, linesOf, List.forall₂_map_left_iff, List.forall₂_map_right_iff, List.forall₂_same]
  exact fun head hhead => (prints.writable head hhead).reads

theorem exists_presents_of_reads (some_rule : rules ≠ [])
    (each : Forall₂ (fun line rule => Reads line rule.1 rule.2) (nonblankLines text) rules) :
    ∃ g, ofText text = .ok g ∧ Presents rules g := by
  let made := rules.map fun rule => (⟨rule.1, rule.2.map wordsOf⟩ : Rule)
  have some_made : made ≠ [] := by simpa [made] using some_rule
  have spelled : made.map Rule.spelled = rules := by
    rw [List.map_map]
    exact List.map_id'' (fun rule => Rule.spelled_wordsOf rule.1 rule.2) rules
  have read : Forall₂ (fun line r => Rule.ofLine line = .ok r) (textLines text) made := by
    rw [textLines_eq, List.forall₂_map_left_iff, List.forall₂_map_right_iff]
    exact each.imp fun _ rule reads => Rule.ofLine_eq_ok_iff_reads.2 ⟨rule.2, reads, rfl⟩
  have presents := presents_ofRules some_made (Rule.wellFormed_of_each read)
  rw [spelled] at presents
  exact ⟨_, ofText_eq_ok_iff.2 ⟨made, some_made, read, rfl⟩, presents⟩

section

variable (presents : Presents (heads.map fun head => (head, altsOf head)) g)

include presents

theorem Presents.spelledProductions_eq (nodup : heads.Nodup)
    (distinct : ∀ head ∈ heads, (altsOf head).Nodup) :
    g.spelledProductions = heads.flatMap (block altsOf) := by
  obtain ⟨heads', altsOf', written, alternatives, spelled⟩ := presents.productions
  have names : (heads.map fun head => (head, altsOf head)).map Prod.fst = heads := by
    rw [List.map_map]
    exact List.map_id'' (fun _ => rfl) heads
  rw [names] at written
  obtain rfl := written.unique (firstOccurrences_of_nodup nodup)
  rw [spelled]
  refine List.flatMap_congr fun head hhead => ?_
  have own : (heads'.map fun head => (head, altsOf head)).filter (fun rule => rule.1 == head) =
      [(head, altsOf head)] := by
    rw [List.filter_map]
    show List.map _ (heads'.filter fun head' => head' == head) = _
    rw [List.filter_beq, List.count_eq_one_of_mem nodup hhead]
    rfl
  have listed := alternatives head hhead
  rw [own, List.flatMap_singleton] at listed
  rw [listed.unique (firstOccurrences_of_nodup (distinct head hhead))]
  rfl

theorem Presents.nontermName_start (first : heads.head? = some head) :
    g.nontermName g.start = head := by
  have start := presents.start
  rw [List.head?_map, first] at start
  exact (Option.some.inj start).symm

end

theorem exists_prints (read : ofText text = .ok g) : ∃ heads altsOf, g.Prints heads altsOf ∧
    heads.head? = some (g.nontermName g.start) ∧ ∀ head ∈ heads, (altsOf head).Nodup := by
  have plain := plain_of_ofText read
  obtain ⟨rules, each, presents⟩ := presents_of_ofText read
  obtain ⟨heads, altsOf, written, alternatives, spelled⟩ := presents.productions
  have own := ownProductions_of_plain plain
  refine ⟨heads, altsOf, ⟨written.nodup, fun head hhead => ?_, own ▸ spelled,
    head_eq_of_nontermName_eq plain⟩, ?_, fun head hhead => (alternatives head hhead).nodup⟩
  · have listed := alternatives head hhead
    refine .gather ?_ fun alt halt => ?_
    · obtain ⟨rule, hrule, rfl⟩ := List.mem_map.1 ((written.mem_iff head).1 hhead)
      obtain ⟨line, _, reads⟩ := exists_of_mem_left each.flip hrule
      obtain ⟨alt, halt⟩ := List.exists_mem_of_ne_nil _ reads.writable.some_alt
      have mem : alt ∈ altsOf rule.1 :=
        (listed.mem_iff alt).2 (List.mem_flatMap.2 ⟨rule, by simpa using hrule, halt⟩)
      exact List.ne_nil_of_mem mem
    · obtain ⟨rule, hrule, mem⟩ := List.mem_flatMap.1 ((listed.mem_iff alt).1 halt)
      obtain ⟨hrule, same⟩ := List.mem_filter.1 hrule
      obtain ⟨line, _, reads⟩ := exists_of_mem_left each.flip hrule
      exact ⟨line, rule.2, eq_of_beq same ▸ reads, mem⟩
  · rw [written.head?_eq, List.head?_map]
    exact presents.start

theorem mem_names_undefined (plain : g.Plain) {name : String} :
    name ∈ g.undefinedNonterms.map g.nontermName ↔
      name ∈ g.nonterms.names ∧ ∀ q ∈ g.spelledProductions, q.1 ≠ name := by
  simp only [undefinedNonterms, List.mem_map, List.mem_filter, List.mem_range,
    Array.all_eq_true_iff_forall_mem, bne_iff_ne, spelledProductions, Array.mem_toList_iff]
  apply Iff.intro
  · rintro ⟨a, ⟨known, no_head⟩, rfl⟩
    refine ⟨mem_names_of_index? (index?_nontermName known), ?_⟩
    rintro _ ⟨p, hp, rfl⟩ same
    exact no_head p hp (nontermName_inj (plain.head_lt p hp) known same)
  · rintro ⟨mem, no_head⟩
    obtain ⟨a, known, rfl⟩ := exists_nontermName mem
    refine ⟨a, ⟨known, fun p hp same => no_head _ ⟨p, hp, rfl⟩ ?_⟩, rfl⟩
    exact congrArg g.nontermName same

theorem nodup_names_undefined (g : Grammar) :
    (g.undefinedNonterms.map g.nontermName).Nodup := by
  have known {a : Nat} (h : a ∈ g.undefinedNonterms) : a < g.nonterms.size :=
    List.mem_range.1 (List.mem_filter.1 h).1
  refine List.Nodup.map_on (fun a ha b hb => nontermName_inj (known ha) (known hb)) ?_
  exact List.nodup_range.filter _

structure SameNames (g h : Grammar) : Prop where
  start : h.nontermName h.start = g.nontermName g.start
  productions : h.spelledProductions = g.spelledProductions
  terms : h.terms.names.Perm g.terms.names
  nonterms : h.nonterms.names.Perm g.nonterms.names
  undefined : (h.undefinedNonterms.map h.nontermName).Perm (g.undefinedNonterms.map g.nontermName)

theorem SameNames.of_spelledProductions {text' : String} (read : ofText text = .ok g)
    (read' : ofText text' = .ok h) (start : h.nontermName h.start = g.nontermName g.start)
    (productions : h.spelledProductions = g.spelledProductions) : g.SameNames h := by
  have pg := presented_of_ofText read
  have ph := presented_of_ofText read'
  have same : h.SameSpelling g := ⟨start, fun q => by rw [productions]⟩
  have nonterms := same.mem_nonterms_iff ph pg
  refine ⟨start, productions,
    (List.perm_ext_iff_of_nodup h.terms.nodup g.terms.nodup).2 (same.mem_terms_iff ph pg),
    (List.perm_ext_iff_of_nodup h.nonterms.nodup g.nonterms.nodup).2 nonterms, ?_⟩
  refine (List.perm_ext_iff_of_nodup (nodup_names_undefined h)
    (nodup_names_undefined g)).2 fun name => ?_
  rw [mem_names_undefined ph.toPlain, mem_names_undefined pg.toPlain, nonterms, productions]

theorem ofText_toText (read : ofText text = .ok g) :
    (∃ h, ofText g.toText = .ok h ∧ g.SameNames h ∧ h.toText = g.toText) ∧
    g.augment.toText = g.toText := by
  have plain := plain_of_ofText read
  obtain ⟨heads, altsOf, prints, first, distinct⟩ := exists_prints read
  have printed := prints.toText_eq
  have some_head : heads ≠ [] := fun nothing => by
    rw [nothing] at first
    cases first
  obtain ⟨h, read', presents⟩ := exists_presents_of_reads (by simpa using some_head)
    (prints.reads some_head)
  have productions : h.spelledProductions = g.spelledProductions := by
    rw [presents.spelledProductions_eq prints.nodup distinct, ← prints.spelled,
      ownProductions_of_plain plain, spelledProductions]
  have plain' := plain_of_ofText read'
  have prints' : h.Prints heads altsOf := by
    refine ⟨prints.nodup, prints.writable, ?_, head_eq_of_nontermName_eq plain'⟩
    rw [← prints.spelled, ownProductions_of_plain plain, ownProductions_of_plain plain']
    exact productions
  refine ⟨⟨h, read', .of_spelledProductions read read' (presents.nontermName_start first)
    productions, prints'.toText_eq.trans printed.symm⟩, ?_⟩
  exact (prints.augment plain).toText_eq.trans printed.symm

/-- The alternatives of `S` are on two lines, so `V` is read after `U`, and before it once they are
printed on one. -/
def regathered : Grammar where
  nonterms := .ofList ["S", "B", "U", "V"]
  terms := .ofList ["a", "->x"]
  start := 0
  prods := #[⟨0, [.terminal 0]⟩, ⟨0, [.nonterminal 3]⟩, ⟨1, [.terminal 1, .nonterminal 2]⟩,
    ⟨1, [.empty]⟩]
  augmented := false

theorem read_regathered : ofText "S -> a\nB -> ->x U|^\n\nS  -> V | a" = .ok regathered := by
  decide +kernel

theorem reread_regathered : regathered.toText = "S -> a | V\nB -> ->x U | ^" ∧
    ofText regathered.toText ≠ .ok regathered ∧
    (∃ h, ofText regathered.toText = .ok h ∧ regathered.SameNames h ∧
      h.toText = regathered.toText) ∧
    regathered.augment.toText = regathered.toText :=
  ⟨by decide +kernel, by decide +kernel, ofText_toText read_regathered⟩

end Grammar

end ShiftReduce
