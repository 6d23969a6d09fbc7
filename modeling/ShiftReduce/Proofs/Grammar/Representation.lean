import Mathlib.Data.List.Nodup
import Mathlib.Data.List.Sort
import ShiftReduce.Proofs.Grammar.Checking
import ShiftReduce.Proofs.Grammar.Presentation
import ShiftReduce.Proofs.Grammar.Spelling

/-!
What the later stages rely on when they look symbols and productions up by number (`Represented`).
The productions of a head are one block of them, and the lists of production numbers that are kept
while productions are added hold each number once (`ruleTable`). A grammar that has been read is
represented so, before and after augmentation (`represented_of_ofText`).
-/

namespace ShiftReduce

theorem eq_range'_of_convex {ns : List Nat} (increasing : ns.Pairwise (· < ·))
    (convex : ∀ i ∈ ns, ∀ k ∈ ns, ∀ j, i ≤ j → j ≤ k → j ∈ ns) :
    ∃ first, ns = List.range' first ns.length := by
  induction ns with
  | nil => exact ⟨0, rfl⟩
  | cons n ns ih =>
      obtain ⟨behind, rest⟩ := List.pairwise_cons.1 increasing
      have convex_rest : ∀ i ∈ ns, ∀ k ∈ ns, ∀ j, i ≤ j → j ≤ k → j ∈ ns := by
        intro i hi k hk j hij hjk
        have mem := convex i (List.mem_cons_of_mem n hi) k (List.mem_cons_of_mem n hk) j hij hjk
        have above : n < j := Nat.lt_of_lt_of_le (behind i hi) hij
        exact (List.mem_cons.1 mem).resolve_left (Nat.ne_of_gt above)
      obtain ⟨second, block⟩ := ih rest convex_rest
      refine ⟨n, ?_⟩
      cases ns with
      | nil => rfl
      | cons m ns =>
          obtain rfl : m = second := (List.cons.inj block).1
          -- Otherwise `n + 1` would be missing between them.
          have next : m = n + 1 := by
            have above := behind m List.mem_cons_self
            have mem := convex n List.mem_cons_self m (by simp) (n + 1) (Nat.le_succ n) above
            rcases List.mem_cons.1 mem with same | mem
            · exact absurd same (Nat.succ_ne_self n)
            · rcases List.mem_cons.1 mem with same | mem
              · exact same.symm
              · exact absurd ((List.pairwise_cons.1 rest).1 _ mem) (by omega)
          rw [List.length_cons, List.range'_succ, ← next, ← block]

namespace Grammar

variable {g : Grammar} {a n : Nat}

/-- The lists of production numbers as they are kept while productions are added: a number goes to
the end of the list of its head. -/
def ruleTable (nonterms : Nat) (prods : List Production) : List (List Nat) :=
  prods.zipIdx.foldl (fun table (p, n) => table.modify p.head (· ++ [n]))
    (List.replicate nonterms [])

structure Represented (g : Grammar) : Prop extends g.WellFormed where
  eof_not_mem : ∀ p ∈ g.prods, .terminal g.eof ∉ p.body
  listed : ∀ a n, n ∈ g.rules a ↔ ∃ p, g.prod? n = some p ∧ p.head = a
  increasing : ∀ a, (g.rules a).Pairwise (· < ·)
  contiguous : ∀ a, ∃ first, g.rules a = List.range' first (g.rules a).length
  one_list : ∀ n < g.prods.size, ∃! a, a < g.nonterms.size ∧ n ∈ g.rules a
  table : ruleTable g.nonterms.size g.prods.toList = (List.range g.nonterms.size).map g.rules
  distinct : g.prods.toList.Nodup
  spellings : g.nonterms.names.Nodup ∧ g.terms.names.Nodup
  occurs : ∀ x ∈ g.symbols, ∃ p ∈ g.prods, x = .nonterminal p.head ∨ x ∈ p.body
  undefined : ∀ a, a ∈ g.undefinedNonterms ↔
    (∃ p ∈ g.prods, .nonterminal a ∈ p.body) ∧ ∀ p ∈ g.prods, p.head ≠ a

theorem pairwise_rules (g : Grammar) (a : Nat) : (g.rules a).Pairwise (· < ·) := by
  have numbers : (g.prods.toList.zipIdx.map Prod.snd).Pairwise (· < ·) := by
    rw [List.zipIdx_map_snd]
    exact List.pairwise_lt_range'
  exact numbers.sublist (List.filter_sublist.map Prod.snd)

theorem getElem?_foldl_modify (ps : List (Production × Nat)) (table : List (List Nat)) :
    (ps.foldl (fun table (p, n) => table.modify p.head (· ++ [n])) table)[a]? =
      table[a]?.map (· ++ (ps.filter fun (p, _) => p.head == a).map Prod.snd) := by
  induction ps generalizing table with
  | nil => simp
  | cons entry ps ih =>
      obtain ⟨p, n⟩ := entry
      rw [List.foldl_cons, ih, List.getElem?_modify]
      by_cases same : p.head = a
      · simp [same, Function.comp_def]
      · simp [same]

theorem ruleTable_eq (g : Grammar) :
    ruleTable g.nonterms.size g.prods.toList = (List.range g.nonterms.size).map g.rules := by
  refine List.ext_getElem? fun a => ?_
  rw [ruleTable, getElem?_foldl_modify, List.getElem?_replicate, List.getElem?_map]
  by_cases known : a < g.nonterms.size
  · simp [known, rules]
  · simp [known]

theorem existsUnique_rules (wf : g.WellFormed) (known : n < g.prods.size) :
    ∃! a, a < g.nonterms.size ∧ n ∈ g.rules a := by
  have found : g.prod? n = some g.prods[n] := Array.getElem?_eq_getElem known
  refine ⟨g.prods[n].head, ⟨wf.head_lt _ (Array.getElem_mem known), ?_⟩, fun a ⟨_, mem⟩ => ?_⟩
  · exact mem_rules.2 ⟨_, found, rfl⟩
  · obtain ⟨p, found', rfl⟩ := mem_rules.1 mem
    rw [found] at found'
    cases found'
    rfl

/-- What holds of every grammar is left out, and the rest follows from these four. -/
theorem Represented.of_wellFormed (wf : g.WellFormed)
    (contiguous : ∀ a, ∃ first, g.rules a = List.range' first (g.rules a).length)
    (distinct : g.prods.toList.Nodup)
    (occurs : ∀ x ∈ g.symbols, ∃ p ∈ g.prods, x = .nonterminal p.head ∨ x ∈ p.body) :
    g.Represented where
  toWellFormed := wf
  eof_not_mem p hp mem := Nat.lt_irrefl _ (wf.terminal_lt p hp _ mem)
  listed _ _ := mem_rules
  increasing := pairwise_rules g
  contiguous := contiguous
  one_list _ known := existsUnique_rules wf known
  table := ruleTable_eq g
  distinct := distinct
  spellings := ⟨g.nonterms.nodup, g.terms.nodup⟩
  occurs := occurs
  undefined a := by
    have undefined : a ∈ g.undefinedNonterms ↔
        a < g.nonterms.size ∧ ∀ p ∈ g.prods, p.head ≠ a := by
      simp only [undefinedNonterms, List.mem_filter, List.mem_range,
        Array.all_eq_true_iff_forall_mem, bne_iff_ne]
    rw [undefined]
    refine and_congr_left fun no_head => ⟨fun known => ?_, fun ⟨p, hp, used⟩ => ?_⟩
    · obtain ⟨p, hp, here⟩ := occurs _ (mem_symbols.2 (.inl ⟨a, known, rfl⟩))
      refine ⟨p, hp, here.resolve_left fun same => no_head p hp ?_⟩
      exact (Symbol.nonterminal.inj same).symm
    · exact wf.nonterminal_lt p hp a used

section

variable {rules : List (String × List (List String))} (presents : Presents rules g)

include presents

theorem Presents.ordered : g.prods.toList.Pairwise fun p q =>
    (rules.map Prod.fst).idxOf (g.nontermName p.head) ≤
      (rules.map Prod.fst).idxOf (g.nontermName q.head) := by
  obtain ⟨heads, altsOf, written, _, spelled⟩ := presents.productions
  have by_spelling : g.spelledProductions.Pairwise fun p q =>
      (rules.map Prod.fst).idxOf p.1 ≤ (rules.map Prod.fst).idxOf q.1 := by
    rw [spelled, List.pairwise_flatMap]
    refine ⟨fun head _ => ?_, written.ordered.imp fun {head head'} lt p hp q hq => ?_⟩
    · rw [List.pairwise_map]
      exact List.pairwise_of_forall fun _ _ => Nat.le_refl _
    · obtain ⟨_, _, rfl⟩ := List.mem_map.1 hp
      obtain ⟨_, _, rfl⟩ := List.mem_map.1 hq
      exact Nat.le_of_lt lt
  rwa [spelledProductions, List.pairwise_map] at by_spelling

theorem Presents.nodup_prods : g.prods.toList.Nodup := by
  obtain ⟨heads, altsOf, written, alternatives, spelled⟩ := presents.productions
  refine List.Nodup.of_map g.spell ?_
  show g.spelledProductions.Nodup
  rw [spelled, List.nodup_flatMap]
  refine ⟨fun head hhead => ?_, written.nodup.imp fun {head head'} apart p hp hq => ?_⟩
  · exact (alternatives head hhead).nodup.map fun _ _ same => (Prod.mk.inj same).2
  · obtain ⟨_, _, rfl⟩ := List.mem_map.1 hp
    obtain ⟨_, _, same⟩ := List.mem_map.1 hq
    exact apart (Prod.mk.inj same).1.symm

theorem Presents.head_mem {p : Production} (hp : p ∈ g.prods) :
    g.nontermName p.head ∈ rules.map Prod.fst := by
  obtain ⟨heads, altsOf, written, _, spelled⟩ := presents.productions
  have mem : g.spell p ∈ g.spelledProductions := List.mem_map_of_mem (Array.mem_toList_iff.2 hp)
  rw [spelled] at mem
  obtain ⟨head, hhead, here⟩ := List.mem_flatMap.1 mem
  obtain ⟨_, _, same⟩ := List.mem_map.1 here
  rw [← (Prod.mk.inj same).1]
  exact (written.mem_iff head).1 hhead

theorem Presents.idxOf_le {i j : Nat} {p q : Production} (before : i ≤ j)
    (first : g.prod? i = some p) (second : g.prod? j = some q) :
    (rules.map Prod.fst).idxOf (g.nontermName p.head) ≤
      (rules.map Prod.fst).idxOf (g.nontermName q.head) := by
  rw [prod?, ← Array.getElem?_toList, List.getElem?_eq_some_iff] at first second
  obtain ⟨bound_i, rfl⟩ := first
  obtain ⟨bound_j, rfl⟩ := second
  rcases Nat.eq_or_lt_of_le before with rfl | before
  · exact Nat.le_refl _
  · exact List.pairwise_iff_getElem.1 presents.ordered i j bound_i bound_j before

theorem Presents.contiguous (wf : g.WellFormed) (a : Nat) :
    ∃ first, g.rules a = List.range' first (g.rules a).length := by
  refine eq_range'_of_convex (pairwise_rules g a) fun i hi k hk j hij hjk => ?_
  obtain ⟨p, found_i, rfl⟩ := mem_rules.1 hi
  obtain ⟨r, found_k, same⟩ := mem_rules.1 hk
  obtain ⟨bound, _⟩ := Array.getElem?_eq_some_iff.1 found_k
  have bound_j : j < g.prods.size := Nat.lt_of_le_of_lt hjk bound
  have found_j : g.prod? j = some g.prods[j] := Array.getElem?_eq_getElem bound_j
  have mem_i := mem_of_prod? found_i
  have mem_j := mem_of_prod? found_j
  have below := presents.idxOf_le hij found_i found_j
  have above := presents.idxOf_le hjk found_j found_k
  rw [same] at above
  have name := (List.idxOf_inj (presents.head_mem mem_j)).1 (Nat.le_antisymm above below)
  have index := index?_nontermName (wf.head_lt _ mem_j)
  rw [name, index?_nontermName (wf.head_lt _ mem_i)] at index
  exact mem_rules.2 ⟨_, found_j, (Option.some.inj index).symm⟩

end

theorem exists_production_of_word {rules : List Rule} {w : Word}
    (some_body : ∀ r ∈ rules, r.bodies ≠ []) (h : w ∈ ruleWords rules) :
    ∃ p ∈ (ofRules rules).prods,
      encode (nontermsOf rules) (termsOf rules) w = .nonterminal p.head ∨
      encode (nontermsOf rules) (termsOf rules) w ∈ p.body := by
  obtain ⟨r, hr, mem⟩ := List.mem_flatMap.1 h
  rcases List.mem_cons.1 mem with rfl | mem
  · obtain ⟨body, hbody⟩ := List.exists_mem_of_ne_nil _ (some_body r hr)
    exact ⟨_, mem_prods_ofRules.2 ⟨r, hr, body, hbody, rfl⟩, .inl rfl⟩
  · obtain ⟨body, hbody, hw⟩ := List.mem_flatten.1 mem
    exact ⟨_, mem_prods_ofRules.2 ⟨r, hr, body, hbody, rfl⟩, .inr (List.mem_map_of_mem hw)⟩

theorem occurs_ofRules {rules : List Rule} (some_body : ∀ r ∈ rules, r.bodies ≠ []) :
    ∀ x ∈ (ofRules rules).symbols, ∃ p ∈ (ofRules rules).prods,
      x = .nonterminal p.head ∨ x ∈ p.body := by
  intro x hx
  obtain ⟨w, written, rfl⟩ : ∃ w ∈ ruleWords rules,
      encode (nontermsOf rules) (termsOf rules) w = x := by
    rcases mem_symbols.1 hx with ⟨a, known, rfl⟩ | ⟨t, known, rfl⟩
    · have index := indexOf_of_index? (index?_nontermName known)
      have mem := indexOf_lt_size.1 (Nat.lt_of_le_of_lt (Nat.le_of_eq index) known)
      exact ⟨.nonterminal _, mem_names_nontermsOf.1 mem, congrArg Symbol.nonterminal index⟩
    · have index := indexOf_of_index? (index?_termName known)
      have mem := indexOf_lt_size.1 (Nat.lt_of_le_of_lt (Nat.le_of_eq index) known)
      exact ⟨.terminal _, mem_names_termsOf.1 mem, congrArg Symbol.terminal index⟩
  exact exists_production_of_word some_body written

end Grammar

theorem Rule.ne_nil_of_bodies? {pieces : List Piece} {bodies : List (List Word)}
    (h : bodies? pieces = some bodies) : bodies ≠ [] := by
  cases pieces with
  | nil =>
      cases h
      exact List.cons_ne_nil _ _
  | cons piece pieces =>
      cases piece with
      | arrow => cases h
      | bar =>
          obtain ⟨_, _, rfl⟩ := Option.map_eq_some_iff.1 h
          exact List.cons_ne_nil _ _
      | word w =>
          obtain ⟨rest, _, rfl⟩ := Option.map_eq_some_iff.1 h
          cases rest <;> exact List.cons_ne_nil _ _

namespace Grammar

variable {g : Grammar} {text : String}

theorem represented_of_read (read : ofText text = .ok g) : g.Represented := by
  have wf := (plain_of_ofText read).toWellFormed
  obtain ⟨_, _, presents⟩ := presents_of_ofText read
  refine .of_wellFormed wf (presents.contiguous wf) presents.nodup_prods ?_
  obtain ⟨rules, _, each, rfl⟩ := ofText_eq_ok_iff.1 read
  refine occurs_ofRules fun r hr => ?_
  obtain ⟨_, _, rule⟩ := exists_of_mem_left each.flip hr
  obtain ⟨_, _, bodies, _⟩ := Rule.ofLine_eq_ok_iff.1 rule
  exact Rule.ne_nil_of_bodies? bodies

section

variable (plain : g.Plain)

include plain

theorem rules_augment_zero : g.augment.rules 0 = [0] := by
  refine List.Pairwise.eq_of_mem_iff (pairwise_rules _ 0) (List.pairwise_singleton _ 0) fun n => ?_
  rw [mem_rules, List.mem_singleton]
  apply Iff.intro
  · intro ⟨p, found, head⟩
    exact (augmented_of_plain plain).only_first n p found head
  · rintro rfl
    exact ⟨_, (augmented_of_plain plain).first, rfl⟩

theorem rules_augment_succ (a : Nat) : g.augment.rules (a + 1) = (g.rules a).map (· + 1) := by
  have increasing : ((g.rules a).map (· + 1)).Pairwise (· < ·) :=
    List.pairwise_map.2 ((pairwise_rules g a).imp Nat.succ_lt_succ)
  refine List.Pairwise.eq_of_mem_iff (pairwise_rules _ (a + 1)) increasing fun n => ?_
  rw [mem_rules, List.mem_map]
  cases n with
  | zero => simp [prod?_augment_zero plain]
  | succ n => simp [prod?_augment_succ plain, mem_rules, Production.shift]

theorem ruleTable_augment : ruleTable g.augment.nonterms.size g.augment.prods.toList =
    [0] :: (ruleTable g.nonterms.size g.prods.toList).map (·.map (· + 1)) := by
  rw [ruleTable_eq, ruleTable_eq, size_nonterms_augment plain, List.range_succ_eq_map,
    List.map_cons, rules_augment_zero plain, List.map_map, List.map_map]
  exact congrArg _ (List.map_congr_left fun a _ => rules_augment_succ plain a)

theorem nodup_prods_augment (distinct : g.prods.toList.Nodup) : g.augment.prods.toList.Nodup := by
  have whole : g.augment.prods.toList =
      ⟨0, [.nonterminal (g.start + 1)]⟩ :: g.prods.toList.map Production.shift := by
    simp [augment_eq plain]
  rw [whole, List.nodup_cons]
  refine ⟨fun mem => ?_, distinct.map fun _ _ => Production.shift_injective⟩
  obtain ⟨p, _, same⟩ := List.mem_map.1 mem
  exact Nat.succ_ne_zero _ (congrArg Production.head same)

theorem Represented.augment (represented : g.Represented) : g.augment.Represented := by
  refine .of_wellFormed (wellFormed_augment plain) (fun a => ?_)
    (nodup_prods_augment plain represented.distinct) fun y hy => ?_
  · cases a with
    | zero => exact ⟨0, by rw [rules_augment_zero plain]; rfl⟩
    | succ a =>
        obtain ⟨first, block⟩ := represented.contiguous a
        refine ⟨first + 1, ?_⟩
        rw [rules_augment_succ plain, List.length_map, List.range'_succ_left, ← block]
  · have start_occurs := mem_of_prod? (augmented_of_plain plain).first
    obtain rfl | ⟨x, hx, rfl⟩ := (Plain.mem_symbols_augment plain).1 hy
    · exact ⟨_, start_occurs, .inl rfl⟩
    · obtain ⟨p, hp, here⟩ := represented.occurs x hx
      refine ⟨p.shift, (mem_prods_augment plain).2 (.inr ⟨p, hp, rfl⟩), ?_⟩
      refine here.imp (fun head => ?_) List.mem_map_of_mem
      rw [head]
      rfl

end

theorem represented_of_ofText (read : ofText text = .ok g) :
    g.Represented ∧ (∀ name ∈ g.nonterms.names, name ∉ g.terms.names) ∧
    g.augment.Represented ∧ g.augment.Augmented (g.start + 1) ∧
    ruleTable g.augment.nonterms.size g.augment.prods.toList =
      [0] :: (ruleTable g.nonterms.size g.prods.toList).map (·.map (· + 1)) := by
  have plain := plain_of_ofText read
  have represented := represented_of_read read
  refine ⟨represented, fun name upper lower => ?_, represented.augment plain,
    augmented_of_plain plain, ruleTable_augment plain⟩
  have nonterminal := plain.upper name upper
  rw [plain.lower name lower] at nonterminal
  cases nonterminal

/-- `B` is used before it is a head, and `U` never is one; the rules of `S` are on two lines. -/
def scattered : Grammar where
  nonterms := .ofList ["S", "B", "A", "U"]
  terms := .ofList ["a", "b"]
  start := 0
  prods := #[⟨0, [.nonterminal 1, .terminal 0]⟩, ⟨0, [.nonterminal 2]⟩, ⟨2, [.nonterminal 3]⟩,
    ⟨1, [.terminal 1]⟩, ⟨1, [.empty]⟩]
  augmented := false

theorem read_scattered : ofText "S -> B a\nA -> U\nS -> A\nB -> b | ^" = .ok scattered := by
  decide +kernel

theorem represented_scattered :
    scattered.Represented ∧ scattered.augment.Represented ∧
    (List.range 4).map scattered.rules = [[0, 1], [3, 4], [2], []] ∧
    (List.range 5).map scattered.augment.rules = [[0], [1, 2], [4, 5], [3], []] ∧
    scattered.undefinedNonterms = [3] := by
  obtain ⟨represented, _, augmented, _, _⟩ := represented_of_ofText read_scattered
  exact ⟨represented, augmented, by decide, by decide +kernel, by decide +kernel⟩

end Grammar

end ShiftReduce
