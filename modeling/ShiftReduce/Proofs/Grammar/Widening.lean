import ShiftReduce.Proofs.Grammar.Embedding
import ShiftReduce.Proofs.Numbering.FirstOccurrences
import ShiftReduce.Proofs.TerminalSets.Exactness

/-!
Rules that are never reached. Lines behind a text whose heads stand in no form of the start symbol
widen the grammar (`widens_ofText`): its symbols keep their numbers, and a production is new only if
its head is never reached. So the forms of the start symbol are the same (`Widens.derives_start`),
with them the sentences (`Widens.sentence_iff`), and the augmentations are in the same relation
(`Widens.augment`). Forms of other symbols may be new.
-/

open List (Forall₂)

namespace ShiftReduce

theorem Text.lines_append (s t : String) : lines (s ++ "\n" ++ t) = lines s ++ lines t := by
  have split : (s.toList ++ '\n' :: t.toList).splitOnP (· == '\n') =
      s.toList.splitOnP (· == '\n') ++ t.toList.splitOnP (· == '\n') :=
    List.splitOnP_append_cons _ _ rfl
  simp [lines, split]

theorem Alphabet.names_isPrefix_foldl_add (names : List String) (a : Alphabet) :
    a.names <+: (names.foldl add a).names := by
  induction names generalizing a with
  | nil => exact List.prefix_rfl
  | cons name names ih =>
      refine List.IsPrefix.trans ?_ (ih (a.add name))
      by_cases known : name ∈ a.names
      · exact ⟨[], by rw [List.append_nil, names_add_of_mem known]⟩
      · rw [names_add_of_not_mem known]
        exact List.prefix_append _ _

theorem Alphabet.names_ofList_isPrefix (names more : List String) :
    (ofList names).names <+: (ofList (names ++ more)).names := by
  rw [ofList, ofList, List.foldl_append]
  exact names_isPrefix_foldl_add more _

theorem Alphabet.indexOf_eq_of_isPrefix {a b : Alphabet} (le : a.names <+: b.names) {name : String}
    (mem : name ∈ a.names) : b.indexOf name = a.indexOf name := by
  obtain ⟨more, whole⟩ := le
  rw [indexOf, indexOf, ← whole, List.idxOf_append_of_mem mem]

namespace Grammar

variable {g h : Grammar} {α β : List Symbol} {a : Nat} {text more : String}

theorem textLines_append (s t : String) :
    textLines (s ++ "\n" ++ t) = textLines s ++ textLines t := by
  simp only [textLines, Text.lines_append, List.map_append, List.filter_append]

theorem Occurs.of_mem_rhs {p : Production} (occurs : g.Occurs p.head) (hp : p ∈ g.prods)
    (mem : .nonterminal a ∈ p.rhs) : g.Occurs a := by
  obtain ⟨left, right, form⟩ := occurs
  obtain ⟨front, behind, rhs⟩ := List.append_of_mem mem
  have expanded := (derives_rhs hp).context left right
  rw [rhs] at expanded
  refine ⟨left ++ front, behind ++ right, form.trans ?_⟩
  simpa using expanded

theorem not_occurs_of_closed {as : List Nat} (start : g.start ∉ as)
    (closed : ∀ p ∈ g.prods, ∀ a ∈ as, .nonterminal a ∈ p.rhs → p.head ∈ as) :
    ∀ a ∈ as, ¬ g.Occurs a := by
  have apart {β : List Symbol} (form : g.Derives [.nonterminal g.start] β) :
      ∀ a ∈ as, .nonterminal a ∉ β := by
    induction form with
    | refl =>
        intro a mem here
        obtain rfl := Symbol.nonterminal.inj (List.mem_singleton.1 here)
        exact start mem
    | tail _ step ih =>
        obtain ⟨n, p, left, right, found, rfl, rfl⟩ := step
        intro a mem here
        rw [List.mem_append, List.mem_append] at here
        rcases here with (here | here) | here
        · exact ih a mem (by simp [here])
        · exact ih p.head (closed p (mem_of_prod? found) a mem here) (by simp)
        · exact ih a mem (by simp [here])
  intro a mem ⟨left, right, form⟩
  exact apart form a mem (by simp)

theorem occurs_of_occurs_augment (plain : g.Plain) (occurs : g.augment.Occurs (a + 1)) :
    g.Occurs a := by
  obtain ⟨left, right, form⟩ := occurs
  rw [(augmented_of_plain plain).start_eq] at form
  rcases Relation.ReflTransGen.cases_head form with same | ⟨γ, first, rest⟩
  · cases left <;> simp at same
  · obtain rfl := (step_start_augment_iff plain).1 first
    obtain ⟨β, derives, whole⟩ :=
      exists_derives_of_derives_augment plain (α := [.nonterminal g.start]) rest
    obtain ⟨front, behind, rfl, _, tail⟩ := List.map_eq_append_iff.1 whole.symm
    obtain ⟨x, behind, rfl, here, _⟩ := List.map_eq_cons_iff.1 tail
    obtain ⟨b, rfl, same⟩ := Symbol.shift_eq_nonterminal.1 here
    obtain rfl : a = b := Nat.succ.inj same
    exact ⟨front, behind, derives⟩

/-- The second grammar has more productions, but no new one for a symbol that is reached. -/
structure Widens (g h : Grammar) : Prop where
  terms : g.terms.names <+: h.terms.names
  start_eq : h.start = g.start
  kept : ∀ p ∈ g.prods, p ∈ h.prods
  added : ∀ p ∈ h.prods, h.Occurs p.head → p ∈ g.prods

namespace Widens

variable (widens : g.Widens h)

include widens

theorem eof_le : g.eof ≤ h.eof := widens.terms.length_le

theorem name?_eq {t : Nat} (known : t < g.eof) : h.terms.name? t = g.terms.name? t :=
  getElem?_of_isPrefix widens.terms (List.getElem?_eq_getElem known) |>.trans
    (List.getElem?_eq_getElem known).symm

theorem step (step : g.Step α β) : h.Step α β := by
  obtain ⟨n, p, left, right, found, rfl, rfl⟩ := step
  obtain ⟨m, found'⟩ := Array.getElem?_of_mem (widens.kept p (mem_of_prod? found))
  exact ⟨m, p, left, right, found', rfl, rfl⟩

theorem derives (derives : g.Derives α β) : h.Derives α β := by
  induction derives with
  | refl => exact .refl
  | tail _ step ih => exact ih.tail (widens.step step)

theorem derives_start (derives : h.Derives [.nonterminal h.start] β) :
    g.Derives [.nonterminal g.start] β := by
  induction derives with
  | refl =>
      rw [widens.start_eq]
      exact .refl
  | tail before step ih =>
      obtain ⟨n, p, left, right, found, rfl, rfl⟩ := step
      have mem := widens.added p (mem_of_prod? found) ⟨left, right, before⟩
      obtain ⟨m, found'⟩ := Array.getElem?_of_mem mem
      exact ih.tail ⟨m, p, left, right, found', rfl, rfl⟩

theorem index?_of_lt {token : String} {t : Nat} (known : t < g.eof) :
    h.terms.index? token = some t ↔ g.terms.index? token = some t := by
  rw [Alphabet.index?_eq_some_iff, Alphabet.index?_eq_some_iff, widens.name?_eq known]

theorem spells_iff {ts : List Nat} (known : ∀ t ∈ ts, t < g.eof) {w : List String} :
    h.Spells ts w ↔ g.Spells ts w := by
  induction ts generalizing w with
  | nil => simp [Spells]
  | cons t ts ih =>
      obtain ⟨first, others⟩ := List.forall_mem_cons.1 known
      cases w with
      | nil => simp [Spells]
      | cons token w =>
          have rest := ih others (w := w)
          rw [Spells, Spells] at rest ⊢
          simp only [List.map_cons, List.cons.injEq, widens.index?_of_lt first, rest]

theorem sentence_iff (wf : g.WellFormed) {w : List String} : h.Sentence w ↔ g.Sentence w := by
  have known {ts : List Nat} (derives : g.Derives [.nonterminal g.start] (ts.map .terminal)) :
      ∀ t ∈ ts, t < g.eof :=
    wf.terminals_lt_of_derives derives (by simpa [mem_symbols] using wf.start_lt)
  apply Iff.intro
  · intro ⟨ts, spelled, derives⟩
    have derives := widens.derives_start derives
    exact ⟨ts, (widens.spells_iff (known derives)).1 spelled, derives⟩
  · intro ⟨ts, spelled, derives⟩
    refine ⟨ts, (widens.spells_iff (known derives)).2 spelled, ?_⟩
    rw [widens.start_eq]
    exact widens.derives derives

theorem augment (plain : g.Plain) (plain' : h.Plain) : g.augment.Widens h.augment where
  terms := by
    rw [terms_augment plain, terms_augment plain']
    exact widens.terms
  start_eq := by rw [(augmented_of_plain plain).start_eq, (augmented_of_plain plain').start_eq]
  kept p hp := by
    rw [mem_prods_augment plain']
    obtain rfl | ⟨q, hq, rfl⟩ := (mem_prods_augment plain).1 hp
    · exact .inl (by rw [widens.start_eq])
    · exact .inr ⟨q, widens.kept q hq, rfl⟩
  added p hp occurs := by
    rw [mem_prods_augment plain]
    obtain rfl | ⟨q, hq, rfl⟩ := (mem_prods_augment plain').1 hp
    · exact .inl (by rw [widens.start_eq])
    · exact .inr ⟨q, widens.added q hq (occurs_of_occurs_augment plain' occurs), rfl⟩

end Widens

section

variable {rules new : List Rule}

theorem nontermsOf_isPrefix (rules new : List Rule) :
    (nontermsOf rules).names <+: (nontermsOf (rules ++ new)).names := by
  rw [nontermsOf, nontermsOf, ruleWords, ruleWords, List.flatMap_append, List.filterMap_append]
  exact Alphabet.names_ofList_isPrefix _ _

theorem termsOf_isPrefix (rules new : List Rule) :
    (termsOf rules).names <+: (termsOf (rules ++ new)).names := by
  rw [termsOf, termsOf, ruleWords, ruleWords, List.flatMap_append, List.filterMap_append]
  exact Alphabet.names_ofList_isPrefix _ _

theorem encode_append {w : Word} (mem : w ∈ ruleWords rules) :
    encode (nontermsOf (rules ++ new)) (termsOf (rules ++ new)) w =
      encode (nontermsOf rules) (termsOf rules) w := by
  cases w with
  | nonterminal name =>
      have known := mem_names_nontermsOf.2 mem
      exact congrArg _ (Alphabet.indexOf_eq_of_isPrefix (nontermsOf_isPrefix rules new) known)
  | terminal name =>
      have known := mem_names_termsOf.2 mem
      exact congrArg _ (Alphabet.indexOf_eq_of_isPrefix (termsOf_isPrefix rules new) known)
  | empty => rfl

theorem production_append {r : Rule} (hr : r ∈ rules) {body : List Word} (hbody : body ∈ r.bodies) :
    (⟨(nontermsOf (rules ++ new)).indexOf r.head,
      body.map (encode (nontermsOf (rules ++ new)) (termsOf (rules ++ new)))⟩ : Production) =
      ⟨(nontermsOf rules).indexOf r.head,
        body.map (encode (nontermsOf rules) (termsOf rules))⟩ := by
  have head := Alphabet.indexOf_eq_of_isPrefix (nontermsOf_isPrefix rules new)
    (mem_names_nontermsOf.2 (head_mem_ruleWords hr))
  have words : body.map (encode (nontermsOf (rules ++ new)) (termsOf (rules ++ new))) =
      body.map (encode (nontermsOf rules) (termsOf rules)) :=
    List.map_congr_left fun w hw => encode_append (mem_ruleWords_of_mem_body hr hbody hw)
  rw [head, words]

theorem start_append (some_rule : rules ≠ []) :
    (ofRules (rules ++ new)).start = (ofRules rules).start := by
  obtain ⟨r, rest, rfl⟩ := List.exists_cons_of_ne_nil some_rule
  have first : r ∈ r :: rest := List.mem_cons_self
  have same := Alphabet.indexOf_eq_of_isPrefix (nontermsOf_isPrefix (r :: rest) new)
    (mem_names_nontermsOf.2 (head_mem_ruleWords first))
  simpa [ofRules, headsOf, List.eraseDups_cons] using same

theorem widens_ofRules (some_rule : rules ≠ [])
    (apart : ∀ r ∈ new, ¬ (ofRules (rules ++ new)).Occurs
      ((nontermsOf (rules ++ new)).indexOf r.head)) :
    (ofRules rules).Widens (ofRules (rules ++ new)) where
  terms := termsOf_isPrefix rules new
  start_eq := start_append some_rule
  kept p hp := by
    obtain ⟨r, hr, body, hbody, rfl⟩ := mem_prods_ofRules.1 hp
    refine mem_prods_ofRules.2 ⟨r, List.mem_append_left _ hr, body, hbody, ?_⟩
    exact (production_append hr hbody).symm
  added p hp occurs := by
    obtain ⟨r, hr, body, hbody, rfl⟩ := mem_prods_ofRules.1 hp
    cases List.mem_append.1 hr with
    | inl hr => exact mem_prods_ofRules.2 ⟨r, hr, body, hbody, production_append hr hbody⟩
    | inr hr => exact absurd occurs (apart r hr)

end

/-- No line of the text is a rule for a symbol that is reached. -/
def Apart (h : Grammar) (more : String) : Prop :=
  ∀ line ∈ textLines more, ∀ r, Rule.ofLine line = .ok r →
    ¬ h.Occurs (h.nonterms.indexOf r.head)

theorem apart_of_closed (as : List Nat) (start : h.start ∉ as)
    (closed : ∀ p ∈ h.prods, ∀ a ∈ as, .nonterminal a ∈ p.rhs → p.head ∈ as)
    (heads : ∀ line ∈ textLines more, (Rule.ofLine line).toOption.all fun r =>
      h.nonterms.indexOf r.head ∈ as) : h.Apart more := by
  intro line mem r made
  have head := heads line mem
  rw [made] at head
  exact not_occurs_of_closed start closed _ (of_decide_eq_true head)

theorem exists_append_of_forall₂ {γ δ : Type} {R : γ → δ → Prop} {xs ys : List γ} {zs : List δ}
    (each : Forall₂ R (xs ++ ys) zs) :
    ∃ us vs, zs = us ++ vs ∧ Forall₂ R xs us ∧ Forall₂ R ys vs := by
  induction xs generalizing zs with
  | nil => exact ⟨[], zs, rfl, .nil, each⟩
  | cons x xs ih =>
      cases each with
      | @cons _ z _ zs first rest =>
          obtain ⟨us, vs, rfl, front, behind⟩ := ih rest
          exact ⟨z :: us, vs, rfl, .cons first front, behind⟩

theorem widens_ofText (read : ofText text = .ok g) (read' : ofText (text ++ "\n" ++ more) = .ok h)
    (apart : h.Apart more) : g.Widens h := by
  obtain ⟨rules, some_rule, each, rfl⟩ := ofText_eq_ok_iff.1 read
  obtain ⟨all, _, each', rfl⟩ := ofText_eq_ok_iff.1 read'
  rw [textLines_append] at each'
  obtain ⟨front, new, rfl, each_front, each_new⟩ := exists_append_of_forall₂ each'
  have unique : Relator.RightUnique fun line r => Rule.ofLine line = .ok r :=
    fun line r s hr hs => Except.ok.inj (hr.symm.trans hs)
  obtain rfl := List.right_unique_forall₂' unique each_front each
  refine widens_ofRules some_rule fun r hr => ?_
  obtain ⟨line, mem, made⟩ := exists_of_mem_left each_new.flip hr
  exact apart line mem r made

end Grammar

end ShiftReduce
