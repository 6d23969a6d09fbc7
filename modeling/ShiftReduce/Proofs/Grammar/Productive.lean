import ShiftReduce.Proofs.Grammar.Augmentation

/-!
Grammars in which every nonterminal derives a string of terminals. In such a grammar every string of
symbols does (`Productive.exists_derivation`), and augmentation keeps it so (`productive_augment`).
The terminals that are derived belong to the grammar and can be spelled (`exists_spells`).
-/

namespace ShiftReduce.Grammar

variable {g : Grammar} {α β : List Symbol}

def Productive (g : Grammar) : Prop :=
  ∀ a < g.nonterms.size, ∃ ts : List Nat, g.Derives [.nonterminal a] (ts.map .terminal)

theorem Productive.exists_derivation (productive : g.Productive) (h : ∀ x ∈ α, x ∈ g.symbols) :
    ∃ ns, ∃ ts : List Nat, g.RightDerives ns α (ts.map .terminal) := by
  induction α with
  | nil => exact ⟨[], [], .refl []⟩
  | cons x α ih =>
      obtain ⟨ns, ts, behind⟩ := ih fun y hy => h y (List.mem_cons_of_mem x hy)
      have first : ∃ ms, ∃ us : List Nat, g.RightDerives ms [x] (us.map .terminal) := by
        obtain ⟨a, known, rfl⟩ | ⟨t, _, rfl⟩ := mem_symbols.1 (h x List.mem_cons_self)
        · obtain ⟨us, derives⟩ := productive a known
          obtain ⟨ms, derives⟩ := derives_terminals_iff.1 derives
          exact ⟨ms, us, derives⟩
        · exact ⟨[], [t], .refl _⟩
      obtain ⟨ms, us, front⟩ := first
      exact ⟨ns ++ ms, us ++ ts, front.join behind⟩

theorem productive_augment (plain : g.Plain) (productive : g.Productive) :
    g.augment.Productive := by
  have old : ∀ a < g.nonterms.size, ∃ ts : List Nat,
      g.augment.Derives [.nonterminal (a + 1)] (ts.map .terminal) := by
    intro a known
    obtain ⟨ts, derives⟩ := productive a known
    obtain ⟨ns, derives⟩ := derives_terminals_iff.1 derives
    exact ⟨ts, ((rightDerives_terminals_augment_iff plain).2 ⟨ns, rfl, derives⟩).derives⟩
  intro a known
  rw [size_nonterms_augment plain] at known
  cases a with
  | zero =>
      obtain ⟨ts, derives⟩ := old g.start plain.start_lt
      exact ⟨ts, .head ⟨0, _, [], [], prod?_augment_zero plain, rfl, rfl⟩ derives⟩
  | succ a => exact old a (Nat.lt_of_succ_lt_succ known)

theorem WellFormed.mem_symbols_of_derives (wf : g.WellFormed) (h : g.Derives α β)
    (known : ∀ x ∈ α, x ∈ g.symbols) : ∀ x ∈ β, x ∈ g.symbols := by
  induction h with
  | refl => exact known
  | tail _ step ih =>
      obtain ⟨n, p, left, right, found, rfl, rfl⟩ := step
      intro x hx
      simp only [List.mem_append] at hx
      rcases hx with (hx | hx) | hx
      · exact ih x (List.mem_append_left _ hx)
      · exact wf.mem_symbols_of_mem_rhs (mem_of_prod? found) hx
      · exact ih x (List.mem_append_right _ (List.mem_cons_of_mem _ hx))

theorem WellFormed.terminals_lt_of_derives (wf : g.WellFormed) {ts : List Nat}
    (h : g.Derives α (ts.map .terminal)) (known : ∀ x ∈ α, x ∈ g.symbols) :
    ∀ t ∈ ts, t < g.terms.size := by
  intro t ht
  have mem := wf.mem_symbols_of_derives h known _ (List.mem_map_of_mem ht)
  simpa [mem_symbols] using mem

theorem exists_spells {ts : List Nat} (known : ∀ t ∈ ts, t < g.terms.size) :
    ∃ w, g.Spells ts w := by
  induction ts with
  | nil => exact ⟨[], rfl⟩
  | cons t ts ih =>
      obtain ⟨w, spelled⟩ := ih fun u hu => known u (List.mem_cons_of_mem t hu)
      obtain ⟨name, here⟩ : ∃ name, g.terms.name? t = some name :=
        ⟨_, List.getElem?_eq_getElem (known t List.mem_cons_self)⟩
      have first : g.Spells [t] [name] :=
        congrArg (fun i => [i]) (Alphabet.index?_eq_some_iff.2 here)
      exact ⟨_, first.append spelled⟩

end ShiftReduce.Grammar
