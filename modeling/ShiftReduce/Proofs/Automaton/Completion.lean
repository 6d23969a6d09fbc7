import ShiftReduce.Proofs.Automaton.ViablePrefix
import ShiftReduce.Proofs.Grammar.BottomUp
import ShiftReduce.Proofs.Grammar.Productive

/-!
Viable prefixes can be completed. Where every nonterminal derives a string of terminals, a plan
leads down to the start symbol from any symbols for which an item is valid (`Valid.exists_plan`):
the right-hand sides on the way back to production 0 are recognized to their ends, one after the
other. Which terminals that takes is not determined, and no lookahead is involved.
-/

namespace ShiftReduce

variable {g : Grammar} {γ α ω : List Symbol} {ts ns : List Nat} {i : Item} {s : Nat}

theorem Grammar.Productive.exists_plan_before (productive : g.Productive)
    (known : ∀ x ∈ α, x ∈ g.symbols) (plan : g.Plan ω (γ ++ α) ts ns) :
    ∃ us ms, g.Plan ω γ us ms := by
  obtain ⟨ls, vs, derives⟩ := productive.exists_derivation known
  exact ⟨_, _, plan.recognize derives⟩

namespace Valid

theorem exists_prod (augmented : g.Augmented s) (valid : Valid g γ i) :
    ∃ p, g.prod? i.prod = some p := by
  cases valid with
  | start => exact ⟨_, augmented.first⟩
  | advance _ here =>
      obtain ⟨p, found, _⟩ := Item.next?_eq_some_iff.1 here
      exact ⟨p, found⟩
  | predict _ _ found => exact ⟨_, found⟩

theorem exists_plan_behind (augmented : g.Augmented s) (productive : g.Productive)
    (valid : Valid g γ i) {p : Production} (found : g.prod? i.prod = some p) :
    ∃ ts ns, g.Plan [.nonterminal s] (γ ++ p.rhs.drop i.dot) ts ns := by
  induction valid generalizing p with
  | start =>
      cases augmented.first.symm.trans found
      exact ⟨[], [], .done⟩
  | @advance γ i x _ here ih =>
      obtain ⟨ts, ns, plan⟩ := ih found
      rw [Item.drop_eq_cons_of_next? here found] at plan
      exact ⟨ts, ns, by simpa [Item.advance] using plan⟩
  | @predict γ i n q _ await found' ih =>
      -- Behind the awaited head stands what is left of the production that awaits it.
      obtain rfl : q = p := Option.some.inj (found'.symm.trans found)
      obtain ⟨r, found_r, _⟩ := Item.next?_eq_some_iff.1 await
      obtain ⟨ts, ns, plan⟩ := ih found_r
      rw [Item.drop_eq_cons_of_next? await found_r, List.append_cons] at plan
      have known : ∀ x ∈ r.rhs.drop (i.dot + 1), x ∈ g.symbols := fun x hx =>
        augmented.mem_symbols_of_mem_rhs (Grammar.mem_of_prod? found_r) (List.mem_of_mem_drop hx)
      obtain ⟨us, ms, plan⟩ := productive.exists_plan_before known plan
      exact ⟨us, n :: ms, .reduce found plan⟩

theorem exists_plan (augmented : g.Augmented s) (productive : g.Productive)
    (valid : Valid g γ i) : ∃ ts ns, g.Plan [.nonterminal s] γ ts ns := by
  obtain ⟨p, found⟩ := valid.exists_prod augmented
  obtain ⟨ts, ns, plan⟩ := valid.exists_plan_behind augmented productive found
  have known : ∀ x ∈ p.rhs.drop i.dot, x ∈ g.symbols := fun x hx =>
    augmented.mem_symbols_of_mem_rhs (Grammar.mem_of_prod? found) (List.mem_of_mem_drop hx)
  exact productive.exists_plan_before known plan

end Valid

end ShiftReduce
