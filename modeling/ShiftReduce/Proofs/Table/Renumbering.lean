import ShiftReduce.Proofs.Automaton.Renumbering
import ShiftReduce.Proofs.Table.Conflicts
import ShiftReduce.Proofs.TerminalSets.Renumbering

/-!
Tables under other numbers. A cell holds the same entries by other numbers, and only where they
compete their order may differ (`Alike`); so the conflicts are the same ones, each of its kind
(`conflicts_perm`).
-/

namespace ShiftReduce

theorem Action.eq_nil_or_single_or_cell? (entries : List Action) :
    entries = [] ∨ (∃ e, entries = [e]) ∨
      1 < entries.length ∧ Action.cell? entries = some (.conflict entries) := by
  match entries with
  | [] => exact .inl rfl
  | [e] => exact .inr (.inl ⟨e, rfl⟩)
  | _ :: _ :: _ => exact .inr (.inr ⟨by simp, rfl⟩)

theorem Table.nodup_labels (tab : Table) {σ : Nat → Nat} {ρ : Symbol → Symbol}
    (hσ : Function.Injective σ) (hρ : Function.Injective ρ) :
    (tab.conflicts.map fun k => (σ k.state, ρ k.symbol, k.kind)).Nodup := by
  refine List.Nodup.of_map (fun l => (l.1, l.2.1)) ?_
  have cells := (nodup_conflicts tab).map (hσ.prodMap hρ)
  rw [List.map_map] at cells ⊢
  exact cells

namespace Renumbering

variable {r : Renumbering} {e f : Action} {es fs : List Action}

def action (r : Renumbering) : Action → Action
  | .shift s => .shift (r.state s)
  | .reduce n => .reduce (r.prod n)
  | .accept => .accept
  | .goto s => .goto (r.state s)
  | .conflict entries => .conflict (entries.map r.action)

theorem isReduction_action (e : Action) : (r.action e).isReduction = e.isReduction := by
  cases e <;> simp [action, Action.isReduction]

theorem symm_action (flat : ∀ es, e ≠ .conflict es) : r.symm.action (r.action e) = e := by
  cases e <;> simp_all [action]

theorem kind_eq (perm : fs.Perm (es.map r.action)) :
    ConflictKind.ofEntries fs = ConflictKind.ofEntries es := by
  have count : fs.countP Action.isReduction = es.countP Action.isReduction := by
    rw [perm.countP_eq, List.countP_map]
    exact List.countP_congr fun e _ => by rw [Function.comp_apply, isReduction_action]
  rw [ConflictKind.ofEntries, ConflictKind.ofEntries, count]

inductive Alike (r : Renumbering) : Option Action → Option Action → Prop
  | none : Alike r none none
  | single {e : Action} (flat : ∀ es, e ≠ .conflict es) : Alike r (some e) (some (r.action e))
  | conflict {es fs : List Action} (perm : fs.Perm (es.map r.action)) :
      Alike r (some (.conflict es)) (some (.conflict fs))

theorem alike_cell? (flat : ∀ e ∈ es, ∀ l, e ≠ .conflict l) (perm : fs.Perm (es.map r.action)) :
    r.Alike (Action.cell? es) (Action.cell? fs) := by
  have length : fs.length = es.length := by simpa using perm.length_eq
  obtain rfl | ⟨e, rfl⟩ | ⟨several, cell⟩ := Action.eq_nil_or_single_or_cell? es
  · rw [List.length_eq_zero_iff.1 length]
    exact .none
  · rw [List.perm_singleton.1 perm]
    exact .single (flat e List.mem_cons_self)
  · obtain rfl | ⟨f, rfl⟩ | ⟨_, cell'⟩ := Action.eq_nil_or_single_or_cell? fs
    · exact absurd (length ▸ several) (by simp)
    · exact absurd (length ▸ several) (by simp)
    · rw [cell, cell']
      exact .conflict perm

namespace Matches

variable {c d : Construction} {m n s t : Nat} (rel : r.Matches c.grammar d.grammar)
  (built : c.Built m) (built' : d.Built n)

include rel built built'

theorem follow_iff {a : Nat} : r.term t ∈ d.sets.follow (r.nonterm a) ↔ t ∈ c.sets.follow a := by
  rw [built.sets_eq, built'.sets_eq]
  exact rel.mem_follow_iff built.augmented.toWellFormed built'.augmented.toWellFormed

theorem transition_of_built (s : Nat) (x : Symbol) :
    d.automaton.transition (r.state s) (r.symbol x) =
      (c.automaton.transition s x).map r.state := by
  rw [built.automaton_eq, built'.automaton_eq]
  exact rel.transition_eq built.augmented built'.augmented s x

theorem states_of_built (s : Nat) :
    d.automaton.states[r.state s]? = c.automaton.states[s]?.map r.items := by
  rw [built.automaton_eq, built'.automaton_eq]
  exact rel.states s

theorem offers (offers : c.Offers s t e) : d.Offers (r.state s) (r.term t) (r.action e) := by
  have states := rel.states_of_built built built' s
  cases offers with
  | @shift j target =>
      have target' := rel.transition_of_built built built' s (.terminal t)
      rw [target, Option.map_some] at target'
      rw [action]
      exact .shift target'
  | @reduce q p set positive found state complete follow =>
      rw [state, Option.map_some] at states
      have positive' : r.prod q ≠ 0 := fun zero =>
        positive (r.prod.injective (zero.trans rel.first.symm))
      have found' : d.grammar.prod? (r.prod q) = some (r.production p) := by
        rw [rel.prods, found, Option.map_some]
      have complete' : (⟨r.prod q, (r.production p).rhs.length⟩ : Item) ∈ r.items set := by
        rw [mem_items, rhs_production, List.length_map]
        simpa [item] using complete
      rw [action]
      exact .reduce positive' found' states complete' ((rel.follow_iff built built').2 follow)
  | @accept set state complete eof =>
      rw [state, Option.map_some] at states
      have complete' : (⟨0, 1⟩ : Item) ∈ r.items set := by
        have zero : r.symm.prod 0 = 0 := rel.toRelates.symm.first
        rwa [mem_items, item, zero]
      rw [action, eof, rel.eof]
      exact .accept states complete' rfl

theorem exists_offers (offered : d.Offers (r.state s) (r.term t) f) :
    ∃ e, c.Offers s t e ∧ r.action e = f := by
  have back := rel.symm.offers built' built offered
  refine ⟨r.symm.action f, by simpa using back, ?_⟩
  exact symm_action (r := r.symm) offered.ne_conflict

theorem alike_terminal (s t : Nat) :
    r.Alike (c.table.lookup s (.terminal t))
      (d.table.lookup (r.state s) (.terminal (r.term t))) := by
  obtain ⟨es, nodup, flat, offered, cell⟩ := built.exists_entries s t
  obtain ⟨fs, nodup', _, offered', cell'⟩ := built'.exists_entries (r.state s) (r.term t)
  rw [cell, cell']
  refine alike_cell? flat ?_
  have nodup_map : (es.map r.action).Nodup := by
    refine nodup.map_on fun e he f hf same => ?_
    rw [← symm_action (flat e he), same, symm_action (flat f hf)]
  refine (List.perm_ext_iff_of_nodup nodup' nodup_map).2 fun f => ?_
  rw [offered', List.mem_map]
  apply Iff.intro
  · intro there
    obtain ⟨e, here, same⟩ := rel.exists_offers built built' there
    exact ⟨e, (offered e).2 here, same⟩
  · rintro ⟨e, he, rfl⟩
    exact rel.offers built built' ((offered e).1 he)

theorem alike_lookup (s : Nat) (x : Symbol) :
    r.Alike (c.table.lookup s x) (d.table.lookup (r.state s) (r.symbol x)) := by
  cases x with
  | terminal t => exact rel.alike_terminal built built' s t
  | nonterminal a =>
      have target := rel.transition_of_built built built' s (.nonterminal a)
      rw [symbol] at target ⊢
      rw [built.lookup_nonterminal, built'.lookup_nonterminal, target]
      cases c.automaton.transition s (.nonterminal a) with
      | none => exact .none
      | some j =>
          have entry : Action.goto (r.state j) = r.action (.goto j) := by rw [action]
          rw [Option.map_some, Option.map_some, Option.map_some, entry]
          exact .single fun _ => Action.noConfusion
  | empty => exact .none

theorem isSLR1_of_isSLR1 (single : c.isSLR1) : d.isSLR1 := by
  rw [built.isSLR1_iff_offers] at single
  rw [built'.isSLR1_iff_offers]
  intro s t e f first second
  have back := rel.symm.offers built' built first
  have back' := rel.symm.offers built' built second
  have same := single _ _ _ _ back back'
  rw [← symm_action (r := r.symm) first.ne_conflict, same,
    symm_action (r := r.symm) second.ne_conflict]

theorem isSLR1_eq : d.isSLR1 = c.isSLR1 :=
  Bool.eq_iff_iff.2
    ⟨rel.symm.isSLR1_of_isSLR1 built' built, rel.isSLR1_of_isSLR1 built built'⟩

theorem exists_conflict {k : Conflict} (hk : k ∈ c.conflicts) :
    ∃ l ∈ d.conflicts, l.state = r.state k.state ∧ l.symbol = r.symbol k.symbol ∧
      l.kind = k.kind := by
  obtain ⟨cell, kind⟩ := (Table.mem_conflicts_iff built.fits_table).1 hk
  have alike := rel.alike_lookup built built' k.state k.symbol
  rw [cell] at alike
  generalize there : d.table.lookup (r.state k.state) (r.symbol k.symbol) = found at alike
  cases alike with
  | single flat => exact absurd rfl (flat _)
  | @conflict _ fs perm =>
      refine ⟨⟨r.state k.state, r.symbol k.symbol, .ofEntries fs, fs⟩, ?_, rfl, rfl, ?_⟩
      · exact (Table.mem_conflicts_iff built'.fits_table).2 ⟨there, rfl⟩
      · rw [kind, kind_eq perm]

theorem conflicts_perm :
    (d.conflicts.map fun k => (k.state, k.symbol, k.kind)).Perm
      (c.conflicts.map fun k => (r.state k.state, r.symbol k.symbol, k.kind)) := by
  have nodup := Table.nodup_labels c.table r.state.injective (symbol_injective (r := r))
  have nodup' := Table.nodup_labels d.table Function.injective_id Function.injective_id
  refine (List.perm_ext_iff_of_nodup nodup' nodup).2 fun label => ?_
  rw [List.mem_map, List.mem_map]
  apply Iff.intro
  · rintro ⟨l, hl, rfl⟩
    obtain ⟨k, hk, state, symbol, kind⟩ := rel.symm.exists_conflict built' built hl
    exact ⟨k, hk, by simp [state, symbol, kind]⟩
  · rintro ⟨k, hk, rfl⟩
    obtain ⟨l, hl, state, symbol, kind⟩ := rel.exists_conflict built built' hk
    exact ⟨l, hl, by simp [state, symbol, kind]⟩

end Matches

end Renumbering

end ShiftReduce
