import ShiftReduce.Proofs.Automaton.Canonical
import ShiftReduce.Proofs.Automaton.Chain
import ShiftReduce.Proofs.Grammar.Renumbering

/-!
The canonical collection under other numbers. Other numbers of symbols change the order in which
states are discovered; but the same strings lead to the same item sets, so the states match
(`exists_states`) and the transitions with them (`transition_eq`).
-/

namespace ShiftReduce.Renumbering

open Automaton (ofGrammar)

variable {r : Renumbering} {g h : Grammar} {γ : List Symbol} {i : Item} {x : Symbol} {s j : Nat}

def items (r : Renumbering) (set : ItemSet) : ItemSet := .ofList (set.toList.map r.item)

theorem mem_items {set : ItemSet} : i ∈ r.items set ↔ r.symm.item i ∈ set := by
  rw [items, OrderedSet.mem_ofList, List.mem_map, OrderedSet.mem_def]
  apply Iff.intro
  · rintro ⟨j, hj, rfl⟩
    rwa [symm_item]
  · exact fun mem => ⟨_, mem, item_symm⟩

@[simp] theorem symm_items {set : ItemSet} : r.symm.items (r.items set) = set := by
  refine OrderedSet.eq_of_mem_iff fun i => ?_
  rw [mem_items, mem_items, symm_symm, symm_item]

theorem items_injective : Function.Injective r.items :=
  Function.LeftInverse.injective fun _ => symm_items

namespace Relates

variable (rel : r.Relates g h)

include rel

theorem valid (valid : Valid g γ i) : Valid h (γ.map r.symbol) (r.item i) := by
  induction valid with
  | start =>
      rw [item, rel.first]
      exact .start
  | @advance γ i x _ here ih =>
      have next : (r.item i).next? h = some (r.symbol x) := by rw [rel.next?, here, Option.map_some]
      rw [List.map_append]
      exact ih.advance next
  | @predict γ i n p _ await found ih =>
      have next : (r.item i).next? h = some (.nonterminal (r.production p).head) := by
        rw [rel.next?, await]
        rfl
      exact ih.predict next (by rw [rel.prods, found, Option.map_some])

theorem valid_iff : Valid h (γ.map r.symbol) (r.item i) ↔ Valid g γ i := by
  refine ⟨fun valid => ?_, rel.valid⟩
  simpa only [symm_map_symbol, symm_item] using rel.symm.valid valid

section

variable {m n : Nat} (aug : g.Augmented m) (aug' : h.Augmented n)

include aug aug'

theorem exists_state {set : ItemSet} (walk : (ofGrammar g).walk 0 γ = some s)
    (state : (ofGrammar g).states[s]? = some set) :
    ∃ j, (ofGrammar h).walk 0 (γ.map r.symbol) = some j ∧
      (ofGrammar h).states[j]? = some (r.items set) := by
  obtain ⟨i, valid⟩ := Automaton.exists_valid_of_walk aug.first walk
  obtain ⟨j, set', walk', state', _⟩ :=
    Automaton.reached_of_valid aug'.first aug'.toWellFormed (rel.valid valid)
  obtain ⟨_, here, members⟩ := Automaton.mem_iff_valid aug.first aug.toWellFormed walk
  obtain ⟨_, here', members'⟩ := Automaton.mem_iff_valid aug'.first aug'.toWellFormed walk'
  obtain rfl := Option.some.inj (state.symm.trans here)
  obtain rfl := Option.some.inj (state'.symm.trans here')
  have same : r.items set = set' := by
    refine OrderedSet.eq_of_mem_iff fun i => ?_
    rw [mem_items, members, members', ← rel.valid_iff, item_symm]
  exact ⟨j, walk', same ▸ state'⟩

theorem mem_states {set : ItemSet} (mem : set ∈ (ofGrammar g).states) :
    r.items set ∈ (ofGrammar h).states := by
  obtain ⟨s, state⟩ := List.getElem?_of_mem mem
  obtain ⟨γ, walk⟩ := Automaton.exists_walk aug.first state
  obtain ⟨j, _, state'⟩ := rel.exists_state aug aug' walk state
  exact List.mem_of_getElem? state'

theorem exists_states : ∃ σ : Nat ≃ Nat, σ 0 = 0 ∧
    ∀ s, (ofGrammar h).states[σ s]? = (ofGrammar g).states[s]?.map r.items := by
  have nodup : ((ofGrammar g).states.map r.items).Nodup :=
    (Automaton.nodup_states aug.first).map items_injective
  have nodup' := Automaton.nodup_states aug'.first
  have members : ∀ set, set ∈ (ofGrammar g).states.map r.items ↔ set ∈ (ofGrammar h).states := by
    intro set
    rw [List.mem_map]
    apply Iff.intro
    · rintro ⟨set, mem, rfl⟩
      exact rel.mem_states aug aug' mem
    · intro mem
      exact ⟨_, rel.symm.mem_states aug' aug mem, symm_items (r := r.symm)⟩
  refine ⟨matching nodup nodup' members, ?_, fun s => ?_⟩
  · have first := Automaton.states_zero aug.first
    obtain ⟨j, walk, state⟩ := rel.exists_state aug aug' (γ := []) rfl first
    cases walk
    refine matching_eq nodup nodup' members ?_ ?_
    · rw [List.length_map]
      exact (List.getElem?_eq_some_iff.1 first).1
    · rw [List.getElem?_map, first, state, Option.map_some]
  · rw [getElem?_matching, List.getElem?_map]

end

end Relates

structure Matches (r : Renumbering) (g h : Grammar) : Prop extends r.Relates g h where
  state_zero : r.state 0 = 0
  states : ∀ s, (ofGrammar h).states[r.state s]? = (ofGrammar g).states[s]?.map r.items

namespace Matches

variable (rel : r.Matches g h)

include rel

theorem symm : r.symm.Matches h g where
  toRelates := rel.toRelates.symm
  state_zero := by
    rw [symm_state, Equiv.symm_apply_eq]
    exact rel.state_zero.symm
  states s := by
    have there := rel.states (r.state.symm s)
    rw [Equiv.apply_symm_apply] at there
    rw [there, Option.map_map, symm_state]
    simp [Function.comp_def]

theorem length_states : (ofGrammar h).states.length = (ofGrammar g).states.length := by
  refine eq_of_lt_iff (e := r.state) fun s => ?_
  have beyond : (ofGrammar h).states[r.state s]? = none ↔ (ofGrammar g).states[s]? = none := by
    simp only [rel.states, Option.map_eq_none_iff]
  simpa using not_congr beyond

variable {m n : Nat} (aug : g.Augmented m) (aug' : h.Augmented n)

include aug aug'

theorem walk (walk : (ofGrammar g).walk 0 γ = some s) :
    (ofGrammar h).walk 0 (γ.map r.symbol) = some (r.state s) := by
  obtain ⟨set, state, _⟩ := Automaton.exists_state_of_walk aug.first walk
  obtain ⟨j, walk', state'⟩ := rel.exists_state aug aug' walk state
  have there := rel.states s
  rw [state, Option.map_some, ← state'] at there
  have bound := (List.getElem?_eq_some_iff.1 state').1
  rw [walk', (List.getElem?_inj bound (Automaton.nodup_states aug'.first)).1 there.symm]

theorem transition (target : (ofGrammar g).transition s x = some j) :
    (ofGrammar h).transition (r.state s) (r.symbol x) = some (r.state j) := by
  obtain ⟨set, state, _⟩ := Automaton.state_of_transition aug.first target
  obtain ⟨γ, walk⟩ := Automaton.exists_walk aug.first state
  have before := rel.walk aug aug' walk
  have longer : (ofGrammar g).walk 0 (γ ++ [x]) = some j := by
    rw [Automaton.walk_concat, walk, Option.bind_some, target]
  have after := rel.walk aug aug' longer
  rwa [List.map_append, List.map_cons, List.map_nil, Automaton.walk_concat, before,
    Option.bind_some] at after

theorem transition_eq (s : Nat) (x : Symbol) :
    (ofGrammar h).transition (r.state s) (r.symbol x) =
      ((ofGrammar g).transition s x).map r.state := by
  refine Option.ext fun j => ?_
  rw [Option.map_eq_some_iff]
  apply Iff.intro
  · intro target
    refine ⟨r.state.symm j, ?_, r.state.apply_symm_apply j⟩
    simpa using rel.symm.transition aug' aug target
  · rintro ⟨k, target, rfl⟩
    exact rel.transition aug aug' target

end Matches

end ShiftReduce.Renumbering
