import ShiftReduce.Proofs.Text.Rereading
import ShiftReduce.Proofs.Grammar.Spelling
import ShiftReduce.Proofs.Automaton.Accessing
import ShiftReduce.Proofs.Table.Cells

/-!
The diagram is a copy of the automaton. States keep their order and transitions become one edge
each: names tell the symbols of a kind apart, and the kind of an edge says which kind that is
(`eq_of_key_eq`). One state accepts, so there is one edge to the node for it (`copies_ofText`).
-/

namespace ShiftReduce

/-- What no two edges share. -/
def Edge.key (e : Edge) : String × String × EdgeKind := (e.source, e.label, e.kind)

namespace Diagram

variable {g : Grammar} {a : Automaton} {items : ItemSet} {r s i j : Nat} {x y : Symbol} {e : Edge}

theorem stateId_injective : Function.Injective stateId := by
  intro r s same
  exact Text.toString_injective ((String.append_right_inj "I").1 same)

theorem stateId_ne_acceptId (s : Nat) : stateId s ≠ acceptId := by
  intro same
  have chars := congrArg String.toList same
  simp [stateId, acceptId] at chars

theorem node?_of_mem {d : Diagram} {n : Node} (nodup : (d.nodes.map Node.id).Nodup)
    (mem : n ∈ d.nodes) : d.node? n.id = some n := by
  obtain ⟨m, found⟩ : ∃ m, d.nodes.find? (fun m => m.id == n.id) = some m :=
    Option.isSome_iff_exists.1 (List.find?_isSome.2 ⟨n, mem, beq_self_eq_true n.id⟩)
  have same : m.id = n.id := by simpa using List.find?_some found
  rw [node?, found, List.inj_on_of_nodup_map nodup (List.mem_of_find?_eq_some found) mem same]

theorem ids_ofAutomaton (accepting : a.states.any Automaton.accepts) :
    (ofAutomaton g a).nodes.map Node.id = (List.range a.size).map stateId ++ [acceptId] := by
  have numbers : a.states.zipIdx.map Prod.snd = List.range a.size := by
    rw [List.zipIdx_map_snd, Automaton.size, List.range_eq_range']
  rw [ofAutomaton, if_pos accepting, List.map_append, List.map_map, ← numbers, List.map_map]
  rfl

theorem nodup_ids (size : Nat) : ((List.range size).map stateId ++ [acceptId]).Nodup := by
  refine List.nodup_append.2 ⟨List.nodup_range.map stateId_injective, by simp, ?_⟩
  intro id hid other hother
  obtain ⟨s, _, rfl⟩ := List.mem_map.1 hid
  rw [List.mem_singleton.1 hother]
  exact stateId_ne_acceptId s

theorem mem_nodes_iff {n : Node} : n ∈ (ofAutomaton g a).nodes ↔
    (∃ s items, a.states[s]? = some items ∧ n = stateNode g items s) ∨
      a.states.any Automaton.accepts ∧ n = ⟨acceptId, ["accept"]⟩ := by
  rw [ofAutomaton, List.mem_append, List.mem_map, List.mem_ite_nil_right, List.mem_singleton]
  refine or_congr_left ?_
  simp only [Prod.exists, List.mem_zipIdx_iff_getElem?, eq_comm]
  exact exists_comm

def acceptEdge (s : Nat) : Edge := ⟨stateId s, acceptId, Grammar.endSpelling, .accept⟩

theorem stateEdges_eq : stateEdges g a items s =
    (a.transitions s).map (fun (x, j) => transitionEdge g s x j) ++
      if Automaton.accepts items then [acceptEdge s] else [] := by
  rw [stateEdges, Grammar.termName_eof]
  rfl

theorem mem_stateEdges_iff : e ∈ stateEdges g a items s ↔
    (∃ x j, (x, j) ∈ a.transitions s ∧ e = transitionEdge g s x j) ∨
      ⟨0, 1⟩ ∈ items ∧ e = acceptEdge s := by
  rw [stateEdges_eq, List.mem_append, List.mem_map, List.mem_ite_nil_right, List.mem_singleton,
    Automaton.accepts, decide_eq_true_eq]
  refine or_congr_left ?_
  simp only [Prod.exists, eq_comm]

theorem source_of_mem_stateEdges (mem : e ∈ stateEdges g a items s) : e.source = stateId s := by
  rcases mem_stateEdges_iff.1 mem with ⟨_, _, _, rfl⟩ | ⟨_, rfl⟩ <;> rfl

theorem eq_of_key_eq (hx : x ∈ g.symbols) (hy : y ∈ g.symbols)
    (same : (transitionEdge g r x i).key = (transitionEdge g s y j).key) : r = s ∧ x = y := by
  simp only [Edge.key, transitionEdge, Prod.mk.injEq] at same
  obtain ⟨sources, labels, kinds⟩ := same
  refine ⟨stateId_injective sources, ?_⟩
  obtain ⟨b, hb, rfl⟩ | ⟨t, ht, rfl⟩ := Grammar.mem_symbols.1 hx
  · obtain ⟨d, hd, rfl⟩ | ⟨u, _, rfl⟩ := Grammar.mem_symbols.1 hy
    · rw [Grammar.nontermName_inj hb hd labels]
    · cases kinds
  · obtain ⟨d, _, rfl⟩ | ⟨u, hu, rfl⟩ := Grammar.mem_symbols.1 hy
    · cases kinds
    · rw [Grammar.termName_inj ht hu labels]

theorem acceptEdge_key_ne (r s : Nat) (x : Symbol) (j : Nat) :
    (transitionEdge g s x j).key ≠ (acceptEdge r).key := by
  intro same
  have kinds : (transitionEdge g s x j).kind = .accept := congrArg (fun key => key.2.2) same
  cases x <;> cases kinds

theorem nodup_keys_stateEdges (increasing : Automaton.Increasing (a.transitions s))
    (known : ∀ x j, (x, j) ∈ a.transitions s → x ∈ g.symbols) :
    ((stateEdges g a items s).map Edge.key).Nodup := by
  have apart :
      (((a.transitions s).map fun (x, j) => transitionEdge g s x j).map Edge.key).Nodup := by
    rw [List.nodup_iff_pairwise_ne, List.map_map, List.pairwise_map]
    refine increasing.imp_of_mem fun {e f} he hf lt same => ?_
    have symbols := (eq_of_key_eq (known _ _ he) (known _ _ hf) same).2
    rw [symbols] at lt
    exact StrictOrder.irrefl _ lt
  rw [stateEdges_eq, List.map_append, List.nodup_append]
  refine ⟨apart, by split <;> simp, fun key hkey other hother => ?_⟩
  obtain ⟨_, mem, rfl⟩ := List.mem_map.1 hkey
  obtain ⟨⟨x, j⟩, _, rfl⟩ := List.mem_map.1 mem
  obtain ⟨_, last, rfl⟩ := List.mem_map.1 hother
  rw [List.mem_singleton.1 (List.mem_ite_nil_right.1 last).2]
  exact acceptEdge_key_ne s s x j

end Diagram

namespace Construction

open Diagram (stateId acceptId transitionEdge acceptEdge)

variable {c : Construction} {start s j : Nat} {x : Symbol} {e : Edge}

/-- States and transitions can be read off the diagram; the right-hand side of production 0 is the
symbol numbered `start`. -/
structure Copies (c : Construction) (start : Nat) : Prop where
  ids_eq : c.diagram.nodes.map Node.id =
    (List.range c.automaton.size).map stateId ++ [acceptId]
  nodup_ids : (c.diagram.nodes.map Node.id).Nodup
  node?_state : ∀ s items, c.automaton.states[s]? = some items →
    c.diagram.node? (stateId s) = some ⟨stateId s, items.toList.map (Item.text c.grammar)⟩
  node?_accept : c.diagram.node? acceptId = some ⟨acceptId, ["accept"]⟩
  goto_iff : ∀ s j a, a < c.grammar.nonterms.size →
    (c.automaton.transition s (.nonterminal a) = some j ↔
      c.diagram.edges.count ⟨stateId s, stateId j, c.grammar.nontermName a, .goto⟩ = 1)
  shift_iff : ∀ s j t, t < c.grammar.terms.size →
    (c.automaton.transition s (.terminal t) = some j ↔
      c.diagram.edges.count ⟨stateId s, stateId j, c.grammar.termName t, .shift⟩ = 1)
  mem_edges_iff : ∀ e, e ∈ c.diagram.edges ↔
    (∃ s x j, c.automaton.transition s x = some j ∧ e = transitionEdge c.grammar s x j) ∨
      ∃ j, c.automaton.transition 0 (.nonterminal start) = some j ∧ e = acceptEdge j
  nodup_keys : (c.diagram.edges.map Edge.key).Nodup
  accepting : ∃ j, c.automaton.transition 0 (.nonterminal start) = some j ∧
    c.diagram.edges.filter (fun e => e.kind = .accept) = [⟨stateId j, acceptId, "$", .accept⟩]

namespace Built

variable (built : c.Built start)

include built

theorem mem_symbols_of_transition (target : c.automaton.transition s x = some j) :
    x ∈ c.grammar.symbols := by
  obtain ⟨_, _, i, _, next⟩ := built.exists_next_of_transition target
  exact Item.next?_mem_symbols built.augmented.toWellFormed next

theorem mem_transitions_iff :
    (x, j) ∈ c.automaton.transitions s ↔ c.automaton.transition s x = some j := by
  obtain ⟨p, first⟩ := built.exists_first
  rw [built.automaton_eq]
  exact Automaton.mem_transitions_iff first

theorem mem_edges_iff : e ∈ c.diagram.edges ↔
    (∃ s x j, c.automaton.transition s x = some j ∧ e = transitionEdge c.grammar s x j) ∨
      ∃ j, c.automaton.transition 0 (.nonterminal start) = some j ∧ e = acceptEdge j := by
  simp only [diagram, Diagram.ofAutomaton, List.mem_flatMap, Prod.exists,
    List.mem_zipIdx_iff_getElem?, Diagram.mem_stateEdges_iff, built.mem_transitions_iff]
  apply Iff.intro
  · rintro ⟨items, s, state, ⟨x, j, target, rfl⟩ | ⟨complete, rfl⟩⟩
    · exact .inl ⟨s, x, j, target, rfl⟩
    · exact .inr ⟨s, (built.accepting_mem_iff state).1 complete, rfl⟩
  · rintro (⟨s, x, j, target, rfl⟩ | ⟨j, target, rfl⟩)
    · obtain ⟨items, state, _⟩ := built.exists_next_of_transition target
      exact ⟨items, s, state, .inl ⟨x, j, target, rfl⟩⟩
    · obtain ⟨k, items, over_start, state, complete⟩ := built.exists_accepting
      obtain rfl : j = k := Option.some.inj (target.symm.trans over_start)
      exact ⟨items, j, state, .inr ⟨complete, rfl⟩⟩

theorem nodup_keys : (c.diagram.edges.map Edge.key).Nodup := by
  have increasing : ∀ s, Automaton.Increasing (c.automaton.transitions s) := by
    obtain ⟨p, first⟩ := built.exists_first
    rw [built.automaton_eq]
    exact Automaton.increasing_transitions first
  have numbers : c.automaton.states.zipIdx.Pairwise fun a b => a.2 ≠ b.2 := by
    apply List.pairwise_map.1
    rw [List.zipIdx_map_snd]
    exact List.nodup_range'
  rw [diagram, Diagram.ofAutomaton, List.map_flatMap, List.nodup_flatMap]
  refine ⟨fun entry _ => Diagram.nodup_keys_stateEdges (increasing entry.2) fun x j mem => ?_,
    numbers.imp fun apart => List.disjoint_left.2 fun key hkey hother => apart ?_⟩
  · exact built.mem_symbols_of_transition (built.mem_transitions_iff.1 mem)
  · obtain ⟨e, he, rfl⟩ := List.mem_map.1 hkey
    obtain ⟨f, hf, same⟩ := List.mem_map.1 hother
    have sources : f.source = e.source := congrArg Prod.fst same
    rw [Diagram.source_of_mem_stateEdges hf, Diagram.source_of_mem_stateEdges he] at sources
    exact (Diagram.stateId_injective sources).symm

theorem count_transitionEdge (hx : x ∈ c.grammar.symbols) :
    c.automaton.transition s x = some j ↔
      c.diagram.edges.count (transitionEdge c.grammar s x j) = 1 := by
  have nodup : c.diagram.edges.Nodup := built.nodup_keys.of_map
  apply Iff.intro
  · intro target
    exact List.count_eq_one_of_mem nodup (built.mem_edges_iff.2 (.inl ⟨s, x, j, target, rfl⟩))
  · intro single
    have mem : transitionEdge c.grammar s x j ∈ c.diagram.edges :=
      List.count_pos_iff.1 (single ▸ Nat.zero_lt_one)
    rcases built.mem_edges_iff.1 mem with ⟨r, y, k, target, same⟩ | ⟨k, _, same⟩
    · have hy := built.mem_symbols_of_transition target
      obtain ⟨rfl, rfl⟩ := Diagram.eq_of_key_eq hx hy (congrArg Edge.key same)
      obtain rfl : j = k := Diagram.stateId_injective (congrArg Edge.target same)
      exact target
    · exact absurd (congrArg Edge.key same) (Diagram.acceptEdge_key_ne k s x j)

theorem filter_accept_edges (target : c.automaton.transition 0 (.nonterminal start) = some j) :
    c.diagram.edges.filter (fun e => e.kind = .accept) = [acceptEdge j] := by
  have nodup : c.diagram.edges.Nodup := built.nodup_keys.of_map
  refine List.perm_singleton.1
    ((List.perm_ext_iff_of_nodup (nodup.filter _) (List.nodup_singleton _)).2 fun e => ?_)
  rw [List.mem_filter, built.mem_edges_iff, List.mem_singleton, decide_eq_true_eq]
  apply Iff.intro
  · rintro ⟨⟨s, x, k, _, rfl⟩ | ⟨k, over_start, rfl⟩, kind⟩
    · cases x <;> cases kind
    · rw [Option.some.inj (over_start.symm.trans target)]
  · rintro rfl
    exact ⟨.inr ⟨j, target, rfl⟩, rfl⟩

theorem any_accepts : c.automaton.states.any Automaton.accepts := by
  obtain ⟨j, items, _, state, complete⟩ := built.exists_accepting
  exact List.any_eq_true.2 ⟨items, List.mem_of_getElem? state, decide_eq_true complete⟩

theorem ids_diagram : c.diagram.nodes.map Node.id =
    (List.range c.automaton.size).map stateId ++ [acceptId] :=
  Diagram.ids_ofAutomaton built.any_accepts

theorem toCopies : c.Copies start := by
  have nodup : (c.diagram.nodes.map Node.id).Nodup := by
    rw [built.ids_diagram]
    exact Diagram.nodup_ids _
  exact {
    ids_eq := built.ids_diagram
    nodup_ids := nodup
    node?_state := fun s items state =>
      Diagram.node?_of_mem nodup (Diagram.mem_nodes_iff.2 (.inl ⟨s, items, state, rfl⟩))
    node?_accept :=
      Diagram.node?_of_mem nodup (Diagram.mem_nodes_iff.2 (.inr ⟨built.any_accepts, rfl⟩))
    goto_iff := fun s j a known =>
      built.count_transitionEdge (Grammar.mem_symbols.2 (.inl ⟨a, known, rfl⟩))
    shift_iff := fun s j t known =>
      built.count_transitionEdge (Grammar.mem_symbols.2 (.inr ⟨t, known, rfl⟩))
    mem_edges_iff := fun e => built.mem_edges_iff
    nodup_keys := built.nodup_keys
    accepting := by
      obtain ⟨j, _, target, _⟩ := built.exists_accepting
      exact ⟨j, target, built.filter_accept_edges target⟩ }

end Built

theorem copies_ofText {text : String} {g : Grammar} (read : Grammar.ofText text = .ok g)
    (built : ofText text = .ok c) : c.Copies (g.start + 1) := by
  rw [eq_ofGrammar read built]
  exact (built_ofGrammar (Grammar.plain_of_ofText read)).toCopies

/-- One terminal is spelled like the end marker and one like the new start symbol. -/
def lookalikes : Grammar where
  nonterms := .ofList ["S"]
  terms := .ofList ["$", "S'"]
  start := 0
  prods := #[⟨0, [.nonterminal 0, .terminal 0]⟩, ⟨0, [.terminal 1]⟩]
  augmented := false

theorem read_lookalikes : Grammar.ofText "S -> S $ | S'" = .ok lookalikes := by
  decide +kernel

/-- Two edges leave the state that accepts under one label. -/
theorem copies_lookalikes : (ofGrammar lookalikes).Copies 1 ∧
    (ofGrammar lookalikes).diagram.edges = [
      ⟨"I0", "I1", "S", .goto⟩, ⟨"I0", "I2", "S'", .shift⟩,
      ⟨"I1", "I3", "$", .shift⟩, ⟨"I1", "acc", "$", .accept⟩] :=
  ⟨copies_ofText read_lookalikes (ofText_of_read read_lookalikes), by decide +kernel⟩

end Construction

end ShiftReduce
