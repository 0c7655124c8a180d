import Mathlib.Algebra.BigOperators.Group.Finset.Basic
import Mathlib.Algebra.Order.BigOperators.Group.Finset
import ReachingWrites.FlowGraph.Basic

/-!
# The edges and the instructions of a graph

An edge is listed as often as the successors of its source repeat it. What a solve does along the
edges depends on the distinct ones only, so they are counted here, by source. The instructions are
listed node by node.
-/

set_option autoImplicit false

namespace ReachingWrites

variable {ι : Type}

namespace FlowGraph

/-- A node beyond the last one has no successors. -/
theorem lt_nodeCount_of_mem_successors {g : FlowGraph ι} {source target : NodeId}
    (h : target ∈ g.successors source) : source < g.nodeCount := by
  unfold successors at h
  split at h
  next block hb =>
    obtain ⟨hlt, -⟩ := Array.getElem?_eq_some_iff.mp hb
    exact hlt
  next => cases h

/-- The edges are the pairs of a node and one of its successors. -/
theorem mem_edges {g : FlowGraph ι} {source target : NodeId} :
    (source, target) ∈ g.edges ↔ target ∈ g.successors source := by
  simp only [edges, nodes, List.mem_flatMap, List.mem_range, List.mem_map, Prod.mk.injEq]
  constructor
  · intro h
    obtain ⟨_, _, _, hm, rfl, rfl⟩ := h
    exact hm
  · intro hm
    exact ⟨source, lt_nodeCount_of_mem_successors hm, target, hm, rfl, rfl⟩

/-- The edges are listed by source. -/
theorem pairwise_edges (g : FlowGraph ι) : g.edges.Pairwise fun e e' => e.1 ≤ e'.1 := by
  rw [edges, List.pairwise_flatMap]
  constructor
  · intro source _
    rw [List.pairwise_map]
    exact List.pairwise_of_forall fun _ _ => Nat.le_refl source
  · refine List.pairwise_lt_range.imp fun hlt e he e' he' => ?_
    obtain ⟨_, -, rfl⟩ := List.mem_map.mp he
    obtain ⟨_, -, rfl⟩ := List.mem_map.mp he'
    exact Nat.le_of_lt hlt

/-! ## Adding an edge -/

section Append

variable (g : FlowGraph ι) (source target n : NodeId)

/-- An added successor makes no new node. -/
@[simp] theorem nodeCount_appendSuccessor :
    (g.appendSuccessor source target).nodeCount = g.nodeCount :=
  Array.size_modify

/-- An added successor keeps the instructions. -/
theorem instructions_appendSuccessor :
    (g.appendSuccessor source target).instructions n = g.instructions n := by
  unfold instructions appendSuccessor
  rw [Array.getElem?_modify]
  by_cases hs : source = n
  · rw [if_pos hs]
    cases g.blocks[n]? with
    | none => rfl
    | some block => rfl
  · rw [if_neg hs]

/-- The added successor comes last at its source, if that is in the graph, and nowhere else. -/
theorem successors_appendSuccessor : (g.appendSuccessor source target).successors n =
    if source = n ∧ n < g.nodeCount then g.successors n ++ [target] else g.successors n := by
  unfold successors appendSuccessor
  rw [Array.getElem?_modify]
  by_cases hn : n < g.nodeCount
  · have hblock : g.blocks[n]? = some g.blocks[n] := Array.getElem?_eq_getElem hn
    by_cases hs : source = n
    · simp [hblock, hs, hn]
    · simp [hblock, hs]
  · have hblock : g.blocks[n]? = none := Array.getElem?_eq_none (Nat.le_of_not_lt hn)
    simp [hblock, hn]

end Append

/-- The instructions of all nodes, one node after the other. -/
def allInstructions (g : FlowGraph ι) : List ι := g.nodes.flatMap g.instructions

/-! ## Distinct edges -/

/-- The number of distinct nodes of the graph that control may pass to after a node. -/
def outDegree (g : FlowGraph ι) (node : NodeId) : Nat :=
  ((g.successors node).toFinset.filter (· < g.nodeCount)).card

/-- The number of distinct edges that end in the graph. -/
def edgeCount (g : FlowGraph ι) : Nat := ∑ node ∈ Finset.range g.nodeCount, g.outDegree node

/-- The out-degrees together count the distinct edges, but for those that leave the graph. -/
theorem edgeCount_eq (g : FlowGraph ι) :
    g.edgeCount = (g.edges.toFinset.filter (·.2 < g.nodeCount)).card := by
  have hsource : ∀ e ∈ g.edges.toFinset.filter (·.2 < g.nodeCount),
      e.1 ∈ Finset.range g.nodeCount := by
    intro e he
    rw [Finset.mem_filter, List.mem_toFinset] at he
    exact Finset.mem_range.mpr (lt_nodeCount_of_mem_successors (mem_edges.mp he.1))
  rw [edgeCount, Finset.card_eq_sum_card_fiberwise hsource]
  refine Finset.sum_congr rfl fun node _ => ?_
  -- the edges of one source are told apart by their targets
  refine Finset.card_bij (fun target _ => (node, target)) ?_ ?_ ?_
  · intro target ht
    rw [Finset.mem_filter, List.mem_toFinset] at ht
    rw [Finset.mem_filter, Finset.mem_filter, List.mem_toFinset]
    exact ⟨⟨mem_edges.mpr ht.1, ht.2⟩, rfl⟩
  · intro _ _ _ _ he
    exact (Prod.mk.inj he).2
  · intro e he
    obtain ⟨source, target⟩ := e
    rw [Finset.mem_filter, Finset.mem_filter, List.mem_toFinset] at he
    obtain ⟨⟨hmem, hlt⟩, rfl⟩ := he
    refine ⟨target, ?_, rfl⟩
    rw [Finset.mem_filter, List.mem_toFinset]
    exact ⟨mem_edges.mp hmem, hlt⟩

/-- The edges that are counted are some of the distinct ones. -/
theorem edgeCount_le_card (g : FlowGraph ι) : g.edgeCount ≤ g.edges.toFinset.card := by
  rw [edgeCount_eq]
  exact Finset.card_filter_le _ _

/-- The edges that are counted are no more than those that are listed. -/
theorem edgeCount_le_length (g : FlowGraph ι) : g.edgeCount ≤ g.edges.length :=
  g.edgeCount_le_card.trans (List.toFinset_card_le g.edges)

end FlowGraph

end ReachingWrites
