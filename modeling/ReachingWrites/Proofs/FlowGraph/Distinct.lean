import ReachingWrites.Proofs.FlowGraph.Predecessors
import ReachingWrites.Proofs.Repeats

/-!
# Repeated successors

The successors of a node may name a node more than once. `distinct` keeps of each list the first
occurrences. It is what is built when the same edges are added one by one: in that, an edge that is
there already is not added again, and only the order of the edges of one source matters, not how the
edges of different sources are mixed.

The predecessors of a graph are the same with repetitions and without, and so is the edge that is
reported if some edges leave the graph.
-/

set_option autoImplicit false

namespace ReachingWrites

variable {ι : Type}

namespace FlowGraph

private theorem getElem_blocks {g : FlowGraph ι} {n : NodeId} (hn : n < g.blocks.size) :
    g.blocks[n] = ⟨g.instructions n, g.successors n⟩ := by
  simp only [instructions, successors, Array.getElem?_eq_getElem hn]

/-- Graphs with the same nodes are the same if all nodes have the same instructions and successors. -/
private theorem eq_of_nodes {g g' : FlowGraph ι} (hcount : g.nodeCount = g'.nodeCount)
    (hinstructions : ∀ n < g.nodeCount, g.instructions n = g'.instructions n)
    (hsuccessors : ∀ n < g.nodeCount, g.successors n = g'.successors n) : g = g' := by
  have hblocks : g.blocks = g'.blocks := by
    refine Array.ext hcount fun n hn hn' => ?_
    rw [getElem_blocks hn, getElem_blocks hn', hinstructions n hn, hsuccessors n hn]
  cases g
  cases g'
  exact congrArg FlowGraph.mk hblocks

/-- The graph in which each node names its successors once, in the order in which they come first. -/
def distinct (g : FlowGraph ι) : FlowGraph ι where
  blocks := g.blocks.map fun block => { block with successors := block.successors.eraseDups }

/-- Dropping repeated successors keeps the nodes. -/
@[simp] theorem nodeCount_distinct (g : FlowGraph ι) : g.distinct.nodeCount = g.nodeCount :=
  Array.size_map

/-- Dropping repeated successors keeps the instructions. -/
theorem instructions_distinct (g : FlowGraph ι) (n : NodeId) :
    g.distinct.instructions n = g.instructions n := by
  unfold instructions distinct
  rw [Array.getElem?_map]
  cases g.blocks[n]? with
  | none => rfl
  | some block => rfl

/-- Each node keeps the first occurrences of its successors. -/
theorem successors_distinct (g : FlowGraph ι) (n : NodeId) :
    g.distinct.successors n = (g.successors n).eraseDups := by
  unfold successors distinct
  rw [Array.getElem?_map]
  cases g.blocks[n]? with
  | none => rfl
  | some block => rfl

/-! ## Adding the edges one by one -/

/-- Adds edges in order, each even if it is there already. -/
def appendEdges (g : FlowGraph ι) (edges : List (NodeId × NodeId)) : FlowGraph ι :=
  edges.foldl (fun built e => built.appendSuccessor e.1 e.2) g

/-- Adds edges in order; one that is there already is not added again. -/
def addEdges? (g : FlowGraph ι) (edges : List (NodeId × NodeId)) : Option (FlowGraph ι) :=
  edges.foldlM (fun built e => built.addEdge? e.1 e.2) g

/-- Adding an edge to a node of the graph makes its target the last successor, unless it is one. -/
private theorem exists_addEdge? {g : FlowGraph ι} {source : NodeId} (hs : source < g.nodeCount)
    (target : NodeId) : ∃ built, g.addEdge? source target = some built ∧
      built.nodeCount = g.nodeCount ∧ (∀ n, built.instructions n = g.instructions n) ∧
      ∀ n, built.successors n = if source = n ∧ target ∉ g.successors n then
        g.successors n ++ [target] else g.successors n := by
  unfold addEdge?
  rw [if_pos hs]
  by_cases ht : target ∈ g.successors source
  · rw [if_pos ht]
    refine ⟨g, rfl, rfl, fun _ => rfl, fun n => ?_⟩
    rw [if_neg]
    intro h
    obtain ⟨rfl, hnot⟩ := h
    exact hnot ht
  · rw [if_neg ht]
    refine ⟨_, rfl, g.nodeCount_appendSuccessor source target,
      g.instructions_appendSuccessor source target, fun n => ?_⟩
    rw [successors_appendSuccessor]
    by_cases hn : source = n
    · subst hn
      rw [if_pos ⟨rfl, hs⟩, if_pos ⟨rfl, ht⟩]
    · rw [if_neg fun h => hn h.1, if_neg fun h => hn h.1]

/-- Adding an edge after the repetitions have been taken away is as good as before. -/
theorem addEdge?_distinct {g : FlowGraph ι} {source : NodeId} (hs : source < g.nodeCount)
    (target : NodeId) :
    g.distinct.addEdge? source target = some (g.appendSuccessor source target).distinct := by
  rw [← nodeCount_distinct] at hs
  obtain ⟨built, hbuilt, hcount, hinstructions, hsuccessors⟩ := exists_addEdge? hs target
  rw [nodeCount_distinct] at hs hcount
  rw [hbuilt]
  refine congrArg some (eq_of_nodes ?_ (fun n _ => ?_) fun n _ => ?_)
  · rw [hcount, nodeCount_distinct, nodeCount_appendSuccessor]
  · rw [hinstructions, instructions_distinct, instructions_distinct, instructions_appendSuccessor]
  · rw [hsuccessors, successors_distinct, successors_distinct, successors_appendSuccessor]
    by_cases hn : source = n
    · subst hn
      simp only [true_and, hs, if_true, eraseDups_concat, List.mem_eraseDups, ite_not]
    · simp only [hn, false_and, if_false]

/-- Adding edges, none twice, to a graph without repeated successors is adding them all and dropping the
repetitions afterwards. -/
theorem addEdges?_distinct {edges : List (NodeId × NodeId)} {g : FlowGraph ι}
    (h : ∀ e ∈ edges, e.1 < g.nodeCount) :
    g.distinct.addEdges? edges = some (g.appendEdges edges).distinct := by
  induction edges generalizing g with
  | nil => rfl
  | cons e edges ih =>
    obtain ⟨hfirst, hrest⟩ := List.forall_mem_cons.mp h
    rw [addEdges?, List.foldlM_cons, addEdge?_distinct hfirst]
    exact ih fun e' he' => by
      rw [nodeCount_appendSuccessor]
      exact hrest e' he'

section Append

variable (g : FlowGraph ι) (edges : List (NodeId × NodeId))

private theorem nodeCount_appendEdges : (g.appendEdges edges).nodeCount = g.nodeCount := by
  induction edges generalizing g with
  | nil => rfl
  | cons e edges ih => exact (ih _).trans (g.nodeCount_appendSuccessor e.1 e.2)

private theorem instructions_appendEdges (n : NodeId) :
    (g.appendEdges edges).instructions n = g.instructions n := by
  induction edges generalizing g with
  | nil => rfl
  | cons e edges ih => exact (ih _).trans (g.instructions_appendSuccessor e.1 e.2 n)

/-- The targets that are appended come after the old ones of their source, in the order of the edges. -/
theorem successors_appendEdges {n : NodeId} (hn : n < g.nodeCount) :
    (g.appendEdges edges).successors n =
      g.successors n ++ (edges.filter (·.1 = n)).map Prod.snd := by
  induction edges generalizing g with
  | nil => simp [appendEdges]
  | cons e edges ih =>
    rw [← g.nodeCount_appendSuccessor e.1 e.2] at hn
    refine (ih _ hn).trans ?_
    rw [nodeCount_appendSuccessor] at hn
    rw [successors_appendSuccessor]
    by_cases he : e.1 = n
    · simp [he, hn]
    · simp [he]

end Append

/-! ### From the blocks to the graph -/

/-- The blocks of a graph, added one after the other, before there are edges. -/
def bare (g : FlowGraph ι) : FlowGraph ι := ofBlocks (g.nodes.map g.instructions)

private theorem blocks_foldl_addBlock (rows : List (List ι)) (g : FlowGraph ι) :
    (rows.foldl addBlock g).blocks.toList = g.blocks.toList ++ rows.map fun row => ⟨row, []⟩ := by
  induction rows generalizing g with
  | nil => simp
  | cons row rows ih =>
    rw [List.foldl_cons, ih]
    simp [addBlock]

private theorem blocks_bare (g : FlowGraph ι) :
    g.bare.blocks.toList = g.nodes.map fun n => ⟨g.instructions n, []⟩ := by
  rw [bare, ofBlocks, blocks_foldl_addBlock]
  simp

/-- The graph without edges has the same nodes. -/
@[simp] theorem nodeCount_bare (g : FlowGraph ι) : g.bare.nodeCount = g.nodeCount := by
  rw [nodeCount, ← Array.length_toList, blocks_bare, List.length_map, nodes, List.length_range]

private theorem getElem?_blocks_bare (g : FlowGraph ι) {n : NodeId} (hn : n < g.nodeCount) :
    g.bare.blocks[n]? = some ⟨g.instructions n, []⟩ := by
  rw [← Array.getElem?_toList, blocks_bare, List.getElem?_map, nodes, List.getElem?_range hn,
    Option.map_some]

private theorem instructions_bare (g : FlowGraph ι) {n : NodeId} (hn : n < g.nodeCount) :
    g.bare.instructions n = g.instructions n := by
  rw [instructions, g.getElem?_blocks_bare hn]

private theorem successors_bare (g : FlowGraph ι) {n : NodeId} (hn : n < g.nodeCount) :
    g.bare.successors n = [] := by
  rw [successors, g.getElem?_blocks_bare hn]

/-- Edges are those of a graph with all repetitions: those of one source stand in the order of its
successors, and those of different sources may be mixed in any way. -/
def ListedBy (g : FlowGraph ι) (edges : List (NodeId × NodeId)) : Prop :=
  ∀ n, (edges.filter (·.1 = n)).map Prod.snd = g.successors n

section Listed

variable {g : FlowGraph ι} {edges : List (NodeId × NodeId)} (h : g.ListedBy edges)
include h

private theorem ListedBy.source_lt {e : NodeId × NodeId} (he : e ∈ edges) : e.1 < g.nodeCount := by
  have hmem : e.2 ∈ g.successors e.1 := by
    rw [← h]
    exact List.mem_map_of_mem (List.mem_filter.mpr ⟨he, decide_eq_true rfl⟩)
  exact lt_nodeCount_of_mem_successors hmem

/-- A graph is what comes of its blocks when its edges are appended. -/
theorem ListedBy.appendEdges_bare : g.bare.appendEdges edges = g := by
  have hcount : (g.bare.appendEdges edges).nodeCount = g.nodeCount := by
    rw [nodeCount_appendEdges, nodeCount_bare]
  refine eq_of_nodes hcount (fun n hn => ?_) fun n hn => ?_
  · rw [hcount] at hn
    rw [instructions_appendEdges, instructions_bare g hn]
  · rw [hcount] at hn
    rw [successors_appendEdges _ _ (g.nodeCount_bare.symm ▸ hn), successors_bare g hn, h n,
      List.nil_append]

/-- A graph without its repetitions is what comes of its blocks when its edges are added. -/
theorem ListedBy.addEdges?_bare : g.bare.addEdges? edges = some g.distinct := by
  have hbare : g.bare.distinct = g.bare := by
    refine eq_of_nodes (nodeCount_distinct _) (fun n _ => instructions_distinct _ n) fun n hn => ?_
    rw [nodeCount_distinct, nodeCount_bare] at hn
    rw [successors_distinct, successors_bare g hn, List.eraseDups_nil]
  have hsources : ∀ e ∈ edges, e.1 < g.bare.nodeCount := fun e he =>
    g.nodeCount_bare.symm ▸ h.source_lt he
  rw [← hbare, addEdges?_distinct hsources, h.appendEdges_bare]

end Listed

/-! ## Predecessors -/

/-- Without repetitions, each edge is listed once, where it comes first. -/
theorem edges_distinct (g : FlowGraph ι) : g.distinct.edges = g.edges.eraseDups := by
  have hsources (sources : List NodeId) (hnodup : sources.Nodup) :
      (sources.flatMap fun source => (g.successors source).map (Prod.mk source)).eraseDups =
        sources.flatMap fun source => (g.distinct.successors source).map (Prod.mk source) := by
    induction sources with
    | nil => rfl
    | cons source sources ih =>
      obtain ⟨hnot, hnodup⟩ := List.nodup_cons.mp hnodup
      rw [List.flatMap_cons, List.flatMap_cons, eraseDups_append_of_disjoint, ih hnodup,
        eraseDups_map (Prod.mk_right_injective source), successors_distinct]
      -- the edges of other sources are others
      intro e he he'
      obtain ⟨_, -, rfl⟩ := List.mem_map.mp he'
      obtain ⟨other, hother, he⟩ := List.mem_flatMap.mp he
      obtain ⟨_, -, heq⟩ := List.mem_map.mp he
      exact hnot ((Prod.mk.inj heq).1 ▸ hother)
  have hall := hsources (List.range g.nodeCount) List.nodup_range
  rw [edges, edges, nodes, nodes, nodeCount_distinct]
  exact hall.symm

end FlowGraph

namespace Predecessors

private theorem absorbs_enter : Absorbs enter fun ps e => e.1 ∈ ps.of e.2 where
  done {ps entered e} h := by
    obtain ⟨-, -, hmem⟩ := enter_eq_ok h
    exact (hmem e.1 e.2).mpr (.inr rfl)
  kept {ps entered e e'} he h := by
    obtain ⟨-, -, hmem⟩ := enter_eq_ok h
    exact (hmem e.1 e.2).mpr (.inl he)
  skip := enter_of_mem

/-- The predecessors are the same without repetitions, and so is the edge that is reported. -/
theorem ofGraph_distinct (g : FlowGraph ι) : ofGraph g.distinct = ofGraph g := by
  rw [ofGraph, ofGraph, g.edges_distinct, g.nodeCount_distinct, absorbs_enter.foldlM_eraseDups]

end Predecessors

end ReachingWrites
