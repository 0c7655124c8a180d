import ReachingWrites.Failure

/-!
# Predecessors

A solve reads the values at the nodes from which control may come. `Predecessors.ofGraph` turns the
edges of a graph around: it goes through them by source and enters each source with its target. So
every list is ascending and names a node once, however often an edge is repeated.
-/

set_option autoImplicit false

namespace ReachingWrites

/-- For each node of a graph, the nodes with an edge to it. -/
structure Predecessors where
  /-- The list of node `n` stands at place `n`. -/
  lists : Array (List NodeId)
  deriving DecidableEq, Inhabited

namespace Predecessors

def size (p : Predecessors) : Nat := p.lists.size

def isEmpty (p : Predecessors) : Bool := p.lists.isEmpty

/-- The nodes with an edge to a node; none for a node that has no list. -/
def of (p : Predecessors) (n : NodeId) : List NodeId := p.lists.getD n []

def empty (count : Nat) : Predecessors := ⟨Array.replicate count []⟩

/-- Enters the source of an edge with its target, unless it is there. An edge to a node without a
list is refused. -/
def enter (p : Predecessors) (edge : NodeId × NodeId) : Except AnalysisFailure Predecessors :=
  if edge.2 < p.size then
    .ok ⟨p.lists.modify edge.2 fun sources =>
      if edge.1 ∈ sources then sources else sources ++ [edge.1]⟩
  else .error (.malformedGraph edge.1 edge.2)

/-- The predecessors in a graph. Fails at the first edge that leaves the graph. -/
def ofGraph {ι : Type} (g : FlowGraph ι) : Except AnalysisFailure Predecessors :=
  g.edges.foldlM enter (empty g.nodeCount)

instance : Describe Predecessors :=
  ⟨fun p => Text.record "Predecessors"
    [("preds", Text.sequence (p.lists.toList.map fun sources =>
      Text.sequence (sources.map NodeId.describe)))]⟩

end Predecessors

end ReachingWrites
