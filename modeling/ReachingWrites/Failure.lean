import ReachingWrites.FlowGraph.Instruction

/-!
# What can go wrong

A solve fails in three ways, and an analysis in these and three more, which show while it is
prepared. Each failure is a cause with the values that name it; its message and its structural text
are written from them.
-/

set_option autoImplicit false

namespace ReachingWrites

/-- Why a solve has no solution. -/
inductive SolveFailure where
  | cancelled
  /-- The transfer of a node gave a value that is not above the one before. -/
  | nonMonotone (node : NodeId)
  /-- The predecessor lists are for a graph with another number of nodes. -/
  | predecessorMismatch (nodes predecessors : Nat)
  deriving DecidableEq, Inhabited

namespace SolveFailure

def message : SolveFailure → String
  | .cancelled => "solve cancelled"
  | .nonMonotone node => s!"non-monotone transfer at {node.label}"
  | .predecessorMismatch nodes predecessors =>
    s!"predecessor lists cover {predecessors} nodes, graph has {nodes}"

instance : Describe SolveFailure where
  describe
    | .cancelled => "Cancelled"
    | .nonMonotone node => Text.record "NonMonotone" [("node", node.describe)]
    | .predecessorMismatch nodes predecessors =>
      Text.record "PredecessorMismatch"
        [("nodes", toString nodes), ("predecessors", toString predecessors)]

end SolveFailure

/-- Why an analysis has no result. -/
inductive AnalysisFailure where
  /-- A static write names a field that does not resolve; the reference stands in its structural
  text. -/
  | unresolvedField (node : NodeId) (position : Position) (reference : String)
  /-- An edge leads to a node that the graph does not have. -/
  | malformedGraph (node successor : NodeId)
  /-- A static write stands at the position of an earlier one, so that the position would no longer
  tell which write is meant. -/
  | duplicatePosition (node : NodeId) (position : Position)
  /-- The predecessor lists are for a graph with another number of nodes. -/
  | predecessorMismatch (nodes predecessors : Nat)
  | cancelled
  /-- The transfer of a node gave a value that is not above the one before. -/
  | nonMonotone (node : NodeId)
  deriving DecidableEq, Inhabited

namespace AnalysisFailure

def message : AnalysisFailure → String
  | .unresolvedField node position reference =>
    s!"unresolved static field: field={reference} node={node.label} pos={position.label}"
  | .malformedGraph node successor =>
    s!"malformed cfg: edge from {node.label} to missing node {successor.label}"
  | .duplicatePosition node position =>
    s!"duplicate static write position: node={node.label} pos={position.label}"
  | .predecessorMismatch nodes predecessors =>
    s!"predecessor lists cover {predecessors} nodes, graph has {nodes}"
  | .cancelled => "analysis cancelled"
  | .nonMonotone node => s!"non-monotone transfer function at {node.label}"

instance : Describe AnalysisFailure where
  describe
    | .unresolvedField node position reference =>
      Text.record "UnresolvedField"
        [("node", node.describe), ("pos", describe position), ("field", describe reference)]
    | .malformedGraph node successor =>
      Text.record "MalformedCfg" [("node", node.describe), ("successor", successor.describe)]
    | .duplicatePosition node position =>
      Text.record "DuplicatePosition" [("node", node.describe), ("pos", describe position)]
    | .predecessorMismatch nodes predecessors =>
      Text.record "PredecessorMismatch"
        [("nodes", toString nodes), ("predecessors", toString predecessors)]
    | .cancelled => "Cancelled"
    | .nonMonotone node => Text.record "NonMonotone" [("node", node.describe)]

/-- The failure of an analysis whose solve failed. -/
def ofSolve : SolveFailure → AnalysisFailure
  | .cancelled => .cancelled
  | .nonMonotone node => .nonMonotone node
  | .predecessorMismatch nodes predecessors => .predecessorMismatch nodes predecessors

end AnalysisFailure

end ReachingWrites
