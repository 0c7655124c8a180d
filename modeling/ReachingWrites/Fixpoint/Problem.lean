import ReachingWrites.Failure
import ReachingWrites.FlowGraph.Predecessors
import ReachingWrites.FlowLattice
import ReachingWrites.Fixpoint.Worklist

/-!
# Dataflow problems

A problem asks for two values at each node of a graph: the one that enters it, which joins what
leaves its predecessors, and the one that leaves it, which its transfer makes of the first. Everything
starts from `bottom`.

A transfer has a memory, which it may read and change, so that what it answers may depend on the
questions before. A transfer without memory has `Unit` for it.
-/

set_option autoImplicit false

namespace ReachingWrites

/-- A dataflow problem over values `α` on a graph with instructions `ι`, for a transfer with the
memory `τ`. -/
structure Problem (ι α τ : Type) where
  graph : FlowGraph ι
  /-- Where control comes from, normally the predecessors in the graph. -/
  predecessors : Predecessors
  /-- The value at every place before the first visit, and where no predecessor is. -/
  bottom : α
  transfer : τ → NodeId → α → α × τ

namespace Problem

variable {ι α τ : Type}

/-- The problem of a transfer without memory. -/
def stateless (graph : FlowGraph ι) (predecessors : Predecessors) (bottom : α)
    (transfer : NodeId → α → α) : Problem ι α Unit where
  graph
  predecessors
  bottom
  transfer memory node value := (transfer node value, memory)

/-- What enters a node: the join of what leaves its predecessors, in their order, above `bottom`. -/
def inValue [FlowLattice α] (p : Problem ι α τ) (outs : Array α) (node : NodeId) : α :=
  (p.predecessors.of node).foldl
    (fun value source => match outs[source]? with
      | some out => FlowLattice.join value out
      | none => value)
    p.bottom

end Problem

structure SolveOptions where
  order : VisitOrder := .forward
  /-- Whether to fail when a value that leaves a node does not grow. -/
  checkMonotone : Bool := true
  deriving DecidableEq, Inhabited

/-- How much work a solve was. -/
structure Summary where
  visits : Nat := 0
  /-- How often a value that leaves a node changed. -/
  updates : Nat := 0
  deriving DecidableEq, Inhabited

/-- The values at the nodes when no node is left to visit. -/
structure Solution (α : Type) where
  ins : Array α
  outs : Array α
  summary : Summary
  deriving DecidableEq

end ReachingWrites
