import ReachingWrites.FlowGraph.Basic

/-!
# Worklists

The nodes that a solve still has to visit, first come, first served. A node waits at most once: a
row of marks says which nodes are waiting, and a node that is waiting already is not put in again.
-/

set_option autoImplicit false

namespace ReachingWrites

/-- The order in which all nodes are put in at the start. -/
inductive VisitOrder where
  | forward
  | reverse
  deriving DecidableEq, Inhabited

def VisitOrder.arrange (order : VisitOrder) (count : Nat) : List NodeId :=
  match order with
  | .forward => List.range count
  | .reverse => (List.range count).reverse

/-- Nodes in a queue, with a mark for each that is waiting. -/
structure Worklist where
  /-- The nodes that wait, the next one first. -/
  pending : List NodeId
  /-- For each node of the graph, whether it waits. -/
  queued : Array Bool
  deriving DecidableEq, Inhabited

namespace Worklist

def seed (order : VisitOrder) (count : Nat) : Worklist :=
  ⟨order.arrange count, Array.replicate count true⟩

/-- Takes the next node out, if one waits. -/
def pop? (w : Worklist) : Option (NodeId × Worklist) :=
  match w.pending with
  | [] => none
  | node :: rest => some (node, ⟨rest, w.queued.setIfInBounds node false⟩)

/-- Puts a node at the end, unless it waits already or is no node of the graph. -/
def push (w : Worklist) (node : NodeId) : Worklist :=
  match w.queued[node]? with
  | some false => ⟨w.pending ++ [node], w.queued.setIfInBounds node true⟩
  | _ => w

def pushAll (w : Worklist) (nodes : List NodeId) : Worklist := nodes.foldl push w

end Worklist

end ReachingWrites
