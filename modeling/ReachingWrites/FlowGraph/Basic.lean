import ReachingWrites.Text.Describe

/-!
# Control-flow graphs

A graph is a row of blocks. A block has instructions, run from first to last, and the blocks that
control may pass to next. Blocks are numbered by their place in the row, so a graph of `n` blocks has
the nodes `0` to `n - 1`.

An edge may name a node that the graph does not have, for it may be added later; whoever needs all
edges to end in the graph checks that. A node that the graph does not have has no instructions and no
successors.
-/

set_option autoImplicit false

namespace ReachingWrites

/-- A node of a graph, by its place. Places are not bounded, so every node has one, however many nodes
there are. -/
abbrev NodeId := Nat

namespace NodeId

/-- A node as listings and messages name it. -/
def label (n : NodeId) : String := s!"bb{n}"

def describe (n : NodeId) : String := Text.tuple "NodeId" [toString n]

end NodeId

/-- The instructions of a node, and the nodes that control may pass to after them. -/
structure Block (ι : Type) where
  instructions : List ι
  /-- The targets of the edges out of the block, in the order in which they were added. -/
  successors : List NodeId := []
  deriving DecidableEq

structure FlowGraph (ι : Type) where
  /-- The blocks; the place of a block is its node. -/
  blocks : Array (Block ι) := #[]
  deriving DecidableEq

namespace FlowGraph

variable {ι : Type}

def nodeCount (g : FlowGraph ι) : Nat := g.blocks.size

def nodes (g : FlowGraph ι) : List NodeId := List.range g.nodeCount

/-- The nodes that control may pass to after a node. -/
def successors (g : FlowGraph ι) (n : NodeId) : List NodeId :=
  match g.blocks[n]? with
  | some block => block.successors
  | none => []

def instructions (g : FlowGraph ι) (n : NodeId) : List ι :=
  match g.blocks[n]? with
  | some block => block.instructions
  | none => []

/-- The edges by source, and for one source in the order of its successors. An edge stands as often
as the successors repeat its target. -/
def edges (g : FlowGraph ι) : List (NodeId × NodeId) :=
  g.nodes.flatMap fun source => (g.successors source).map fun target => (source, target)

/-! ## Building a graph -/

/-- Appends a block without successors. Its node is the node count before. -/
def addBlock (g : FlowGraph ι) (instructions : List ι) : FlowGraph ι :=
  { blocks := g.blocks.push { instructions } }

/-- Appends a target to the successors of a node, even one that is there already. -/
def appendSuccessor (g : FlowGraph ι) (source target : NodeId) : FlowGraph ι :=
  { blocks := g.blocks.modify source fun block =>
      { block with successors := block.successors ++ [target] } }

/-- Adds an edge; one that is there already is not added again. Fails if the graph does not have
the source. -/
def addEdge? (g : FlowGraph ι) (source target : NodeId) : Option (FlowGraph ι) :=
  if source < g.nodeCount then
    if target ∈ g.successors source then some g else some (g.appendSuccessor source target)
  else none

def ofBlocks (blocks : List (List ι)) : FlowGraph ι := blocks.foldl addBlock {}

end FlowGraph

end ReachingWrites
