import ReachingWrites.Facts.Basic
import ReachingWrites.Transfer.Basic

/-!
# The transfers of blocks

A static write kills every write of its field, itself included, and generates itself. The transfer
of a block is that of its writes one after another. Writes are numbered node by node and in program
order, so going through the facts by index meets the writes of each block in their order.
-/

set_option autoImplicit false

namespace ReachingWrites

structure BlockTransfers where
  /-- The transfer of node `n` stands at place `n`. -/
  perNode : Array Transfer
  deriving DecidableEq, Inhabited

/-- The transfer of the write of an index alone. -/
def Facts.transferOf {F : Type} [DecidableEq F] (f : Facts F) (write : StaticWrite F) (i : Nat) :
    Transfer :=
  .killGen ((f.writesOf? write.field).getD (BitSet.empty f.size)) (BitSet.ofIndices f.size [i])

namespace BlockTransfers

/-- Lets a transfer follow the one of a node. A node out of range has none. -/
def append (t : BlockTransfers) (node : NodeId) (next : Transfer) : BlockTransfers :=
  ⟨t.perNode.modify node fun transfer => transfer.andThen next⟩

def identities (count : Nat) : BlockTransfers := ⟨Array.replicate count .identity⟩

/-- The transfers of a number of nodes under numbered writes. Writes of other nodes are passed
over. -/
def ofFacts {F : Type} [DecidableEq F] (count : Nat) (f : Facts F) : BlockTransfers :=
  f.writes.toList.zipIdx.foldl
    (fun t (write, i) => t.append write.node (f.transferOf write i)) (identities count)

/-- The transfer of a node; the identity for a node out of range. -/
def of (t : BlockTransfers) (n : NodeId) : Transfer := t.perNode.getD n .identity

/-- Whether facts change along edges too. They change only in blocks. -/
def changesEdges (_ : BlockTransfers) : Bool := false

instance : Describe BlockTransfers :=
  ⟨fun t => Text.record "StaticWriteTransfers"
    [("per_node", Text.sequence (t.perNode.toList.map describe))]⟩

end BlockTransfers

end ReachingWrites
