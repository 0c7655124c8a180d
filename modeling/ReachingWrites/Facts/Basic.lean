import ReachingWrites.BitSet.Cursor
import ReachingWrites.FlowGraph.Instruction
import ReachingWrites.Ordinals
import ReachingWrites.Table

/-!
# Facts

The analysis follows the static writes of a procedure. Each write is a fact with an index, and sets
of writes are bit sets over the indices. `Facts` holds the writes by index, the index of each
position, and for each field the set of all writes of it.
-/

set_option autoImplicit false

namespace ReachingWrites

/-- A static write whose field has been resolved to `F`. -/
structure StaticWrite (F : Type) where
  node : NodeId
  position : Position
  field : F
  deriving DecidableEq, Inhabited

/-- The numbered static writes of a procedure. -/
structure Facts (F : Type) where
  positions : Ordinals Position := {}
  writes : Array (StaticWrite F) := #[]
  /-- For each field that is written, the indices of its writes. -/
  killIndex : Table F BitSet := {}
  deriving DecidableEq, Inhabited

namespace Facts

variable {F : Type}

def size (f : Facts F) : Nat := f.writes.size

def isEmpty (f : Facts F) : Bool := f.writes.isEmpty

def write? (f : Facts F) (i : Nat) : Option (StaticWrite F) := f.writes[i]?

def fieldCount (f : Facts F) : Nat := f.killIndex.size

/-- The writes of a field, wherever they are; nothing for a field that is not written. -/
def writesOf? [DecidableEq F] (f : Facts F) (field : F) : Option BitSet := f.killIndex.find? field

end Facts

instance {F : Type} [Describe F] : Describe (StaticWrite F) :=
  ⟨fun w => Text.record "StaticWrite"
    [("node", w.node.describe), ("pos", describe w.position), ("field", describe w.field)]⟩

instance {F : Type} [Describe F] : Describe (Facts F) :=
  ⟨fun f => Text.record "StaticWriteFacts"
    [("positions", describe f.positions),
     ("writes", Text.sequence (f.writes.toList.map describe)),
     ("kill_index", Text.map (f.killIndex.entries.map fun e => (describe e.1, describe e.2)))]⟩

end ReachingWrites
