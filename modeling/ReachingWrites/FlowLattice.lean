import ReachingWrites.BitSet.Basic

/-!
# Values that flow

A solve works on values with a join, for what comes together at a node, and an order, for what may
only grow. The solver asks nothing else of them; which laws they keep is for those who need a law.

Whether a value has changed is whether it is another value: equality is that of the values themselves,
and no notion of its own that could take different values for the same.
-/

set_option autoImplicit false

namespace ReachingWrites

/-- Values with a join and an order. -/
class FlowLattice (α : Type) where
  /-- What holds where both values arrive. -/
  join : α → α → α
  /-- Whether the first value is below the second one or equal to it. -/
  leq : α → α → Bool

/-- Bit sets under union and inclusion. -/
instance : FlowLattice BitSet := ⟨BitSet.union, BitSet.isSubset⟩

/-- Numbers under the greater of two. -/
instance : FlowLattice Nat := ⟨max, fun a b => decide (a ≤ b)⟩

end ReachingWrites
