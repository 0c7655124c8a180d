import ReachingWrites.BitSet.Word

/-!
# Bit sets over a fixed universe

A `BitSet` is a set of indices below its `bound`, kept as bits in as many words as the bound needs.
The bound is chosen when the set is made and no operation changes it.

Two views of a set differ above its bound. `contains`, `insert` and `erase` know only the indices
below it. `union`, `diff` and the subset test work on whole words, so a union with a set of a larger
bound brings over every bit of the words that both have, those between the bound and the end of the
last word too; such bits count as members for the cursor, for `count`, for `isEmpty` and for
equality. `i ∈ s` means that bit `i` is set.
-/

set_option autoImplicit false

namespace ReachingWrites

/-- A set of indices below `bound`, as bits in words. -/
structure BitSet where
  bound : Nat
  /-- Word `k` holds the indices from `64 * k`. -/
  words : Array Word
  deriving DecidableEq, Inhabited

namespace BitSet

/-- How many words the indices below a bound need. -/
def wordCount (bound : Nat) : Nat := (bound + (Word.bits - 1)) / Word.bits

def empty (bound : Nat) : BitSet := ⟨bound, Array.replicate (wordCount bound) 0⟩

/-- A word of the set; past the last one every bit is clear. -/
def word (s : BitSet) (k : Nat) : Word := s.words.getD k 0

/-- Whether the bit of an index is set, below the bound or above it. -/
def hasBit (s : BitSet) (i : Nat) : Bool := (s.word (i / Word.bits)).hasBit (i % Word.bits)

instance : Membership Nat BitSet := ⟨fun s i => s.hasBit i = true⟩

instance (i : Nat) (s : BitSet) : Decidable (i ∈ s) := inferInstanceAs (Decidable (s.hasBit i = true))

/-! ## One index -/

/-- Whether an index below the bound is a member. No other index ever is. -/
def contains (s : BitSet) (i : Nat) : Bool := decide (i < s.bound) && s.hasBit i

/-- Adds an index below the bound; any other index is ignored. -/
def insert (s : BitSet) (i : Nat) : BitSet :=
  if i < s.bound then
    { s with words := s.words.modify (i / Word.bits) (· ||| Word.single (i % Word.bits)) }
  else s

/-- Removes an index below the bound; any other index is ignored. -/
def erase (s : BitSet) (i : Nat) : BitSet :=
  if i < s.bound then
    { s with words := s.words.modify (i / Word.bits) (· &&& ~~~Word.single (i % Word.bits)) }
  else s

/-- Whether `insert` would make an index a new member. -/
def admits (s : BitSet) (i : Nat) : Bool := decide (i < s.bound) && !s.contains i

/-- Adds an index and tells whether it is new. -/
def insertNew (s : BitSet) (i : Nat) : BitSet × Bool := (s.insert i, s.admits i)

/-- Removes an index and tells whether it was a member. -/
def eraseOld (s : BitSet) (i : Nat) : BitSet × Bool := (s.erase i, s.contains i)

/-- The set of the given indices, in any order and with repetitions; those not below the bound
are left out. -/
def ofIndices (bound : Nat) (indices : List Nat) : BitSet :=
  indices.foldl insert (empty bound)

/-! ## Whole sets -/

def count (s : BitSet) : Nat := Word.populations s.words.toList

def isEmpty (s : BitSet) : Bool := s.words.toList.all (· == 0)

/-- The members of either set, as far as the words of the first one reach. -/
def union (s t : BitSet) : BitSet :=
  { s with words := s.words.mapIdx fun k w => w ||| t.word k }

/-- The members of the first set that the second one does not have. -/
def diff (s t : BitSet) : BitSet :=
  { s with words := s.words.mapIdx fun k w => w &&& ~~~t.word k }

/-- Whether some word of the first set gains a bit from the second one. -/
def gains (s t : BitSet) : Bool :=
  s.words.toList.zipIdx.any fun (w, k) => w ||| t.word k != w

/-- The union, and whether it has more than the first set. -/
def unionGrown (s t : BitSet) : BitSet × Bool := (s.union t, s.gains t)

/-- Whether every bit of the first set is set in the second one. -/
def isSubset (s t : BitSet) : Bool :=
  s.words.toList.zipIdx.all fun (w, k) => w &&& ~~~t.word k == 0

end BitSet

end ReachingWrites
