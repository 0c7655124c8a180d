/-!
# Words of sixty-four bits

A bit set keeps its members sixty-four to a word. This module names what the set needs of one word:
its bits, how many are set, the lowest of them, and the word without it.
-/

set_option autoImplicit false

namespace ReachingWrites

/-- Sixty-four bits; bit `0` is the lowest. -/
abbrev Word := UInt64

namespace Word

def bits : Nat := 64

/-- Whether a bit is set. No word has a bit at or above `bits`. -/
def hasBit (w : Word) (b : Nat) : Bool := w.toNat.testBit b

/-- The word with one bit, for a bit below `bits`. -/
def single (b : Nat) : Word := 1 <<< b.toUInt64

def population (w : Word) : Nat := (List.range bits).countP w.hasBit

def populations : List Word → Nat
  | [] => 0
  | w :: rest => population w + populations rest

/-- The lowest bit that is set; `bits` if none is. -/
def lowest (w : Word) : Nat := ((List.range bits).find? w.hasBit).getD bits

/-- The word without its lowest set bit: taking one away clears that bit and sets only bits
below it, where the word itself has none. -/
def dropLowest (w : Word) : Word := w &&& (w - 1)

end Word

end ReachingWrites
