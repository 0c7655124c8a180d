import ReachingWrites.BitSet.Cursor

/-!
# Transfers

What a piece of straight-line code does to the set of facts that reach it: it takes some away and
then adds some. Code that does neither is the identity, which is kept apart.
-/

set_option autoImplicit false

namespace ReachingWrites

/-- A function on sets of facts. -/
inductive Transfer where
  | identity
  /-- Takes the facts of `kill` away, then adds those of `gen`. -/
  | killGen (kill gen : BitSet)
  deriving DecidableEq, Inhabited

namespace Transfer

/-- The set that leaves the code, from the one that enters it. -/
def apply : Transfer → BitSet → BitSet
  | identity, s => s
  | killGen kill gen, s => (s.diff kill).union gen

/-- The transfer of one piece of code followed by another. What the second one kills of the first
one's facts is gone, and it kills what the first one does too. -/
def andThen : Transfer → Transfer → Transfer
  | first, identity => first
  | identity, second => second
  | killGen kill gen, killGen kill' gen' => killGen (kill.union kill') ((gen.diff kill').union gen')

def isIdentity : Transfer → Bool
  | identity => true
  | killGen _ _ => false

instance : Describe Transfer where
  describe
    | identity => "Identity"
    | killGen kill gen => Text.record "KillGen" [("kill_set", describe kill), ("gen_set", describe gen)]

end Transfer

end ReachingWrites
