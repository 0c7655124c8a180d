import ReachingWrites.BitSet.Basic
import ReachingWrites.Text.Describe

/-!
# Going through a bit set

A `Cursor` yields the members of a set one at a time and in ascending order. It holds what is left
to yield: the rest of the current word, where that word starts, and the words after it. A cursor is
a value, so going on from a kept one yields the same members again.
-/

set_option autoImplicit false

namespace ReachingWrites

namespace BitSet

/-- A place in a bit set: everything below it has been yielded. A cursor at the end of the
set stays as it is. -/
structure Cursor where
  /-- The bits of the current word that are still to come. -/
  current : Word
  /-- The index of the current word's lowest bit. -/
  base : Nat
  rest : List Word
  deriving DecidableEq

def cursor (s : BitSet) : Cursor :=
  match s.words.toList with
  | [] => ⟨0, 0, []⟩
  | w :: rest => ⟨w, 0, rest⟩

namespace Cursor

/-- Yields the lowest bit of the current word, or looks for it in the words that follow. -/
def advance (current : Word) (base : Nat) : List Word → Option Nat × Cursor
  | [] =>
    if current ≠ 0 then (some (base + current.lowest), ⟨current.dropLowest, base, []⟩)
    else (none, ⟨0, base, []⟩)
  | w :: rest =>
    if current ≠ 0 then (some (base + current.lowest), ⟨current.dropLowest, base, w :: rest⟩)
    else advance w (base + Word.bits) rest

/-- The next member, if there is one, and the cursor after it. A cursor that has yielded `none`
yields nothing more. -/
def next (c : Cursor) : Option Nat × Cursor := advance c.current c.base c.rest

def remaining (c : Cursor) : Nat := Word.populations (c.current :: c.rest)

/-- The results of the next `n` steps, and the cursor after them. -/
def steps (c : Cursor) : Nat → List (Option Nat) × Cursor
  | 0 => ([], c)
  | n + 1 =>
    let step := c.next
    let later := step.2.steps n
    (step.1 :: later.1, later.2)

/-- The members still to come, in the order in which the cursor yields them. -/
def toList (c : Cursor) : List Nat := (c.steps c.remaining).1.filterMap id

end Cursor

def toList (s : BitSet) : List Nat := s.cursor.toList

def memberTexts (s : BitSet) : List String := s.toList.map toString

instance : Describe BitSet := ⟨fun s => Text.set s.memberTexts⟩

/-- The structural text over several lines. -/
def describeLines (s : BitSet) : String := Text.setLines s.memberTexts

end BitSet

end ReachingWrites
