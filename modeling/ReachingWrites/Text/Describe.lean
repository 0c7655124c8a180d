import ReachingWrites.Text.Quoted

/-!
# Structural text

Diagnostics show a value by its structure: the name of its kind and its parts, on one line. This
module holds the few shapes that such texts are built from, and the class of the values that have
one.
-/

set_option autoImplicit false

namespace ReachingWrites

/-- Values that a diagnostic can show by their structure. -/
class Describe (α : Type) where
  describe : α → String

export Describe (describe)

namespace Text

/-- Texts in a row, with a comma and a blank between two of them. -/
def commaList (items : List String) : String := ", ".intercalate items

/-- A named value with positional parts, such as `InstrPos(3)`. -/
def tuple (name : String) (parts : List String) : String := s!"{name}({commaList parts})"

/-- The labelled parts of a record, in the order given. -/
def labelled (fields : List (String × String)) : String :=
  commaList (fields.map fun field => field.1 ++ ": " ++ field.2)

def record (name : String) (fields : List (String × String)) : String :=
  s!"{name} \x7b {labelled fields} \x7d"

/-- A named value that shows some of its labelled parts and says that there are more. -/
def openRecord (name : String) (fields : List (String × String)) : String :=
  s!"{name} \x7b {labelled fields}, .. \x7d"

def sequence (items : List String) : String := s!"[{commaList items}]"

def set (items : List String) : String := s!"\x7b{commaList items}\x7d"

/-- A map, between braces, each key before its value. -/
def map (entries : List (String × String)) : String := s!"\x7b{labelled entries}\x7d"

/-- A set over several lines: each member on a line of its own, indented by four blanks and
followed by a comma. The empty set stays on one line. -/
def setLines (items : List String) : String :=
  if items.isEmpty then "\x7b\x7d"
  else "\x7b\n" ++ String.join (items.map fun item => "    " ++ item ++ ",\n") ++ "\x7d"

end Text

instance : Describe String := ⟨Text.quoted⟩

end ReachingWrites
