import ReachingWrites.FlowGraph.Instruction
import ReachingWrites.Table

/-!
# Classes and the fields they declare

A reference names a class and a field, but the field may be declared further up. `ClassTable.resolve`
looks for the nearest class that declares it, from the class named upwards. Two references denote the
same field if they resolve to the same declaration.

The classes looked at form a `lineage`. It ends at a class without a superclass, at a superclass that
the table does not know, and before a class that it holds already; so it holds every class once and
is finite even where superclasses go round in a circle.
-/

set_option autoImplicit false

namespace ReachingWrites

/-- A field by its declaration. -/
structure DeclaredField where
  className : String
  name : String
  deriving DecidableEq, Inhabited

instance : Describe DeclaredField :=
  ⟨fun d => Text.record "DeclaredField"
    [("class", describe d.className), ("name", describe d.name)]⟩

/-- What a table knows of a class. -/
structure ClassEntry where
  superclass : Option String := none
  /-- The fields that the class declares, each once. -/
  fields : List String := []
  deriving DecidableEq, Inhabited

def ClassEntry.declares (c : ClassEntry) (field : String) : Bool := decide (field ∈ c.fields)

/-- The classes known, by name. -/
structure ClassTable where
  classes : Table String ClassEntry := {}
  deriving DecidableEq, Inhabited

namespace ClassTable

/-- Makes a class known and sets its superclass. Its declared fields stay. -/
def addClass (t : ClassTable) (name : String) (superclass : Option String) : ClassTable :=
  ⟨t.classes.alter name fun known => { known.getD {} with superclass }⟩

/-- Declares a field on a class, which becomes known if it is not. Its superclass stays. -/
def declareField (t : ClassTable) (className field : String) : ClassTable :=
  ⟨t.classes.alter className fun known =>
    let c := known.getD {}
    if c.declares field then c else { c with fields := c.fields ++ [field] }⟩

/-- A class and those above it, as far as they are among the given ones, each with what is known of
it. A class that has been met is no longer given. -/
def ascend (given : Table String ClassEntry) (name : String) : List (String × ClassEntry) :=
  match _known : given.find? name with
  | none => []
  | some c =>
    (name, c) :: match c.superclass with
      | none => []
      | some above => ascend (given.erase name) above
termination_by given.size
decreasing_by exact Table.size_erase_lt _known

def lineage (t : ClassTable) (name : String) : List (String × ClassEntry) := ascend t.classes name

/-- The declaration that a reference denotes: the nearest one upwards from the class it names. -/
def resolve (t : ClassTable) (r : FieldRef) : Option DeclaredField :=
  ((t.lineage r.className).find? fun known => known.2.declares r.name).map
    fun known => ⟨known.1, r.name⟩

end ClassTable

end ReachingWrites
