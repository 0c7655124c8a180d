import ReachingWrites.FlowGraph.Basic

/-!
# Instructions

The analysis asks two things of an instruction: its position in the procedure, and the static field
that it writes, if it writes one. `Instruction` is the class of the types that answer. `Instr` is a
small such type of its own, for procedures that need no more than accesses to fields.
-/

set_option autoImplicit false

namespace ReachingWrites

/-- The place of an instruction in its procedure, given by whoever made the procedure. -/
structure Position where
  number : Nat
  deriving DecidableEq, Inhabited

namespace Position

def label (p : Position) : String := s!"@{p.number}"

instance : Describe Position := ⟨fun p => Text.tuple "InstrPos" [toString p.number]⟩

end Position

/-- Instructions that may write a static field, with references `ρ` to fields. -/
class Instruction (ι : Type) (ρ : outParam Type) where
  position : ι → Position
  /-- The field that the instruction writes, as it names it, if it writes a static field. -/
  staticWrite? : ι → Option ρ

/-! ## References to fields -/

/-- A field as an instruction names it: by the class at the access and its own name. The class need
not be the one that declares the field. -/
structure FieldRef where
  className : String
  name : String
  deriving DecidableEq, Inhabited

namespace FieldRef

def label (r : FieldRef) : String := s!"{r.className}.{r.name}"

instance : Describe FieldRef :=
  ⟨fun r => Text.record "FieldRef" [("class", describe r.className), ("name", describe r.name)]⟩

/-- References in order: by class and then by name, strings by their code points. -/
instance : Ord FieldRef := ⟨compareLex (compareOn className) (compareOn name)⟩

end FieldRef

/-! ## A small instruction set -/

/-- What an instruction does to fields. -/
inductive InstrKind where
  | putStatic (field : FieldRef)
  | putInstance (field : FieldRef)
  | getStatic (field : FieldRef)
  | other
  deriving DecidableEq, Inhabited

instance : Describe InstrKind where
  describe
    | .putStatic field => Text.tuple "PutStatic" [describe field]
    | .putInstance field => Text.tuple "PutInstance" [describe field]
    | .getStatic field => Text.tuple "GetStatic" [describe field]
    | .other => "Other"

/-- An instruction: where it stands and what it does. -/
structure Instr where
  position : Position
  kind : InstrKind
  deriving DecidableEq, Inhabited

namespace Instr

/-- The static field that an instruction writes. Writes of instance fields, reads and all else write
none. -/
def staticWrite? (i : Instr) : Option FieldRef :=
  match i.kind with
  | .putStatic field => some field
  | _ => none

instance : Instruction Instr FieldRef := ⟨Instr.position, Instr.staticWrite?⟩

instance : Describe Instr :=
  ⟨fun i => Text.record "Instr" [("pos", describe i.position), ("kind", describe i.kind)]⟩

end Instr

end ReachingWrites
