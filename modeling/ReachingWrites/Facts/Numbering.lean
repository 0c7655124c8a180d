import ReachingWrites.Facts.Basic
import ReachingWrites.Failure

/-!
# Numbering the static writes

The writes of a graph are numbered in one scan, nodes ascending and instructions in program order.
A position stands for its write, so a second write at a position is refused, before its field is
looked at; then a write whose field does not resolve is refused. Instructions that write no static
field count for nothing, whatever their position.
-/

set_option autoImplicit false

namespace ReachingWrites

/-- A static write as it stands in the graph, its field still the reference `ρ` that it names. -/
structure WriteSite (ρ : Type) where
  node : NodeId
  position : Position
  reference : ρ
  deriving DecidableEq

/-- The static write that an instruction of a node makes, if it makes one. -/
def WriteSite.of? {ι ρ : Type} [Instruction ι ρ] (node : NodeId) (instruction : ι) :
    Option (WriteSite ρ) :=
  (Instruction.staticWrite? instruction).map fun reference =>
    { node, position := Instruction.position instruction, reference }

/-- The static writes of a graph in scan order: nodes ascending, instructions in program order. -/
def FlowGraph.writeSites {ι ρ : Type} [Instruction ι ρ] (g : FlowGraph ι) : List (WriteSite ρ) :=
  g.nodes.flatMap fun node => (g.instructions node).filterMap (WriteSite.of? node)

/-- A scan of the writes, as far as it has come. -/
structure Numbering (F : Type) where
  positions : Ordinals Position := {}
  writes : Array (StaticWrite F) := #[]
  /-- For each field met, the indices of its writes, ascending. -/
  members : Table F (List Nat) := {}

namespace Numbering

variable {ρ F : Type}

/-- The facts of a scan that is over. Only now is it known how many indices the sets range over. -/
def facts (s : Numbering F) : Facts F where
  positions := s.positions
  writes := s.writes
  killIndex := s.members.mapValues (BitSet.ofIndices s.writes.size)

variable [Describe ρ] [DecidableEq F]

/-- Gives the next index to a write. -/
def enter (resolve : ρ → Option F) (s : Numbering F) (site : WriteSite ρ) :
    Except AnalysisFailure (Numbering F) :=
  if (s.positions.indexOf? site.position).isSome then
    .error (.duplicatePosition site.node site.position)
  else match resolve site.reference with
    | none => .error (.unresolvedField site.node site.position (describe site.reference))
    | some field =>
      let numbered := s.positions.add site.position
      .ok {
        positions := numbered.1
        writes := s.writes.push { node := site.node, position := site.position, field }
        members := s.members.alter field fun indices => indices.getD [] ++ [numbered.2] }

end Numbering

/-- Numbers the static writes of a graph, with their fields resolved. Fails at the first write that
repeats the position of an earlier one or does not resolve. -/
def Facts.ofGraph {ι ρ F : Type} [Instruction ι ρ] [Describe ρ] [DecidableEq F]
    (resolve : ρ → Option F) (g : FlowGraph ι) : Except AnalysisFailure (Facts F) :=
  (g.writeSites.foldlM (Numbering.enter resolve) {}).map Numbering.facts

end ReachingWrites
