import ReachingWrites.Facts.Basic
import ReachingWrites.Fixpoint.Problem

/-!
# Reaching sets

The answer of the analysis: for each node the writes that may reach its entry and those that may
reach its exit. A `FactSet` is the set of writes at one of these places, and answers questions about
them by index, by position and by field.
-/

set_option autoImplicit false

namespace ReachingWrites

/-- The facts at one place of a procedure. -/
structure FactSet (F : Type) where
  members : BitSet
  facts : Facts F
  deriving DecidableEq

namespace FactSet

variable {F : Type}

def contains (s : FactSet F) (i : Nat) : Bool := s.members.contains i

def containsPosition (s : FactSet F) (p : Position) : Bool :=
  match s.facts.positions.indexOf? p with
  | some i => s.members.contains i
  | none => false

def size (s : FactSet F) : Nat := s.members.count

def isEmpty (s : FactSet F) : Bool := s.members.isEmpty

def toList (s : FactSet F) : List Nat := s.members.toList

/-- The positions of the facts that reach the place, in the order of the facts. -/
def positions (s : FactSet F) : List Position := s.toList.filterMap s.facts.positions.get?

def writes [DecidableEq F] (s : FactSet F) (field : F) (i : Nat) : Bool :=
  match s.facts.write? i with
  | some write => decide (write.field = field)
  | none => false

/-- The facts that reach the place and write a field, ascending. -/
def writesOf [DecidableEq F] (s : FactSet F) (field : F) : List Nat :=
  s.toList.filter (s.writes field)

end FactSet

/-- The writes that reach each node of a procedure. -/
structure ReachingSets (F : Type) where
  facts : Facts F
  /-- The facts that reach the entry of each node. -/
  ins : Array BitSet
  /-- The facts that reach the exit of each node. -/
  outs : Array BitSet
  summary : Summary
  deriving DecidableEq

namespace ReachingSets

variable {F : Type}

/-- The sets that a solution of the dataflow problem holds. -/
def ofSolution (facts : Facts F) (s : Solution BitSet) : ReachingSets F where
  facts
  ins := s.ins
  outs := s.outs
  summary := s.summary

def nodeCount (r : ReachingSets F) : Nat := r.ins.size

def factCount (r : ReachingSets F) : Nat := r.facts.size

/-- The facts at the entry of a node; nothing for a node without sets. -/
def inFacts? (r : ReachingSets F) (n : NodeId) : Option (FactSet F) :=
  r.ins[n]?.map fun members => { members, facts := r.facts }

/-- The facts at the exit of a node; nothing for a node without sets. -/
def outFacts? (r : ReachingSets F) (n : NodeId) : Option (FactSet F) :=
  r.outs[n]?.map fun members => { members, facts := r.facts }

def factAt? (r : ReachingSets F) (i : Nat) : Option Position := r.facts.positions.get? i

def factIndex? (r : ReachingSets F) (p : Position) : Option Nat := r.facts.positions.indexOf? p

def fieldOf? (r : ReachingSets F) (i : Nat) : Option F := (r.facts.write? i).map StaticWrite.field

end ReachingSets

end ReachingWrites
