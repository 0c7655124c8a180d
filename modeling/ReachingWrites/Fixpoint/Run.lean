import ReachingWrites.Fixpoint.Journal
import ReachingWrites.Fixpoint.Problem

/-!
# Solving by worklist

All nodes are put on a worklist and visited in turn. A visit computes what enters the node from what
leaves its predecessors now, and what leaves it from that. If the latter has changed, the successors
of the node are put on the worklist. With nothing left to visit, the values agree everywhere.

`State.step` is one turn: it asks the signal and visits the next node, or ends the run. Nothing
guarantees that a run ends when the transfers may answer anything, so `State.run?` takes turns up to
a number that it is given, and `none` says that the number did not suffice.
-/

set_option autoImplicit false

namespace ReachingWrites

/-- How a solve ended and what it left behind. -/
structure Run (α τ : Type) where
  outcome : Except SolveFailure (Solution α)
  journal : Journal α
  /-- The memory of the transfer at the end. -/
  memory : τ

/-- A solve between two turns. -/
structure State (α τ : Type) where
  worklist : Worklist
  /-- What enters each node, as of its last visit. -/
  ins : Array α
  /-- What leaves each node, as of its last visit. -/
  outs : Array α
  summary : Summary
  journal : Journal α
  memory : τ

/-- What a turn leads to. -/
inductive Turn (α τ : Type) where
  | next (state : State α τ)
  | done (run : Run α τ)

namespace State

variable {ι α τ : Type}

/-- The start: `bottom` everywhere and every node to visit. -/
def start (p : Problem ι α τ) (order : VisitOrder) (memory : τ) : State α τ where
  worklist := .seed order p.graph.nodeCount
  ins := Array.replicate p.graph.nodeCount p.bottom
  outs := Array.replicate p.graph.nodeCount p.bottom
  summary := {}
  journal := {}
  memory

def fail (s : State α τ) (failure : SolveFailure) : Run α τ :=
  ⟨.error failure, s.journal, s.memory⟩

/-- Ends a solve that the signal asked to stop, with so many nodes still to visit. -/
def cancel (s : State α τ) (pending : Nat) : Run α τ :=
  { s with journal := s.journal.write (.cancelled s.summary.visits pending) }.fail .cancelled

/-- Ends a solve that has no node left to visit. -/
def settle (s : State α τ) (nodes : Nat) : Run α τ where
  outcome := .ok ⟨s.ins, s.outs, s.summary⟩
  journal := s.journal.write (.fixpoint nodes s.summary.visits s.summary.updates)
  memory := s.memory

/-- Whether the signal, if there is one, asks to stop. -/
def stops (s : State α τ) (signal : Option (Signal α)) : Bool :=
  match signal with
  | none => false
  | some stop => stop s.journal

/-- The solve after the question to the signal, which is counted if there is a signal. -/
def asked (s : State α τ) (signal : Option (Signal α)) : State α τ :=
  match signal with
  | none => s
  | some _ => { s with journal := s.journal.poll }

/-- Sets what leaves a node to a new value and puts its successors on the worklist. -/
def update (s : State α τ) (p : Problem ι α τ) (node : NodeId) (old new : α) : State α τ :=
  { s with
    worklist := s.worklist.pushAll (p.graph.successors node)
    outs := s.outs.setIfInBounds node new
    summary := { s.summary with updates := s.summary.updates + 1 }
    journal := s.journal.outChanged node old new }

/-- The solve after a visit of a node that `entering` enters, before what leaves the node is looked
at. The transfer has been asked and keeps `memory`. -/
def visited (s : State α τ) (node : NodeId) (entering : α) (memory : τ) : State α τ :=
  { s with
    ins := s.ins.setIfInBounds node entering
    summary := { s.summary with visits := s.summary.visits + 1 }
    journal := s.journal.visit node
    memory }

variable [FlowLattice α] [DecidableEq α]

/-- Visits a node that has been taken from the worklist. What leaves it has changed if the transfer
answers another value than the one that is there, whatever the order says of the two. -/
def visit (s : State α τ) (p : Problem ι α τ) (checkMonotone : Bool) (node : NodeId) : Turn α τ :=
  let entering := p.inValue s.outs node
  let answer := p.transfer s.memory node entering
  let visited := s.visited node entering answer.2
  let old := s.outs.getD node p.bottom
  let new := answer.1
  if new = old then .next visited
  else if checkMonotone && !FlowLattice.leq old new then .done (visited.fail (.nonMonotone node))
  else .next (visited.update p node old new)

def step (s : State α τ) (p : Problem ι α τ) (options : SolveOptions) (signal : Option (Signal α)) :
    Turn α τ :=
  match s.worklist.pop? with
  | none => .done (s.settle p.graph.nodeCount)
  | some (node, rest) =>
    let asked := s.asked signal
    if s.stops signal then .done (asked.cancel s.worklist.pending.length)
    else { asked with worklist := rest }.visit p options.checkMonotone node

/-- Takes turns until the solve ends, but no more than `turns`. -/
def run? (p : Problem ι α τ) (options : SolveOptions) (signal : Option (Signal α)) :
    Nat → State α τ → Option (Run α τ)
  | 0, _ => none
  | turns + 1, s =>
    match s.step p options signal with
    | .done run => some run
    | .next s' => run? p options signal turns s'

end State

/-- Solves a problem in at most `turns` turns. Predecessors of a graph of another size are refused.
A graph without nodes has nothing to solve. -/
def Problem.solve? {ι α τ : Type} [FlowLattice α] [DecidableEq α] (p : Problem ι α τ)
    (options : SolveOptions) (signal : Option (Signal α)) (memory : τ) (turns : Nat) :
    Option (Run α τ) :=
  let nodes := p.graph.nodeCount
  if p.predecessors.size ≠ nodes then
    some ⟨.error (.predecessorMismatch nodes p.predecessors.size), {}, memory⟩
  else if nodes = 0 then some ⟨.ok ⟨#[], #[], {}⟩, {}, memory⟩
  else State.run? p options signal turns (.start p options.order memory)

end ReachingWrites
