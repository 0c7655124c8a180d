import ReachingWrites.FlowGraph.Basic

/-!
# What a solve leaves behind

While it works, a solve tells an observer which nodes it visits and which values change, writes a
log, and asks a signal whether to stop. A `Journal` is the record of all three. A signal answers from
the journal so far, so one that stops after some number of questions and one that an observer sets
during some visit are both functions of it.
-/

set_option autoImplicit false

namespace ReachingWrites

/-- What an observer is told. -/
inductive Event (α : Type) where
  | visit (node : NodeId)
  | outChanged (node : NodeId) (old new : α)
  deriving DecidableEq, Inhabited

def Event.isVisit {α : Type} : Event α → Bool
  | .visit _ => true
  | .outChanged _ _ _ => false

/-! ## The log -/

inductive LogLevel where
  | trace
  | debug
  deriving DecidableEq, Inhabited

def LogLevel.label : LogLevel → String
  | .trace => "TRACE"
  | .debug => "DEBUG"

inductive LogEntry where
  | numbered (nodes facts fields : Nat)
  | visit (node : NodeId)
  | outChanged (node : NodeId)
  /-- The signal asked to stop, with so many nodes still to visit. -/
  | cancelled (visits pending : Nat)
  | fixpoint (nodes visits updates : Nat)
  deriving DecidableEq, Inhabited

namespace LogEntry

def level : LogEntry → LogLevel
  | numbered _ _ _ | cancelled _ _ | fixpoint _ _ _ => .debug
  | visit _ | outChanged _ => .trace

def message : LogEntry → String
  | numbered _ _ _ => "numbered static writes"
  | visit _ => "visit"
  | outChanged _ => "out changed"
  | cancelled _ _ => "solve cancelled"
  | fixpoint _ _ _ => "fixpoint reached"

/-- The numbers that an entry gives, by name. -/
def fields : LogEntry → List (String × Nat)
  | numbered nodes facts fields => [("nodes", nodes), ("facts", facts), ("fields", fields)]
  | visit node => [("node", node)]
  | outChanged node => [("node", node)]
  | cancelled visits pending => [("visits", visits), ("pending", pending)]
  | fixpoint nodes visits updates => [("nodes", nodes), ("visits", visits), ("updates", updates)]

end LogEntry

/-! ## The journal -/

/-- The record of a solve, as far as it has come. -/
structure Journal (α : Type) where
  /-- How often the signal has been asked. -/
  polls : Nat := 0
  /-- What an observer has been told, in order. -/
  events : Array (Event α) := #[]
  log : Array LogEntry := #[]
  deriving DecidableEq, Inhabited

namespace Journal

variable {α : Type}

def visits (j : Journal α) : Nat := j.events.toList.countP Event.isVisit

def poll (j : Journal α) : Journal α := { j with polls := j.polls + 1 }

def write (j : Journal α) (entry : LogEntry) : Journal α := { j with log := j.log.push entry }

/-- Tells the observer of a visit and logs it. -/
def visit (j : Journal α) (node : NodeId) : Journal α :=
  { j with events := j.events.push (.visit node), log := j.log.push (.visit node) }

/-- Tells the observer of a change and logs it. -/
def outChanged (j : Journal α) (node : NodeId) (old new : α) : Journal α :=
  { j with
    events := j.events.push (.outChanged node old new)
    log := j.log.push (.outChanged node) }

end Journal

/-! ## Signals -/

/-- Whether to stop, from the journal of all that came before the question. -/
abbrev Signal (α : Type) := Journal α → Bool

namespace Signal

variable {α : Type}

def unset : Signal α := fun _ => false

def set : Signal α := fun _ => true

/-- Lets `count` questions pass and then asks to stop. -/
def after (count : Nat) : Signal α := fun journal => decide (count ≤ journal.polls)

/-- A flag that an observer sets during the visit of that number, counted from one. Visit zero never
comes. -/
def onVisit (number : Nat) : Signal α := fun journal =>
  decide (0 < number ∧ number ≤ journal.visits)

end Signal

end ReachingWrites
