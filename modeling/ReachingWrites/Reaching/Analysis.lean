import ReachingWrites.Facts.Numbering
import ReachingWrites.Fixpoint.Run
import ReachingWrites.Reaching.Sets
import ReachingWrites.Transfer.Blocks

/-!
# Which static writes reach a node

A write of a static field reaches a place if control can come from the write to the place without
meeting another write of the same field. Writes of one field are those whose references resolve
alike. The analysis numbers the static writes, makes the transfer of each block and solves the
dataflow problem of sets of facts under union, from the empty set.
-/

set_option autoImplicit false

namespace ReachingWrites

/-- All that the analysis of a graph needs to be solved. -/
structure Analysis (ι F : Type) where
  graph : FlowGraph ι
  predecessors : Predecessors
  facts : Facts F
  transfers : BlockTransfers

/-- How the analysis of a graph ended and what it left behind. -/
structure Report (F : Type) where
  /-- The reaching sets, or why there are none. -/
  outcome : Except AnalysisFailure (ReachingSets F)
  journal : Journal BitSet

/-- The log entry of a numbering that has succeeded. -/
def Facts.numbered {ι F : Type} (f : Facts F) (g : FlowGraph ι) : LogEntry :=
  .numbered g.nodeCount f.size f.fieldCount

namespace Analysis

variable {ι F : Type}

/-- Makes the analysis of a graph ready, with the fields of its static writes resolved. An edge that
leaves the graph is reported before any fault of a write. -/
def prepare {ρ : Type} [Instruction ι ρ] [Describe ρ] [DecidableEq F] (resolve : ρ → Option F)
    (graph : FlowGraph ι) : Except AnalysisFailure (Analysis ι F) := do
  let predecessors ← Predecessors.ofGraph graph
  let facts ← Facts.ofGraph resolve graph
  return { graph, predecessors, facts, transfers := .ofFacts graph.nodeCount facts }

def transfer (a : Analysis ι F) (n : NodeId) : Transfer := a.transfers.of n

/-- The dataflow problem of an analysis. -/
def problem (a : Analysis ι F) : Problem ι BitSet Unit :=
  .stateless a.graph a.predecessors (BitSet.empty a.facts.size) fun node s => (a.transfer node).apply s

/-- The turns that a solve may take: a visit of each node, one more of the target of each edge
whenever a fact comes to leave its source, and the turn that finds nothing left to visit. -/
def turns (a : Analysis ι F) : Nat :=
  a.graph.nodeCount + a.facts.size * a.graph.edges.length + 1

/-- Solves an analysis. The turns suffice, so there is always a report. -/
def solve? (a : Analysis ι F) (options : SolveOptions) (signal : Option (Signal BitSet)) :
    Option (Report F) :=
  (a.problem.solve? options signal () a.turns).map fun run =>
    { outcome := match run.outcome with
        | .ok solution => .ok (.ofSolution a.facts solution)
        | .error failure => .error (.ofSolve failure)
      journal := run.journal }

instance [Describe F] : Describe (Analysis ι F) :=
  ⟨fun a => Text.openRecord "ReachingDefs"
    [("preds", describe a.predecessors), ("facts", describe a.facts),
     ("transfers", describe a.transfers)]⟩

end Analysis

/-- Analyses a graph: makes the analysis ready and solves it with the usual options. The record tells
of the numbering and of the solve. -/
def analyze? {ι ρ F : Type} [Instruction ι ρ] [Describe ρ] [DecidableEq F] (resolve : ρ → Option F)
    (graph : FlowGraph ι) (signal : Option (Signal BitSet)) : Option (Report F) :=
  match Analysis.prepare resolve graph with
  | .error failure => some ⟨.error failure, {}⟩
  | .ok a => (a.solve? {} signal).map fun report =>
    { report with
      journal := { report.journal with log := #[a.facts.numbered graph] ++ report.journal.log } }

end ReachingWrites
