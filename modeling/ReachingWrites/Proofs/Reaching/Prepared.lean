import ReachingWrites.Proofs.Fixpoint.Least
import ReachingWrites.Proofs.Transfer.Blocks
import ReachingWrites.Reaching.Analysis

/-!
# The problem that an analysis solves

An analysis that has been made ready poses a problem of sets of facts, and the problem has all that
the solver relies on: its predecessors are those of its graph, and its transfers are monotone and lead
from sets of facts to sets of facts. A report comes from a run on this problem.
-/

set_option autoImplicit false

namespace ReachingWrites

variable {ι ρ F : Type}

namespace Analysis

/-- The parts of an analysis are those of a graph whose writes have been numbered. -/
structure Prepared [DecidableEq F] [Instruction ι ρ] (a : Analysis ι F) (resolve : ρ → Option F)
    (g : FlowGraph ι) : Prop where
  graph : a.graph = g
  predecessors : Predecessors.ofGraph a.graph = .ok a.predecessors
  facts : a.facts.Lists resolve g
  transfers : a.transfers = .ofFacts g.nodeCount a.facts

/-- An analysis is ready when the predecessors and the facts are there. -/
theorem prepare_eq_ok [DecidableEq F] [Instruction ι ρ] [Describe ρ] {resolve : ρ → Option F}
    {g : FlowGraph ι} {a : Analysis ι F} : prepare resolve g = .ok a ↔
      ∃ predecessors facts, Predecessors.ofGraph g = .ok predecessors ∧
        Facts.ofGraph resolve g = .ok facts ∧
        a = ⟨g, predecessors, facts, .ofFacts g.nodeCount facts⟩ := by
  constructor
  · intro h
    obtain ⟨predecessors, hpredecessors, h⟩ := bind_eq_ok.mp h
    obtain ⟨facts, hfacts, h⟩ := bind_eq_ok.mp h
    cases h
    exact ⟨predecessors, facts, hpredecessors, hfacts, rfl⟩
  · intro h
    obtain ⟨predecessors, facts, hpredecessors, hfacts, rfl⟩ := h
    exact bind_eq_ok.mpr ⟨predecessors, hpredecessors, bind_eq_ok.mpr ⟨facts, hfacts, rfl⟩⟩

/-- What is made ready is prepared for its graph. -/
theorem prepared_of_prepare [DecidableEq F] [Instruction ι ρ] [Describe ρ] {resolve : ρ → Option F}
    {g : FlowGraph ι} {a : Analysis ι F} (h : prepare resolve g = .ok a) :
    a.Prepared resolve g := by
  obtain ⟨predecessors, facts, hpredecessors, hfacts, rfl⟩ := prepare_eq_ok.mp h
  exact ⟨rfl, hpredecessors, Facts.lists_of_ofGraph hfacts, rfl⟩

/-- What leaves a node, from what enters it. -/
def flow (a : Analysis ι F) (n : NodeId) (s : BitSet) : BitSet := (a.transfer n).apply s

/-- The transfers of an analysis answer without a memory. -/
theorem problem_answers (a : Analysis ι F) : a.problem.Answers a.flow := fun _ _ _ => rfl

section Prepared

variable [DecidableEq F] [Instruction ι ρ] {a : Analysis ι F} {resolve : ρ → Option F} {g : FlowGraph ι}
  (h : a.Prepared resolve g)
include h

/-- The graph of the problem is the graph of the analysis. -/
theorem Prepared.problem_graph : a.problem.graph = g := h.graph

/-- The problem has the nodes of the graph. -/
theorem Prepared.problem_nodeCount : a.problem.graph.nodeCount = g.nodeCount := by
  rw [h.problem_graph]

/-- Every edge of the graph ends in it. -/
theorem Prepared.lt_of_mem_successors {m n : NodeId} (hn : n ∈ g.successors m) : n < g.nodeCount := by
  obtain rfl := h.graph
  exact Predecessors.lt_of_mem_successors h.predecessors hn

/-- The transfers of the nodes are of the universe of the facts. -/
theorem Prepared.fits_transfer {n : NodeId} (hn : n < g.nodeCount) :
    (a.transfer n).Fits a.facts.size := by
  rw [transfer, h.transfers]
  exact (BlockTransfers.folds_ofFacts h.facts.indexed hn).fits

/-- The transfers are monotone on the sets of facts. -/
theorem Prepared.monotoneOn : a.problem.MonotoneOn a.flow (BitSet.Fits a.facts.size) where
  mem_bottom := BitSet.fits_empty a.facts.size
  mem hn hs := (h.fits_transfer (h.problem_nodeCount ▸ hn)).apply hs
  mono hn hs hs' hle :=
    (h.fits_transfer (h.problem_nodeCount ▸ hn)).over.apply_mono hs.over hs'.over hle
  bottom_le _ := Transfer.empty_leq a.facts.size _

/-- A fact leaves a node if it is a write of the node and no later one there writes its field, or if
it enters the node and no write there has its field. -/
theorem Prepared.mem_flow {n : NodeId} (hn : n < g.nodeCount) {before after : List (StaticWrite F)}
    {w : StaticWrite F} (hsplit : a.facts.writes.toList = before ++ w :: after) {s : BitSet}
    (hs : s.Fits a.facts.size) :
    before.length ∈ a.flow n s ↔
      (w.node = n ∧ ∀ later ∈ after, later.node = n → later.field ≠ w.field) ∨
        (before.length ∈ s ∧
          ∀ other ∈ a.facts.writes.toList, other.node = n → other.field ≠ w.field) := by
  rw [flow, transfer, h.transfers]
  exact BlockTransfers.mem_apply_ofFacts h.facts.indexed hn hsplit hs.over

end Prepared

/-! ## Reports -/

/-- A report is made of the run in which the problem ends, with its journal. -/
theorem solve?_eq_some {a : Analysis ι F} {options : SolveOptions}
    {signal : Option (Signal BitSet)} {report : Report F} (h : a.solve? options signal = some report) :
    ∃ run, a.problem.Ends options signal () run ∧ report.journal = run.journal ∧
      report.outcome = match run.outcome with
        | .ok solution => .ok (.ofSolution a.facts solution)
        | .error failure => .error (.ofSolve failure) := by
  obtain ⟨run, hrun, rfl⟩ := Option.map_eq_some_iff.mp h
  exact ⟨run, Problem.solve?_ends hrun, rfl, rfl⟩

/-- The reaching sets of a report are the values of a solution. -/
theorem solve?_eq_ok {a : Analysis ι F} {options : SolveOptions}
    {signal : Option (Signal BitSet)} {report : Report F} (h : a.solve? options signal = some report)
    {r : ReachingSets F} (hok : report.outcome = .ok r) :
    ∃ run solution, a.problem.Ends options signal () run ∧ run.outcome = .ok solution ∧
      r = .ofSolution a.facts solution := by
  obtain ⟨run, hends, -, houtcome⟩ := solve?_eq_some h
  rw [houtcome] at hok
  cases hrun : run.outcome with
  | ok solution =>
    rw [hrun] at hok
    cases hok
    exact ⟨run, solution, hends, hrun, rfl⟩
  | error failure =>
    rw [hrun] at hok
    cases hok

/-- The sets of a report are about the facts of the analysis. -/
theorem facts_of_solve? {a : Analysis ι F} {options : SolveOptions} {signal : Option (Signal BitSet)}
    {report : Report F} (h : a.solve? options signal = some report) {r : ReachingSets F}
    (hok : report.outcome = .ok r) : r.facts = a.facts := by
  obtain ⟨_, _, -, -, rfl⟩ := solve?_eq_ok h hok
  rfl

/-- The reaching sets of a report are the values of the least solution. -/
theorem Prepared.exists_isLeast [DecidableEq F] [Instruction ι ρ] {a : Analysis ι F}
    {resolve : ρ → Option F} {g : FlowGraph ι} (h : a.Prepared resolve g) {options : SolveOptions}
    {signal : Option (Signal BitSet)} {report : Report F}
    (hr : a.solve? options signal = some report) {r : ReachingSets F} (hok : report.outcome = .ok r) :
    ∃ solution, r = .ofSolution a.facts solution ∧
      a.problem.IsLeast a.flow (BitSet.Fits a.facts.size) solution := by
  obtain ⟨run, solution, hends, hrun, rfl⟩ := solve?_eq_ok hr hok
  exact ⟨solution, rfl, hends.isLeast h.predecessors a.problem_answers
    (BitSet.lawfulOn_fits a.facts.size) h.monotoneOn hrun⟩

end Analysis

/-! ## A loop -/

/-- Fields by their names alone, so that classes share them. -/
def FieldRef.byName (r : FieldRef) : Option String := some r.name

/-- A write of `x`, and then a node that writes `x` and `y` and leads back to itself, twice. -/
def FlowGraph.writingLoop : FlowGraph Instr :=
  ⟨#[⟨[⟨⟨0⟩, .putStatic ⟨"A", "x"⟩⟩], [1]⟩,
    ⟨[⟨⟨1⟩, .putStatic ⟨"B", "x"⟩⟩, ⟨⟨2⟩, .putStatic ⟨"A", "y"⟩⟩], [1, 1]⟩]⟩

/-- The loop is made ready and solved: what enters its nodes, the summary and its second fact. -/
theorem Analysis.exists_writingLoop : ∃ a report r,
    prepare FieldRef.byName .writingLoop = .ok a ∧
      a.solve? ⟨.reverse, false⟩ none = some report ∧ report.outcome = .ok r ∧
        r.ins = #[⟨3, #[0]⟩, ⟨3, #[7]⟩] ∧ r.summary = ⟨3, 2⟩ ∧
          r.facts.write? 1 = some ⟨1, ⟨1⟩, "x"⟩ := by
  have hrun : (((prepare FieldRef.byName .writingLoop).toOption.bind fun a =>
      (a.solve? ⟨.reverse, false⟩ none).bind fun report => report.outcome.toOption).map fun r =>
        (r.ins, r.summary, r.facts.write? 1)) =
      some (#[⟨3, #[0]⟩, ⟨3, #[7]⟩], ⟨3, 2⟩, some ⟨1, ⟨1⟩, "x"⟩) := by
    decide +kernel
  obtain ⟨r, hr, hvalues⟩ := Option.map_eq_some_iff.mp hrun
  obtain ⟨a, ha, hr⟩ := Option.bind_eq_some_iff.mp hr
  obtain ⟨report, hreport, hr⟩ := Option.bind_eq_some_iff.mp hr
  simp only [Prod.mk.injEq] at hvalues
  exact ⟨a, report, r, toOption_eq_some.mp ha, hreport, toOption_eq_some.mp hr, hvalues⟩

end ReachingWrites
