import ReachingWrites.Proofs.Fixpoint.Course
import ReachingWrites.Proofs.FlowGraph.Distinct
import ReachingWrites.Proofs.Reaching.Termination

/-!
# Repeated successors are not noticed

Three parts of the program meet the successors of a node, and each looks out for repetitions in its own
way: the one that adds edges to a graph, the one that turns the edges around, and the solver, which marks
the nodes that wait. So a graph whose successors repeat themselves and the one without the repetitions
are the same to all of them. It is not only that the sets are the same: every turn of a solve leaves the
same state, so the visits, what the observer is told, the log and the questions to the signal are the
same too, whatever the values and the transfers are.
-/

set_option autoImplicit false

namespace ReachingWrites

/-! ## A solve -/

section Solve

variable {ι α τ : Type} (p : Problem ι α τ)

/-- The problem on the graph without repetitions. The predecessors stay as they are. -/
def Problem.distinct : Problem ι α τ := { p with graph := p.graph.distinct }

private theorem Problem.nodeCount_distinct : p.distinct.graph.nodeCount = p.graph.nodeCount :=
  FlowGraph.nodeCount_distinct p.graph

private theorem State.update_distinct (s : State α τ) (node : NodeId) (old new : α) :
    s.update p.distinct node old new = s.update p node old new := by
  have hsuccessors : p.distinct.graph.successors node = (p.graph.successors node).eraseDups :=
    FlowGraph.successors_distinct p.graph node
  rw [update, update, hsuccessors, Worklist.pushAll_eraseDups]

variable [FlowLattice α] [DecidableEq α] (options : SolveOptions) (signal : Option (Signal α))

/-- A turn leads to the same without repetitions. -/
theorem State.step_distinct (s : State α τ) :
    s.step p.distinct options signal = s.step p options signal := by
  simp only [step, visit, update_distinct, p.nodeCount_distinct]
  rfl

/-- Turns over the graph without repeated successors go as over the graph itself. -/
theorem State.run?_distinct (turns : Nat) (s : State α τ) :
    run? p.distinct options signal turns s = run? p options signal turns s := by
  induction turns generalizing s with
  | zero => rfl
  | succ turns ih =>
    rw [run?, run?, step_distinct]
    cases s.step p options signal with
    | done run => rfl
    | next s' => exact ih s'

/-- A solve ends in the same way without repetitions, after as many turns and with the same journal. -/
theorem Problem.solve?_distinct (memory : τ) (turns : Nat) :
    p.distinct.solve? options signal memory turns = p.solve? options signal memory turns := by
  have hstart : State.start p.distinct options.order memory = State.start p options.order memory := by
    simp only [State.start, p.nodeCount_distinct]
    rfl
  simp only [solve?, p.nodeCount_distinct, State.run?_distinct, hstart]
  rfl

end Solve

/-! ## An analysis -/

section Analysis

variable {ι ρ F : Type} [Instruction ι ρ] [DecidableEq F]

private theorem FlowGraph.writeSites_distinct (g : FlowGraph ι) :
    g.distinct.writeSites = g.writeSites := by
  simp only [writeSites, nodes, nodeCount_distinct, instructions_distinct]

/-- The analysis of the graph without repetitions. -/
def Analysis.distinct (a : Analysis ι F) : Analysis ι F := { a with graph := a.graph.distinct }

variable [Describe ρ] (resolve : ρ → Option F) (g : FlowGraph ι)

/-- Without repetitions, an analysis is made ready with the same parts or fails alike. -/
theorem Analysis.prepare_distinct :
    prepare resolve g.distinct = (prepare resolve g).map Analysis.distinct := by
  have hfacts : Facts.ofGraph resolve g.distinct = Facts.ofGraph resolve g := by
    rw [Facts.ofGraph, Facts.ofGraph, g.writeSites_distinct]
  simp only [prepare, Predecessors.ofGraph_distinct, hfacts, g.nodeCount_distinct]
  cases Predecessors.ofGraph g with
  | error failure => rfl
  | ok predecessors =>
    cases Facts.ofGraph resolve g with
    | error failure => rfl
    | ok facts => rfl

variable {resolve g}

/-- An analysis that has been made ready is solved alike without repetitions. It may take fewer turns
then, but takes no more than suffice. -/
theorem Analysis.solve?_distinct {a : Analysis ι F} (h : prepare resolve g = .ok a)
    (options : SolveOptions) (signal : Option (Signal BitSet)) :
    a.distinct.solve? options signal = a.solve? options signal := by
  have h' : prepare resolve g.distinct = .ok a.distinct := by
    rw [prepare_distinct, h]
    rfl
  obtain ⟨report, hr⟩ : ∃ report, a.solve? options signal = some report :=
    (prepared_of_prepare h).exists_report
  obtain ⟨report', hr'⟩ : ∃ report', a.distinct.solve? options signal = some report' :=
    (prepared_of_prepare h').exists_report
  rw [hr, hr']
  obtain ⟨run, hrun, rfl⟩ := Option.map_eq_some_iff.mp hr
  obtain ⟨run', hrun', rfl⟩ := Option.map_eq_some_iff.mp hr'
  have hrun' : a.problem.solve? options signal () a.distinct.turns = some run' := by
    rw [← Problem.solve?_distinct]
    exact hrun'
  obtain rfl := Problem.solve?_unique hrun hrun'
  rfl

variable (resolve g)

/-- The whole analysis does not tell a graph from that without repeated successors. -/
theorem analyze?_distinct (signal : Option (Signal BitSet)) :
    analyze? resolve g.distinct signal = analyze? resolve g signal := by
  unfold analyze?
  rw [Analysis.prepare_distinct]
  cases h : Analysis.prepare resolve g with
  | error failure => rfl
  | ok a =>
    simp only [Except.map, Analysis.solve?_distinct h, Facts.numbered, g.nodeCount_distinct]
    rfl

/-- Successors that are repeated make no difference. The graph in which each node names its successors
once, in the order in which they come first, is what is built when the edges are added one by one,
however those of different nodes are mixed. It has the same predecessors or the same edge that is
reported, its analysis is made ready alike and solved alike, with the same record; and whatever values
and transfers are solved for on it, with whatever predecessors, the solve ends in the same way, with the
same values, summary, events, log and number of questions to the signal. -/
theorem FlowGraph.distinct_unnoticed :
    (∀ edges, g.ListedBy edges → g.bare.addEdges? edges = some g.distinct) ∧
    Predecessors.ofGraph g.distinct = Predecessors.ofGraph g ∧
    Analysis.prepare resolve g.distinct = (Analysis.prepare resolve g).map Analysis.distinct ∧
    (∀ a, Analysis.prepare resolve g = .ok a → ∀ options signal,
      a.distinct.solve? options signal = a.solve? options signal) ∧
    (∀ signal, analyze? resolve g.distinct signal = analyze? resolve g signal) ∧
    ∀ (α τ : Type) [FlowLattice α] [DecidableEq α] (ps : Predecessors) (bottom : α)
      (transfer : τ → NodeId → α → α × τ) (options : SolveOptions) (signal : Option (Signal α))
      (memory : τ) (turns : Nat),
      (⟨g.distinct, ps, bottom, transfer⟩ : Problem ι α τ).solve? options signal memory turns =
        (⟨g, ps, bottom, transfer⟩ : Problem ι α τ).solve? options signal memory turns := by
  refine ⟨fun edges h => h.addEdges?_bare, Predecessors.ofGraph_distinct g,
    Analysis.prepare_distinct resolve g, fun a h => Analysis.solve?_distinct h,
    analyze?_distinct resolve g, ?_⟩
  intro α τ _ _ ps bottom transfer options signal memory turns
  exact Problem.solve?_distinct ⟨g, ps, bottom, transfer⟩ options signal memory turns

end Analysis

/-- A loop that names itself twice is built without the repetition, its edges being added before and
after one of another node. -/
theorem FlowGraph.writingLoop_distinct : writingLoop.distinct.successors 1 = [1] ∧
    writingLoop.bare.addEdges? [(1, 1), (0, 1), (1, 1)] = some writingLoop.distinct ∧
    ∃ a, Analysis.prepare FieldRef.byName writingLoop = .ok a ∧
      Analysis.prepare FieldRef.byName writingLoop.distinct = .ok a.distinct ∧
        ∀ options signal, a.distinct.solve? options signal = a.solve? options signal := by
  have hedges : writingLoop.ListedBy [(1, 1), (0, 1), (1, 1)] := by
    intro n
    match n with
    | 0 => rfl
    | 1 => rfl
    | n + 2 => rfl
  obtain ⟨hbuilt, -, hprepare, hsolve, -⟩ := distinct_unnoticed FieldRef.byName writingLoop
  obtain ⟨a, -, -, ha, -⟩ := Analysis.exists_writingLoop
  rw [ha] at hprepare
  exact ⟨by decide +kernel, hbuilt _ hedges, a, ha, hprepare, hsolve a ha⟩

end ReachingWrites
