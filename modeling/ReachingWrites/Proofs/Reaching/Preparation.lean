import ReachingWrites.Proofs.Facts.ScanOrder
import ReachingWrites.Proofs.FlowGraph.Transpose
import ReachingWrites.Proofs.Reaching.Prepared

/-!
# What is reported of a faulty graph

Making an analysis ready can fail in three ways, and a graph may have many faults at once. One of them
is reported, and which one is settled: edges come before writes, edges in the order of their sources
and then of the successors, writes in scan order, and of a write its position before its field.
`FirstFault` says this of the nodes, their successors and the places of the instructions, without the
rows of edges and of write sites that the scans follow. An analysis can be made ready exactly when
there is no fault, and instructions that write no static field are none.
-/

set_option autoImplicit false

namespace ReachingWrites

variable {ι ρ F : Type} [Instruction ι ρ]

namespace FlowGraph

/-- The graph without the instructions that write no static field. -/
def writesOnly (g : FlowGraph ι) : FlowGraph ι where
  blocks := g.blocks.map fun block =>
    { block with
      instructions := block.instructions.filter fun x => (Instruction.staticWrite? x).isSome }

/-- Leaving instructions out keeps the nodes. -/
@[simp] theorem nodeCount_writesOnly (g : FlowGraph ι) : g.writesOnly.nodeCount = g.nodeCount :=
  Array.size_map

/-- Leaving instructions out keeps the successors. -/
theorem successors_writesOnly (g : FlowGraph ι) (n : NodeId) :
    g.writesOnly.successors n = g.successors n := by
  unfold successors writesOnly
  rw [Array.getElem?_map]
  cases g.blocks[n]? with
  | none => rfl
  | some block => rfl

/-- Of the instructions of a node the static writes are left. -/
theorem instructions_writesOnly (g : FlowGraph ι) (n : NodeId) :
    g.writesOnly.instructions n =
      (g.instructions n).filter fun x => (Instruction.staticWrite? x).isSome := by
  unfold instructions writesOnly
  rw [Array.getElem?_map]
  cases g.blocks[n]? with
  | none => rfl
  | some block => rfl

/-- Leaving instructions out keeps the edges, in order. -/
theorem edges_writesOnly (g : FlowGraph ι) : g.writesOnly.edges = g.edges := by
  simp only [edges, nodes, nodeCount_writesOnly, successors_writesOnly]

/-- Leaving out instructions that write no static field keeps the write sites, in order. -/
theorem writeSites_writesOnly (g : FlowGraph ι) : g.writesOnly.writeSites = g.writeSites := by
  simp only [writeSites, nodes, nodeCount_writesOnly, instructions_writesOnly,
    List.filterMap_filter]
  congr 1
  funext n
  refine List.filterMap_congr fun x _ => ?_
  cases hx : Instruction.staticWrite? x with
  | none => simp [WriteSite.of?, hx]
  | some reference => simp

/-! ## The first fault -/

variable [Describe ρ]

/-- The first fault of a graph, as it is reported. -/
inductive FirstFault (g : FlowGraph ι) (resolve : ρ → Option F) : AnalysisFailure → Prop where
  /-- An edge leaves the graph, and none before it does. -/
  | edge {source target : NodeId} (first : g.FirstStray source target) :
      FirstFault g resolve (.malformedGraph source target)
  /-- No edge leaves the graph. A write stands at the position of an earlier one, and those before it
  are sound. Its field need not resolve. -/
  | position {place : Place} {position : Position} {reference : ρ}
      (inside : ∀ n m, m ∈ g.successors n → m < g.nodeCount)
      (write : g.WriteAt place position reference) (first : g.SoundBefore resolve place)
      (taken : g.Taken place position) :
      FirstFault g resolve (.duplicatePosition place.1 position)
  /-- No edge leaves the graph. A write stands at a position of its own and does not resolve, and those
  before it are sound. The reference is reported as it stands. -/
  | field {place : Place} {position : Position} {reference : ρ}
      (inside : ∀ n m, m ∈ g.successors n → m < g.nodeCount)
      (write : g.WriteAt place position reference) (first : g.SoundBefore resolve place)
      (free : ¬g.Taken place position) (unresolved : resolve reference = none) :
      FirstFault g resolve (.unresolvedField place.1 position (describe reference))

end FlowGraph

namespace Analysis

variable [Describe ρ] [DecidableEq F] {resolve : ρ → Option F} {g : FlowGraph ι}

/-- An analysis can be made ready when no edge leaves the graph and the writes can be numbered. -/
theorem exists_prepare_iff : (∃ a, prepare resolve g = .ok a) ↔
    (∀ e ∈ g.edges, e.2 < g.nodeCount) ∧ Numberable resolve g.writeSites := by
  rw [← Predecessors.exists_ofGraph_iff, ← Facts.exists_ofGraph_iff]
  constructor
  · intro h
    obtain ⟨a, ha⟩ := h
    obtain ⟨ps, f, hps, hf, -⟩ := prepare_eq_ok.mp ha
    exact ⟨⟨ps, hps⟩, f, hf⟩
  · intro h
    obtain ⟨⟨ps, hps⟩, f, hf⟩ := h
    exact ⟨_, prepare_eq_ok.mpr ⟨ps, f, hps, hf, rfl⟩⟩

/-- The predecessors are looked at before the facts. -/
theorem prepare_eq_error {failure : AnalysisFailure} : prepare resolve g = .error failure ↔
    Predecessors.ofGraph g = .error failure ∨
      (∃ ps, Predecessors.ofGraph g = .ok ps) ∧ Facts.ofGraph resolve g = .error failure := by
  rw [prepare, bind_eq_error]
  refine or_congr_right ?_
  constructor
  · intro h
    obtain ⟨ps, hps, h⟩ := h
    rcases bind_eq_error.mp h with hf | ⟨_, -, h⟩
    · exact ⟨⟨ps, hps⟩, hf⟩
    · cases h
  · intro h
    obtain ⟨⟨ps, hps⟩, hf⟩ := h
    exact ⟨ps, hps, bind_eq_error.mpr (.inl hf)⟩

/-- What is reported of a graph is its first fault. -/
theorem prepare_eq_error_iff {failure : AnalysisFailure} :
    prepare resolve g = .error failure ↔ g.FirstFault resolve failure := by
  rw [prepare_eq_error, Predecessors.ofGraph_eq_error_iff, Predecessors.exists_ofGraph_iff_lt,
    Facts.ofGraph_eq_error_iff]
  constructor
  · intro h
    rcases h with ⟨source, target, hfirst, rfl⟩ |
      ⟨hinside, place, position, reference, hwrite, hfirst, ⟨htaken, rfl⟩ | ⟨hfree, hnone, rfl⟩⟩
    · exact .edge hfirst
    · exact .position hinside hwrite hfirst htaken
    · exact .field hinside hwrite hfirst hfree hnone
  · intro h
    cases h with
    | edge first => exact .inl ⟨_, _, first, rfl⟩
    | position inside write first taken =>
      exact .inr ⟨inside, _, _, _, write, first, .inl ⟨taken, rfl⟩⟩
    | field inside write first free unresolved =>
      exact .inr ⟨inside, _, _, _, write, first, .inr ⟨free, unresolved, rfl⟩⟩

/-- Instructions that write no static field do not matter for the report. -/
theorem prepare_writesOnly {failure : AnalysisFailure} :
    prepare resolve g.writesOnly = .error failure ↔ prepare resolve g = .error failure := by
  simp only [prepare_eq_error, Predecessors.ofGraph_eq_error, Predecessors.exists_ofGraph_iff,
    Facts.ofGraph_eq_error, FlowGraph.nodeCount_writesOnly, FlowGraph.edges_writesOnly,
    FlowGraph.writeSites_writesOnly]

/-- A graph whose analysis cannot be made ready is reported for its first fault. There is none exactly
when all edges end in the graph, no two static writes stand at one position and the field of each
resolves. All other instructions could be left out without a difference. -/
theorem prepare_reports_first (resolve : ρ → Option F) (g : FlowGraph ι) :
    (∀ failure, prepare resolve g = .error failure ↔ g.FirstFault resolve failure) ∧
    ((∃ a, prepare resolve g = .ok a) ↔
      (∀ n m, m ∈ g.successors n → m < g.nodeCount) ∧
      (∀ place place' position reference reference', g.WriteAt place position reference →
        g.WriteAt place' position reference' → place = place') ∧
      ∀ place position reference, g.WriteAt place position reference →
        (resolve reference).isSome) ∧
    ∀ failure, prepare resolve g.writesOnly = .error failure ↔
      prepare resolve g = .error failure := by
  refine ⟨fun failure => prepare_eq_error_iff, ?_, fun failure => prepare_writesOnly⟩
  rw [exists_prepare_iff, ← Predecessors.exists_ofGraph_iff, Predecessors.exists_ofGraph_iff_lt,
    numberable_writeSites_iff, FlowGraph.forall_soundAt_iff]

/-- That a position is taken is reported, although the field does not resolve either. -/
example : prepare (fun r => if r.name = "x" then some r.name else none)
    (⟨#[⟨[⟨⟨0⟩, .putStatic ⟨"A", "x"⟩⟩, ⟨⟨0⟩, .putStatic ⟨"A", "y"⟩⟩], [0]⟩]⟩ : FlowGraph Instr) =
      .error (.duplicatePosition 0 ⟨0⟩) := by rfl

end Analysis

end ReachingWrites
