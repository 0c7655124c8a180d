import ReachingWrites.Proofs.Reaching.Positions
import ReachingWrites.Proofs.Reaching.Preparation

/-!
# More edges

With more edges, control can come to a node from more places, and so more writes can. The numbering
and the transfers look at the instructions only, so they stay the same, and the sets at all nodes can
only become larger. The two solves cannot be compared turn by turn: they visit the nodes in different
orders, and one of them may have a fact at a node long before the other does. What can be compared is
where they end, for the sets with more edges are closed under the equations with fewer.

If each of two graphs has the edges of the other one, they differ in how the edges are listed, and the
sets are the same.
-/

set_option autoImplicit false

namespace ReachingWrites

variable {ι ρ F : Type}

namespace FlowGraph

/-- Two graphs have the same instructions in the same nodes, and every edge of the first one is an edge
of the second. The order in which the edges are listed may differ, and how often. -/
structure Within (g g' : FlowGraph ι) : Prop where
  /-- The nodes are the same. -/
  nodeCount : g'.nodeCount = g.nodeCount
  /-- The instructions are the same. -/
  instructions : ∀ n, g'.instructions n = g.instructions n
  /-- The second graph has all edges of the first one. -/
  successors : ∀ n, g.successors n ⊆ g'.successors n

/-- A graph is within the one with an edge more. -/
theorem within_appendSuccessor (g : FlowGraph ι) (source target : NodeId) :
    g.Within (g.appendSuccessor source target) where
  nodeCount := g.nodeCount_appendSuccessor source target
  instructions n := g.instructions_appendSuccessor source target n
  successors n := by
    rw [successors_appendSuccessor]
    split
    · exact List.subset_append_left _ _
    · exact List.Subset.refl _

section Within

variable {g g' : FlowGraph ι} (h : g.Within g')
include h

private theorem Within.writeSites_eq [Instruction ι ρ] : g'.writeSites = g.writeSites := by
  simp only [writeSites, nodes, h.nodeCount, h.instructions]

/-- Where no edge leaves the graph with more edges, none leaves the one with fewer. -/
theorem Within.inside (inside : ∀ e ∈ g'.edges, e.2 < g'.nodeCount) :
    ∀ e ∈ g.edges, e.2 < g.nodeCount := by
  intro (source, target) hmem
  rw [← h.nodeCount]
  exact inside (source, target) (mem_edges.mpr (h.successors source (mem_edges.mp hmem)))

end Within

end FlowGraph

namespace Analysis

section Prepare

variable [DecidableEq F] [Instruction ι ρ] [Describe ρ] {resolve : ρ → Option F} {g g' : FlowGraph ι}
  (h : g.Within g')
include h

/-- Edges that stay in the graph do not keep an analysis from being made ready. -/
theorem exists_prepare_within (inside : ∀ e ∈ g'.edges, e.2 < g'.nodeCount) :
    (∃ a : Analysis ι F, prepare resolve g = .ok a) ↔
      ∃ a : Analysis ι F, prepare resolve g' = .ok a := by
  rw [exists_prepare_iff, exists_prepare_iff, h.writeSites_eq]
  exact and_congr_left fun _ => ⟨fun _ => inside, fun _ => h.inside inside⟩

/-- The facts do not depend on the edges. -/
theorem facts_eq_of_within {a a' : Analysis ι F} (ha : prepare resolve g = .ok a)
    (ha' : prepare resolve g' = .ok a') : a'.facts = a.facts := by
  obtain ⟨_, facts, -, hfacts, rfl⟩ := prepare_eq_ok.mp ha
  obtain ⟨_, facts', -, hfacts', rfl⟩ := prepare_eq_ok.mp ha'
  rw [Facts.ofGraph, h.writeSites_eq] at hfacts'
  exact Except.ok.inj (hfacts'.symm.trans hfacts)

end Prepare

section Prepared

variable [DecidableEq F] [Instruction ι ρ] {resolve : ρ → Option F} {g g' : FlowGraph ι}
  {a a' : Analysis ι F} (ha : a.Prepared resolve g) (ha' : a'.Prepared resolve g')
  (hfacts : a'.facts = a.facts) (h : g.Within g')
include ha ha' hfacts h

private theorem Prepared.problem_within : a.problem.Within a'.problem where
  bottom := congrArg (fun facts : Facts F => BitSet.empty facts.size) hfacts
  nodeCount := by rw [ha.problem_nodeCount, ha'.problem_nodeCount, h.nodeCount]
  mem_successors source target := by
    rw [ha.problem_graph, ha'.problem_graph]
    exact fun htarget => h.successors source htarget

/-- A solution is the least one for the transfers of the one analysis if it is for those of the
other. -/
theorem Prepared.isLeast_of_within {solution : Solution BitSet}
    (hleast : a'.problem.IsLeast a'.flow (BitSet.Fits a'.facts.size) solution) :
    a'.problem.IsLeast a.flow (BitSet.Fits a.facts.size) solution := by
  have hflow : a'.flow = a.flow := by
    funext n s
    rw [flow, flow, transfer, transfer, ha'.transfers, ha.transfers, hfacts, h.nodeCount]
  rwa [hflow, hfacts] at hleast

variable {options options' : SolveOptions} {signal signal' : Option (Signal BitSet)}
  {report report' : Report F} (hr : a.solve? options signal = some report) {r : ReachingSets F}
  (hok : report.outcome = .ok r) (hr' : a'.solve? options' signal' = some report')
  {r' : ReachingSets F} (hok' : report'.outcome = .ok r')
include hr hok hr' hok'

/-- With more edges, all facts that reach the entry or the exit of a node still do. -/
theorem Prepared.facts_subset_of_within {n : NodeId} (hn : n < g.nodeCount) :
    ∃ entry exit entry' exit', r.inFacts? n = some entry ∧ r.outFacts? n = some exit ∧
      r'.inFacts? n = some entry' ∧ r'.outFacts? n = some exit' ∧
      entry.toList ⊆ entry'.toList ∧ exit.toList ⊆ exit'.toList := by
  obtain ⟨solution, rfl, hleast⟩ := ha.exists_isLeast hr hok
  obtain ⟨solution', rfl, hleast'⟩ := ha'.exists_isLeast hr' hok'
  have hwithin := ha.problem_within ha' hfacts h
  obtain ⟨hentry, hexit⟩ := ha.facts_eq_some hleast hn
  obtain ⟨hentry', hexit'⟩ := ha'.facts_eq_some hleast' (h.nodeCount.symm ▸ hn)
  rw [hwithin.bottom] at hentry' hexit'
  have hn' : n < a.problem.graph.nodeCount := ha.problem_nodeCount.symm ▸ hn
  obtain ⟨hins, houts⟩ := hleast.le_of_within ha.predecessors ha'.predecessors
    (BitSet.lawfulOn_fits a.facts.size) ha.monotoneOn hwithin
    (ha.isLeast_of_within ha' hfacts h hleast') hn'
  exact ⟨_, _, _, _, hentry, hexit, hentry', hexit',
    FactSet.toList_subset hins, FactSet.toList_subset houts⟩

/-- Graphs with the same edges have the same sets. -/
theorem Prepared.sets_eq_of_within (hge : g'.Within g) : r'.ins = r.ins ∧ r'.outs = r.outs := by
  obtain ⟨solution, rfl, hleast⟩ := ha.exists_isLeast hr hok
  obtain ⟨solution', rfl, hleast'⟩ := ha'.exists_isLeast hr' hok'
  have halike := (ha.problem_within ha' hfacts h).alike (ha'.problem_within ha hfacts.symm hge)
  exact hleast.eq_of_alike ha.predecessors ha'.predecessors (BitSet.lawfulOn_fits a.facts.size)
    ha.monotoneOn halike (ha.isLeast_of_within ha' hfacts h hleast')

end Prepared

/-- Take a graph and one with more edges, none of which leaves it. The analysis of one can be made ready
if that of the other can, and then the facts are the same. Both can be solved, in any order and with or
without the check of growth, and end with sets unless their signals ask to stop; and the facts that
reach the entry or the exit of a node still do with more edges. If the graphs have the same edges, in
whatever order and however often they are listed, the sets are the same. -/
theorem prepare_within [DecidableEq F] [Instruction ι ρ] [Describe ρ] (resolve : ρ → Option F)
    {g g' : FlowGraph ι} (h : g.Within g') (inside : ∀ e ∈ g'.edges, e.2 < g'.nodeCount) :
    ((∃ a, prepare resolve g = .ok a) ↔ ∃ a, prepare resolve g' = .ok a) ∧
    ∀ a a', prepare resolve g = .ok a → prepare resolve g' = .ok a' →
      a'.facts = a.facts ∧
      ∀ options options' signal signal', ∃ report report',
        a.solve? options signal = some report ∧ a'.solve? options' signal' = some report' ∧
        ((∀ stop ∈ signal, ∀ journal, stop journal = false) → ∃ r, report.outcome = .ok r) ∧
        ((∀ stop ∈ signal', ∀ journal, stop journal = false) → ∃ r', report'.outcome = .ok r') ∧
        ∀ r r', report.outcome = .ok r → report'.outcome = .ok r' →
          r'.facts = r.facts ∧
          (∀ n < g.nodeCount, ∃ entry exit entry' exit',
            r.inFacts? n = some entry ∧ r.outFacts? n = some exit ∧
            r'.inFacts? n = some entry' ∧ r'.outFacts? n = some exit' ∧
            entry.toList ⊆ entry'.toList ∧ exit.toList ⊆ exit'.toList) ∧
          (g'.Within g → r'.ins = r.ins ∧ r'.outs = r.outs) := by
  refine ⟨exists_prepare_within h inside, ?_⟩
  intro a a' ha ha'
  have hprepared := prepared_of_prepare ha
  have hprepared' := prepared_of_prepare ha'
  have hfacts := facts_eq_of_within h ha ha'
  refine ⟨hfacts, ?_⟩
  intro options options' signal signal'
  obtain ⟨report, hr⟩ : ∃ report, a.solve? options signal = some report := hprepared.exists_report
  obtain ⟨report', hr'⟩ : ∃ report', a'.solve? options' signal' = some report' :=
    hprepared'.exists_report
  refine ⟨report, report', hr, hr', fun hnever => hprepared.exists_sets hnever hr,
    fun hnever => hprepared'.exists_sets hnever hr', ?_⟩
  intro r r' hok hok'
  refine ⟨?_, ?_, ?_⟩
  · rw [facts_of_solve? hr hok, facts_of_solve? hr' hok', hfacts]
  · intro n hn
    exact hprepared.facts_subset_of_within hprepared' hfacts h hr hok hr' hok' hn
  · intro hge
    exact hprepared.sets_eq_of_within hprepared' hfacts h hr hok hr' hok' hge

/-- With an edge from the second node of a loop back to the first one, nothing that came around before
is lost. -/
theorem writingLoop_within : ∃ a a', prepare FieldRef.byName .writingLoop = .ok a ∧
    prepare FieldRef.byName (FlowGraph.writingLoop.appendSuccessor 1 0) = .ok a' ∧
      a'.facts = a.facts ∧ ∀ options options', ∃ report report' r r' entry entry',
        a.solve? options none = some report ∧ report.outcome = .ok r ∧
          a'.solve? options' none = some report' ∧ report'.outcome = .ok r' ∧
            r.inFacts? 1 = some entry ∧ r'.inFacts? 1 = some entry' ∧
              entry.toList ⊆ entry'.toList := by
  obtain ⟨hready, hsame⟩ := prepare_within FieldRef.byName
    (FlowGraph.writingLoop.within_appendSuccessor 1 0) (by decide)
  obtain ⟨a, -, -, ha, -⟩ := exists_writingLoop
  obtain ⟨a', ha'⟩ := hready.mp ⟨a, ha⟩
  obtain ⟨hfacts, hsets⟩ := hsame a a' ha ha'
  refine ⟨a, a', ha, ha', hfacts, fun options options' => ?_⟩
  obtain ⟨report, report', hr, hr', hok, hok', hsubset⟩ := hsets options options' none none
  obtain ⟨r, hok⟩ := hok nofun
  obtain ⟨r', hok'⟩ := hok' nofun
  obtain ⟨entry, -, entry', -, hentry, -, hentry', -, hle, -⟩ :=
    (hsubset r r' hok hok').2.1 1 (by decide)
  exact ⟨report, report', r, r', entry, entry', hr, hok, hr', hok', hentry, hentry', hle⟩

end Analysis

end ReachingWrites
