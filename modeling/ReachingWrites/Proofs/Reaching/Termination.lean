import ReachingWrites.Proofs.Fixpoint.Effort
import ReachingWrites.Proofs.Reaching.Prepared

/-!
# An analysis always ends

A set of facts gains each fact once. So the sets that leave the nodes change no more often than there
are facts and nodes, and an analysis that has been made ready ends within the turns it takes, in
either order and with or without the check of growth. It ends with reaching sets unless its signal
asks it to stop.
-/

set_option autoImplicit false

namespace ReachingWrites

variable {ι ρ F : Type} [DecidableEq F]

namespace Analysis

section Prepared

variable [Instruction ι ρ] {a : Analysis ι F} {resolve : ρ → Option F} {g : FlowGraph ι}
  (h : a.Prepared resolve g) {options : SolveOptions} {signal : Option (Signal BitSet)}
include h

/-- The changes in a solve of an analysis make sets of the universe grow. -/
theorem Prepared.grows :
    State.Grows a.problem options signal () (BitSet.Fits a.facts.size) :=
  State.grows_of_monotoneOn h.predecessors a.problem_answers
    (BitSet.lawfulOn_fits a.facts.size) h.monotoneOn

/-- Every solve of an analysis comes to a report. -/
theorem Prepared.exists_report : ∃ report, a.solve? options signal = some report := by
  have hedges : a.problem.graph.edgeCount ≤ a.graph.edges.length := a.graph.edgeCount_le_length
  have hproduct := Nat.mul_le_mul_left a.facts.size hedges
  have hturns : a.problem.graph.nodeCount + a.facts.size * a.problem.graph.edgeCount < a.turns := by
    have hnodes : a.problem.graph.nodeCount = a.graph.nodeCount := rfl
    unfold turns
    omega
  obtain ⟨run, hrun⟩ := Problem.exists_solve?_of_grows h.grows
    (fun _ _ hascent => BitSet.ascent_le hascent) hturns
  exact ⟨_, Option.map_eq_some_iff.mpr ⟨run, hrun, rfl⟩⟩

/-- The only failure is that the signal asked to stop, when it was asked before a visit. -/
theorem Prepared.eq_cancelled {run : Run BitSet Unit}
    (hends : a.problem.Ends options signal () run) {failure : SolveFailure}
    (hfails : run.outcome = .error failure) :
    failure = .cancelled ∧ ∃ s stop, State.Reached a.problem options signal () s ∧
      s.worklist.pending ≠ [] ∧ signal = some stop ∧ stop s.journal = true ∧
        run.journal =
          s.journal.poll.write (.cancelled s.summary.visits s.worklist.pending.length) := by
  rcases hends.of_error hfails with ⟨hdiffer, -⟩ | hcancelled | ⟨s, node, -, rfl, -⟩
  · exact absurd (Predecessors.size_ofGraph h.predecessors) hdiffer
  · exact hcancelled
  · exact absurd hfails (hends.ne_nonMonotone h.predecessors a.problem_answers
      (BitSet.lawfulOn_fits a.facts.size) h.monotoneOn node)

/-- If the signal never asks to stop, a report holds reaching sets. -/
theorem Prepared.exists_sets (hnever : ∀ stop ∈ signal, ∀ journal, stop journal = false)
    {report : Report F} (hr : a.solve? options signal = some report) :
    ∃ r, report.outcome = .ok r := by
  obtain ⟨run, hends, -, houtcome⟩ := solve?_eq_some hr
  cases hrun : run.outcome with
  | ok solution =>
    rw [hrun] at houtcome
    exact ⟨_, houtcome⟩
  | error failure =>
    obtain ⟨-, s, stop, -, -, hstop, hstops, -⟩ := h.eq_cancelled hends hrun
    rw [hnever stop hstop s.journal] at hstops
    cases hstops

end Prepared

/-- An analysis that has been made ready ends, whatever the order of its visits and whether growth is
checked or not. It fails only if the signal answered that it is to stop when it was asked. Otherwise
the visits are one for each node and at most one more for each fact and distinct edge, and the changes
at most one for each fact and node. -/
theorem solve?_ends_or_cancelled [Instruction ι ρ] [Describe ρ] {resolve : ρ → Option F}
    {g : FlowGraph ι} {a : Analysis ι F} (h : prepare resolve g = .ok a) (options : SolveOptions)
    (signal : Option (Signal BitSet)) :
    ∃ report, a.solve? options signal = some report ∧
      (∀ failure, report.outcome = .error failure → failure = .cancelled ∧
        ∃ s stop, State.Reached a.problem options signal () s ∧ s.worklist.pending ≠ [] ∧
          signal = some stop ∧ stop s.journal = true ∧ report.journal =
            s.journal.poll.write (.cancelled s.summary.visits s.worklist.pending.length)) ∧
      ∀ r, report.outcome = .ok r →
        g.nodeCount ≤ r.summary.visits ∧
        r.summary.visits ≤ g.nodeCount + a.facts.size * g.edges.toFinset.card ∧
        r.summary.updates ≤ a.facts.size * g.nodeCount := by
  have hprepared := prepared_of_prepare h
  obtain ⟨report, hreport⟩ : ∃ report, a.solve? options signal = some report :=
    hprepared.exists_report
  refine ⟨report, hreport, ?_, ?_⟩
  · intro failure hfails
    obtain ⟨run, hends, hjournal, houtcome⟩ := solve?_eq_some hreport
    rw [houtcome] at hfails
    cases hrun : run.outcome with
    | ok solution =>
      rw [hrun] at hfails
      cases hfails
    | error cause =>
      rw [hrun] at hfails
      cases hfails
      rw [hjournal]
      obtain ⟨rfl, hstopped⟩ := hprepared.eq_cancelled hends hrun
      exact ⟨rfl, hstopped⟩
  · intro r hok
    obtain ⟨run, solution, hends, hrun, rfl⟩ := solve?_eq_ok hreport hok
    obtain ⟨hnodes, hvisits, hupdates⟩ := hends.summary_le hprepared.grows
      (fun _ _ hascent => BitSet.ascent_le hascent) hrun
    have hgraph : a.problem.graph = g := hprepared.graph
    rw [hgraph] at hnodes hvisits hupdates
    have hedges := Nat.mul_le_mul_left a.facts.size g.edgeCount_le_card
    exact ⟨hnodes, hvisits.trans (Nat.add_le_add_left hedges _), hupdates⟩

/-- Without a signal, the analysis of a loop ends with sets, and within the bounds. -/
theorem writingLoop_ends : ∃ a report, prepare FieldRef.byName .writingLoop = .ok a ∧
    a.solve? ⟨.reverse, false⟩ none = some report ∧
      (∀ failure, report.outcome ≠ .error failure) ∧
        ∀ r, report.outcome = .ok r → 2 ≤ r.summary.visits ∧
          r.summary.visits ≤ 2 + a.facts.size * 2 ∧ r.summary.updates ≤ a.facts.size * 2 := by
  obtain ⟨a, -, -, ha, -⟩ := exists_writingLoop
  obtain ⟨report, hreport, hfails, hok⟩ := solve?_ends_or_cancelled ha ⟨.reverse, false⟩ none
  refine ⟨a, report, ha, hreport, ?_, ?_⟩
  · intro failure hfailure
    obtain ⟨-, _, _, -, -, hsignal, -⟩ := hfails failure hfailure
    cases hsignal
  · intro r hr
    have hedges : FlowGraph.writingLoop.edges.toFinset.card = 2 := by decide
    have hbounds := hok r hr
    rwa [hedges] at hbounds

end Analysis

/-! ## A graph and its sets -/

section Analyze

variable [Instruction ι ρ] [Describe ρ] {resolve : ρ → Option F} {g : FlowGraph ι}
  {signal : Option (Signal BitSet)}

/-- The sets of a graph are those of its analysis, solved with the usual options. -/
theorem analyze?_eq_ok {report : Report F} (h : analyze? resolve g signal = some report)
    {r : ReachingSets F} (hok : report.outcome = .ok r) :
    ∃ a solved, Analysis.prepare resolve g = .ok a ∧ a.solve? {} signal = some solved ∧
      solved.outcome = .ok r := by
  unfold analyze? at h
  split at h
  next =>
    cases h
    cases hok
  next a ha =>
    obtain ⟨solved, hsolved, rfl⟩ := Option.map_eq_some_iff.mp h
    exact ⟨a, solved, ha, hsolved, hok⟩

/-- A graph whose analysis has been made ready has sets, if the signal never asks to stop. -/
theorem exists_analyze? {a : Analysis ι F} (h : Analysis.prepare resolve g = .ok a)
    (hnever : ∀ stop ∈ signal, ∀ journal, stop journal = false) :
    ∃ report solved r, analyze? resolve g signal = some report ∧ report.outcome = .ok r ∧
      a.solve? {} signal = some solved ∧ solved.outcome = .ok r := by
  have hprepared := Analysis.prepared_of_prepare h
  obtain ⟨solved, hsolved⟩ : ∃ solved, a.solve? {} signal = some solved :=
    hprepared.exists_report
  obtain ⟨r, hok⟩ := hprepared.exists_sets hnever hsolved
  have hreport : analyze? resolve g signal = some ⟨solved.outcome,
      { solved.journal with log := #[a.facts.numbered g] ++ solved.journal.log }⟩ := by
    simp only [analyze?, h, hsolved, Option.map_some]
  exact ⟨_, solved, r, hreport, hok, hsolved, hok⟩

end Analyze

end ReachingWrites
