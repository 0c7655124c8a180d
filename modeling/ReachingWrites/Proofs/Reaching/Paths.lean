import ReachingWrites.Proofs.Facts.Places
import ReachingWrites.Proofs.Reaching.Prepared

/-!
# Reaching along paths

A static write reaches the entry of a node if a path leads from its node to that node on which nothing
overwrites it: no instruction after the write in its own node, and none in the nodes between, writes
the same field. It reaches the exit of a node if it is a write of the node that is not overwritten
there, or if it reaches the entry and the node does not write its field. The sets that an analysis
reports hold exactly the writes that reach.

One direction goes along a path: what reaches the entry of a node on the path leaves it again. For the
other one, take every set without the fact wherever it does not reach. These sets are closed under the
equations, so the least solution lies below them.
-/

set_option autoImplicit false

namespace ReachingWrites

variable {ι ρ F : Type}

/-! ## Paths -/

namespace FlowGraph

/-- A path of at least one edge from a node to another one, with the nodes between them in order. -/
inductive Path (g : FlowGraph ι) (source : NodeId) : List NodeId → NodeId → Prop where
  /-- An edge is a path with nothing between. -/
  | edge {target : NodeId} (last : target ∈ g.successors source) : Path g source [] target
  /-- A path goes on with an edge from where it has come. -/
  | step {inner : List NodeId} {middle target : NodeId} (before : Path g source inner middle)
      (last : target ∈ g.successors middle) : Path g source (inner ++ [middle]) target

/-- A path leads from a node to another one, and no node between them writes a field. -/
def ClearPath [Instruction ι ρ] (g : FlowGraph ι) (resolve : ρ → Option F) (field : F)
    (source target : NodeId) : Prop :=
  ∃ inner, g.Path source inner target ∧ ∀ m ∈ inner, g.Clear resolve field m

variable [Instruction ι ρ] {g : FlowGraph ι} {resolve : ρ → Option F} {field : F}
  {source middle target : NodeId}

/-- A clear path goes on by an edge if its last node does not write the field. -/
theorem ClearPath.step (h : g.ClearPath resolve field source middle)
    (hclear : g.Clear resolve field middle) (last : target ∈ g.successors middle) :
    g.ClearPath resolve field source target := by
  obtain ⟨inner, hpath, hinner⟩ := h
  refine ⟨inner ++ [middle], hpath.step last, ?_⟩
  intro m hm
  rcases List.mem_append.mp hm with hm | hm
  · exact hinner m hm
  · rw [List.mem_singleton] at hm
    exact hm ▸ hclear

/-- What holds after every edge from the source, and is carried along the edges from every node that
does not write the field, holds at the end of a path. -/
theorem ClearPath.induction {P : NodeId → Prop} (h : g.ClearPath resolve field source target)
    (edge : ∀ n ∈ g.successors source, P n)
    (carry : ∀ m, P m → g.Clear resolve field m → ∀ n ∈ g.successors m, P n) : P target := by
  obtain ⟨inner, hpath, hinner⟩ := h
  induction hpath with
  | edge last => exact edge _ last
  | @step inner middle _ _ last ih =>
    refine carry middle (ih fun m hm => hinner m (List.mem_append_left _ hm)) ?_ _ last
    exact hinner middle (List.mem_append_right _ (List.mem_singleton.mpr rfl))

end FlowGraph

/-! ## Reaching -/

namespace FlowGraph

variable [Instruction ι ρ]

/-- A write with the instructions `after` it in its node reaches the entry of a node: none of them
overwrites it, and a path leads to the node on which nothing else does. -/
def ReachesEntry (g : FlowGraph ι) (resolve : ρ → Option F) (w : StaticWrite F) (after : List ι)
    (n : NodeId) : Prop :=
  (∀ x ∈ after, ¬ Instruction.Writes resolve w.field x) ∧ g.ClearPath resolve w.field w.node n

/-- A write reaches the exit of a node: it is in the node and no later instruction there overwrites
it, or it reaches the entry and no instruction of the node does. -/
def ReachesExit (g : FlowGraph ι) (resolve : ρ → Option F) (w : StaticWrite F) (after : List ι)
    (n : NodeId) : Prop :=
  (n = w.node ∧ ∀ x ∈ after, ¬ Instruction.Writes resolve w.field x) ∨
    (g.ReachesEntry resolve w after n ∧ g.Clear resolve w.field n)

/-- What reaches the exit of a node reaches the entry of its successors. -/
theorem ReachesExit.reachesEntry {g : FlowGraph ι} {resolve : ρ → Option F} {w : StaticWrite F}
    {after : List ι} {q n : NodeId} (h : g.ReachesExit resolve w after q)
    (hn : n ∈ g.successors q) : g.ReachesEntry resolve w after n := by
  rcases h with ⟨rfl, hafter⟩ | ⟨⟨hafter, hpath⟩, hclear⟩
  · exact ⟨hafter, [], .edge hn, by simp⟩
  · exact ⟨hafter, hpath.step hclear hn⟩

end FlowGraph

/-- All indices below a bound, but one of them only if a condition holds. -/
def BitSet.allBut (n i : Nat) (P : Prop) [Decidable P] : BitSet :=
  BitSet.ofIndices n ((List.range n).filter fun j => decide (j ≠ i ∨ P))

private theorem BitSet.fits_allBut (n i : Nat) (P : Prop) [Decidable P] :
    (BitSet.allBut n i P).Fits n :=
  BitSet.fits_ofIndices n _

private theorem BitSet.mem_allBut {n i : Nat} {P : Prop} [Decidable P] {j : Nat} :
    j ∈ BitSet.allBut n i P ↔ j < n ∧ (j ≠ i ∨ P) := by
  rw [BitSet.allBut, BitSet.mem_ofIndices, List.mem_filter, List.mem_range, decide_eq_true_iff]
  tauto

/-! ## The sets of an analysis -/

namespace Analysis

variable [DecidableEq F] [Instruction ι ρ] {a : Analysis ι F} {resolve : ρ → Option F}
  {g : FlowGraph ι} (h : a.Prepared resolve g)

include h in
/-- A fact enters a node when it leaves one that control may come from. -/
theorem Prepared.mem_entering {outs : NodeId → BitSet} {n : NodeId}
    (houts : ∀ q < g.nodeCount, (outs q).Fits a.facts.size) {i : Nat} :
    i ∈ a.problem.entering outs n ↔ ∃ q, n ∈ g.successors q ∧ i ∈ outs q := by
  have hpreds (q : NodeId) : q ∈ a.problem.predecessors.of n ↔ n ∈ g.successors q := by
    rw [← h.graph]
    exact Predecessors.mem_of_ofGraph h.predecessors
  have hvalues : ∀ t ∈ (a.problem.predecessors.of n).map outs, t.Fits a.facts.size := by
    intro t ht
    obtain ⟨q, hq, rfl⟩ := List.mem_map.mp ht
    exact houts q (FlowGraph.lt_nodeCount_of_mem_successors ((hpreds q).mp hq))
  have hbottom : a.problem.bottom.Fits a.facts.size := BitSet.fits_empty a.facts.size
  have hnone : i ∉ a.problem.bottom := BitSet.notMem_empty a.facts.size i
  rw [Problem.entering, hbottom.mem_joinAll hvalues]
  simp only [hnone, false_or, List.mem_map, exists_exists_and_eq_and, hpreds]

section Fact

variable {i : Nat} {w : StaticWrite F} {after : List ι} (hw : a.facts.write? i = some w)
  (hstands : g.StandsBefore resolve w after)
include h hw hstands

/-- A fact leaves a node as its instruction does. -/
theorem Prepared.mem_flow_iff {n : NodeId} (hn : n < g.nodeCount) {s : BitSet}
    (hs : s.Fits a.facts.size) :
    i ∈ a.flow n s ↔ (n = w.node ∧ ∀ x ∈ after, ¬ Instruction.Writes resolve w.field x) ∨
      (i ∈ s ∧ g.Clear resolve w.field n) := by
  obtain ⟨earlier, later, hsplit, rfl, hlater⟩ := h.facts.exists_split hw hstands
  rw [h.mem_flow hn hsplit hs, h.facts.clear_iff]
  refine or_congr_left ?_
  constructor
  · intro hlast
    obtain ⟨rfl, hnone⟩ := hlast
    exact ⟨rfl, hlater.mp hnone⟩
  · intro hlast
    obtain ⟨rfl, hnone⟩ := hlast
    exact ⟨rfl, hlater.mpr hnone⟩

/-- The sets without the fact wherever it does not reach are closed under the equations. -/
theorem Prepared.isPreSolution_allBut [∀ n, Decidable (g.ReachesEntry resolve w after n)]
    [∀ n, Decidable (g.ReachesExit resolve w after n)] :
    a.problem.IsPreSolution a.flow
      (fun n => BitSet.allBut a.facts.size i (g.ReachesEntry resolve w after n))
      (fun n => BitSet.allBut a.facts.size i (g.ReachesExit resolve w after n)) where
  bottom_le n _ := Transfer.empty_leq a.facts.size _
  outs_le n _ q hq := by
    have hn : n ∈ g.successors q := by
      rw [← h.graph]
      exact (Predecessors.mem_of_ofGraph h.predecessors).mp hq
    rw [BitSet.leq_eq_true]
    intro j hj
    rw [BitSet.mem_allBut] at hj ⊢
    exact hj.imp_right fun hor => hor.imp_right fun hexit => hexit.reachesEntry hn
  transfer_le n hn := by
    have hlt : n < g.nodeCount := h.problem_nodeCount ▸ hn
    have hfits := BitSet.fits_allBut a.facts.size i (g.ReachesEntry resolve w after n)
    rw [BitSet.leq_eq_true]
    intro j hj
    have hjlt : j < a.facts.size := ((h.fits_transfer hlt).apply hfits).lt hj
    rw [BitSet.mem_allBut]
    refine ⟨hjlt, ?_⟩
    by_cases hji : j = i
    · subst hji
      rw [h.mem_flow_iff hw hstands hlt hfits, BitSet.mem_allBut] at hj
      refine .inr (hj.imp_right fun hin => ⟨?_, hin.2⟩)
      exact hin.1.2.resolve_left fun hne => hne rfl
    · exact .inl hji

variable {solution : Solution BitSet}
  (hleast : a.problem.IsLeast a.flow (BitSet.Fits a.facts.size) solution)
include hleast

/-- A fact leaves a node if it is the last write of its field there, or enters it and the field is not
written. -/
theorem Prepared.mem_outs_iff {n : NodeId} (hn : n < g.nodeCount) :
    i ∈ solution.outs.getD n a.problem.bottom ↔
      (n = w.node ∧ ∀ x ∈ after, ¬ Instruction.Writes resolve w.field x) ∨
        (i ∈ solution.ins.getD n a.problem.bottom ∧ g.Clear resolve w.field n) := by
  have hn' : n < a.problem.graph.nodeCount := h.problem_nodeCount.symm ▸ hn
  rw [hleast.solves.equations.leaves n hn']
  exact h.mem_flow_iff hw hstands hn (hleast.mem_ins n hn')

/-- The least solution lets a fact enter exactly the nodes whose entry it reaches. -/
theorem Prepared.mem_ins_iff {n : NodeId} (hn : n < g.nodeCount) :
    i ∈ solution.ins.getD n a.problem.bottom ↔ g.ReachesEntry resolve w after n := by
  have hcount := h.problem_nodeCount
  constructor
  · intro hi
    classical
    have hbelow := hleast.le _ _ (fun _ _ => ⟨BitSet.fits_allBut _ _ _, BitSet.fits_allBut _ _ _⟩)
      (h.isPreSolution_allBut hw hstands) n (hcount.symm ▸ hn)
    have hmem := BitSet.leq_eq_true.mp hbelow.1 i hi
    rw [BitSet.mem_allBut] at hmem
    exact hmem.2.resolve_left fun hne => hne rfl
  · intro hreaches
    obtain ⟨hafter, hpath⟩ := hreaches
    -- a fact that leaves a node enters its successors
    have hedge {q m : NodeId} (hm : m ∈ g.successors q)
        (hq : i ∈ solution.outs.getD q a.problem.bottom) :
        i ∈ solution.ins.getD m a.problem.bottom := by
      have hlt : m < a.problem.graph.nodeCount := hcount.symm ▸ h.lt_of_mem_successors hm
      rw [hleast.solves.equations.enters m hlt]
      exact (h.mem_entering fun p hp => hleast.mem_outs p (hcount.symm ▸ hp)).mpr ⟨q, hm, hq⟩
    refine hpath.induction (fun m hm => hedge hm ?_) fun m hi hclear m' hm' => hedge hm' ?_
    · have hlt := FlowGraph.lt_nodeCount_of_mem_successors hm
      exact (h.mem_outs_iff hw hstands hleast hlt).mpr (.inl ⟨rfl, hafter⟩)
    · have hlt := FlowGraph.lt_nodeCount_of_mem_successors hm'
      exact (h.mem_outs_iff hw hstands hleast hlt).mpr (.inr ⟨hi, hclear⟩)

end Fact

end Analysis

/-! ## The sets of a solution -/

namespace ReachingSets

private theorem inFacts?_ofSolution (facts : Facts F) {solution : Solution BitSet} {n : NodeId}
    (hn : n < solution.ins.size) (bottom : BitSet) :
    (ofSolution facts solution).inFacts? n = some ⟨solution.ins.getD n bottom, facts⟩ := by
  rw [inFacts?, ofSolution, Array.getD_eq_getD_getElem?, Array.getElem?_eq_getElem hn]
  rfl

private theorem outFacts?_ofSolution (facts : Facts F) {solution : Solution BitSet} {n : NodeId}
    (hn : n < solution.outs.size) (bottom : BitSet) :
    (ofSolution facts solution).outFacts? n = some ⟨solution.outs.getD n bottom, facts⟩ := by
  rw [outFacts?, ofSolution, Array.getD_eq_getD_getElem?, Array.getElem?_eq_getElem hn]
  rfl

end ReachingSets

namespace Analysis

variable [DecidableEq F] [Instruction ι ρ] {a : Analysis ι F} {resolve : ρ → Option F}
  {g : FlowGraph ι}

/-- The values of a least solution are the sets at the nodes. -/
theorem Prepared.facts_eq_some (h : a.Prepared resolve g) {solution : Solution BitSet}
    (hleast : a.problem.IsLeast a.flow (BitSet.Fits a.facts.size) solution) {n : NodeId}
    (hn : n < g.nodeCount) :
    (ReachingSets.ofSolution a.facts solution).inFacts? n =
        some ⟨solution.ins.getD n a.problem.bottom, a.facts⟩ ∧
      (ReachingSets.ofSolution a.facts solution).outFacts? n =
        some ⟨solution.outs.getD n a.problem.bottom, a.facts⟩ := by
  have hin : n < solution.ins.size := by
    rw [hleast.solves.size_ins, h.problem_nodeCount]
    exact hn
  have hout : n < solution.outs.size := by
    rw [hleast.solves.size_outs, h.problem_nodeCount]
    exact hn
  exact ⟨ReachingSets.inFacts?_ofSolution a.facts hin _,
    ReachingSets.outFacts?_ofSolution a.facts hout _⟩

/-- The facts are the static writes of the graph, and the reported sets hold those that reach: at the
entry of a node the writes that a path leads from on which nothing overwrites them, at its exit those
of its own writes that nothing there overwrites later, and of the others those that entered and that
it does not overwrite. -/
theorem solve?_reaches [Describe ρ] (ha : prepare resolve g = .ok a) {options : SolveOptions}
    {signal : Option (Signal BitSet)} {report : Report F}
    (hr : a.solve? options signal = some report) {r : ReachingSets F}
    (hok : report.outcome = .ok r) :
    (∀ w, (∃ i, r.facts.write? i = some w) ↔ ∃ after, g.StandsBefore resolve w after) ∧
      ∀ i w after, r.facts.write? i = some w → g.StandsBefore resolve w after →
        ∀ n < g.nodeCount, ∃ entry exit, r.inFacts? n = some entry ∧ r.outFacts? n = some exit ∧
          (entry.contains i = true ↔ g.ReachesEntry resolve w after n) ∧
          (exit.contains i = true ↔
            (n = w.node ∧ ∀ x ∈ after, ¬ Instruction.Writes resolve w.field x) ∨
              (entry.contains i = true ∧ g.Clear resolve w.field n)) := by
  have h := prepared_of_prepare ha
  obtain ⟨run, solution, hends, hrun, rfl⟩ := solve?_eq_ok hr hok
  have hleast := hends.isLeast h.predecessors a.problem_answers
    (BitSet.lawfulOn_fits a.facts.size) h.monotoneOn hrun
  constructor
  · intro w
    exact h.facts.exists_write?_iff
  intro i w after hw hstands n hn
  obtain ⟨hentry, hexit⟩ := h.facts_eq_some hleast hn
  have hn' : n < a.problem.graph.nodeCount := h.problem_nodeCount.symm ▸ hn
  -- what the sets contain are their bits
  have hin : FactSet.contains ⟨solution.ins.getD n a.problem.bottom, a.facts⟩ i = true ↔ _ :=
    (hleast.mem_ins n hn').contains_eq_true
  have hout : FactSet.contains ⟨solution.outs.getD n a.problem.bottom, a.facts⟩ i = true ↔ _ :=
    (hleast.mem_outs n hn').contains_eq_true
  refine ⟨_, _, hentry, hexit, ?_, ?_⟩
  · rw [hin, h.mem_ins_iff hw hstands hleast hn]
  · rw [hout, hin, h.mem_outs_iff hw hstands hleast hn]

end Analysis

/-- The second write of `x` comes around to its own node, and not to the first one. -/
theorem Analysis.writingLoop_reaches : ∃ a report r,
    prepare FieldRef.byName .writingLoop = .ok a ∧
      a.solve? ⟨.reverse, false⟩ none = some report ∧ report.outcome = .ok r ∧
        r.facts.write? 1 = some ⟨1, ⟨1⟩, "x"⟩ ∧
          FlowGraph.writingLoop.StandsBefore FieldRef.byName ⟨1, ⟨1⟩, "x"⟩
            [⟨⟨2⟩, .putStatic ⟨"A", "y"⟩⟩] ∧
          FlowGraph.writingLoop.ReachesEntry FieldRef.byName ⟨1, ⟨1⟩, "x"⟩
            [⟨⟨2⟩, .putStatic ⟨"A", "y"⟩⟩] 1 ∧
          ¬ FlowGraph.writingLoop.ReachesEntry FieldRef.byName ⟨1, ⟨1⟩, "x"⟩
            [⟨⟨2⟩, .putStatic ⟨"A", "y"⟩⟩] 0 := by
  obtain ⟨a, report, r, ha, hreport, hr, hins, -, hw⟩ := exists_writingLoop
  have hstands : FlowGraph.writingLoop.StandsBefore FieldRef.byName ⟨1, ⟨1⟩, "x"⟩
      [⟨⟨2⟩, .putStatic ⟨"A", "y"⟩⟩] :=
    ⟨[], ⟨⟨1⟩, .putStatic ⟨"B", "x"⟩⟩, rfl, rfl, ⟨"B", "x"⟩, rfl, rfl⟩
  obtain ⟨-, hreaches⟩ := solve?_reaches ha hreport hr
  obtain ⟨entry, _, hentry, -, hiff, -⟩ := hreaches 1 _ _ hw hstands 1 (by decide)
  obtain ⟨entry', _, hentry', -, hiff', -⟩ := hreaches 1 _ _ hw hstands 0 (by decide)
  rw [ReachingSets.inFacts?, hins] at hentry hentry'
  cases hentry
  cases hentry'
  have hin : (⟨3, #[7]⟩ : BitSet).contains 1 = true := by decide +kernel
  have hout : (⟨3, #[0]⟩ : BitSet).contains 1 = false := by decide +kernel
  refine ⟨a, report, r, ha, hreport, hr, hw, hstands, hiff.mp hin, ?_⟩
  intro h
  have hcontains : (⟨3, #[0]⟩ : BitSet).contains 1 = true := hiff'.mpr h
  rw [hout] at hcontains
  cases hcontains

end ReachingWrites
