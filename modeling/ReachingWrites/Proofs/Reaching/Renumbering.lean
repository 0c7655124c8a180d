import Mathlib.Data.List.Perm.Basic
import Mathlib.Logic.Equiv.Defs
import ReachingWrites.Proofs.Reaching.Positions
import ReachingWrites.Proofs.Reaching.Preparation

/-!
# Other numbers for the nodes

The numbers of the nodes say nothing about a procedure. A permutation of them changes the order of the
scan, and with it the index of every fact, the bits of every set, the order of the predecessors and the
visits of a solve; but the positions that reach a node are the same under its new number.

A permutation is one of all numbers that leaves the nodes of the graph among themselves; what it does to
other numbers does not matter. Since the inverse leads back, what is shown of paths and of writes in one
direction holds in the other one as well.
-/

set_option autoImplicit false

namespace ReachingWrites

variable {ι ρ F : Type}

namespace FlowGraph

/-- A graph is another one with its nodes renumbered by a permutation. The successors of a node are
those of the old one renumbered, in any order. -/
structure Renumbered (g : FlowGraph ι) (π : Equiv.Perm NodeId) (g' : FlowGraph ι) : Prop where
  /-- There are as many nodes. -/
  nodeCount : g'.nodeCount = g.nodeCount
  /-- The nodes of the graph stay among themselves. -/
  lt_iff : ∀ n, π n < g.nodeCount ↔ n < g.nodeCount
  /-- A node takes its instructions along. -/
  instructions : ∀ n, g'.instructions (π n) = g.instructions n
  /-- A node takes its edges along. -/
  mem_successors : ∀ m n, π n ∈ g'.successors (π m) ↔ n ∈ g.successors m

/-- The graph with its nodes renumbered by a permutation. -/
def renumber (g : FlowGraph ι) (π : Equiv.Perm NodeId) : FlowGraph ι where
  blocks := Array.ofFn fun i : Fin g.nodeCount =>
    { instructions := g.instructions (π.symm i), successors := (g.successors (π.symm i)).map π }

section Renumber

variable {g : FlowGraph ι} {π : Equiv.Perm NodeId} (h : ∀ n, π n < g.nodeCount ↔ n < g.nodeCount)
include h

private theorem getElem?_blocks_renumber (n : NodeId) : (g.renumber π).blocks[π n]? =
    g.blocks[n]?.map fun block => { block with successors := block.successors.map π } := by
  rw [renumber, Array.getElem?_ofFn]
  by_cases hn : n < g.nodeCount
  · have hblock : g.blocks[n]? = some g.blocks[n] := Array.getElem?_eq_getElem hn
    rw [dif_pos ((h n).mpr hn), hblock]
    simp only [π.symm_apply_apply, instructions, successors, hblock, Option.map_some]
  · have hblock : g.blocks[n]? = none := Array.getElem?_eq_none (Nat.le_of_not_lt hn)
    rw [dif_neg ((h n).not.mpr hn), hblock, Option.map_none]

/-- Every permutation that leaves the nodes among themselves renumbers the graph. -/
theorem renumbered_renumber : g.Renumbered π (g.renumber π) where
  nodeCount := Array.size_ofFn
  lt_iff := h
  instructions n := by
    rw [instructions, instructions, getElem?_blocks_renumber h]
    cases g.blocks[n]? with
    | none => rfl
    | some block => rfl
  mem_successors m n := by
    rw [successors, successors, getElem?_blocks_renumber h]
    cases g.blocks[m]? with
    | none => exact iff_of_false List.not_mem_nil List.not_mem_nil
    | some block => exact List.mem_map_of_injective π.injective

end Renumber

section Renumbered

variable {g g' : FlowGraph ι} {π : Equiv.Perm NodeId} (h : g.Renumbered π g')
include h

/-- The renumbering turned around leads back. -/
theorem Renumbered.symm : g'.Renumbered π.symm g where
  nodeCount := h.nodeCount.symm
  lt_iff n := by
    rw [h.nodeCount, ← h.lt_iff, π.apply_symm_apply]
  instructions n := by
    rw [← h.instructions, π.apply_symm_apply]
  mem_successors m n := by
    rw [← h.mem_successors, π.apply_symm_apply, π.apply_symm_apply]

/-- Where no edge leaves the graph, none does after renumbering. -/
theorem Renumbered.inside (inside : ∀ e ∈ g.edges, e.2 < g.nodeCount) :
    ∀ e ∈ g'.edges, e.2 < g'.nodeCount := by
  intro (source, target) hmem
  rw [mem_edges, ← h.symm.mem_successors, ← mem_edges] at hmem
  rw [← h.symm.lt_iff, h.nodeCount]
  exact inside _ hmem

/-- Renumbering moves instructions and neither drops nor repeats one. -/
theorem Renumbered.allInstructions_perm : g'.allInstructions.Perm g.allInstructions := by
  have hnodes : (g.nodes.map π).Perm g'.nodes := by
    refine (List.perm_ext_iff_of_nodup (List.nodup_range.map π.injective) List.nodup_range).mpr ?_
    intro n
    rw [List.mem_map, List.mem_range, h.nodeCount]
    constructor
    · intro hmem
      obtain ⟨m, hm, rfl⟩ := hmem
      exact (h.lt_iff m).mpr (List.mem_range.mp hm)
    · intro hn
      rw [← π.apply_symm_apply n, h.lt_iff] at hn
      exact ⟨π.symm n, List.mem_range.mpr hn, π.apply_symm_apply n⟩
  have hall : (g.nodes.map π).flatMap g'.instructions = g.allInstructions := by
    simp only [List.flatMap_map, h.instructions, allInstructions]
  rw [← hall]
  exact hnodes.symm.flatMap_right _

/-! ## Writes and their paths -/

variable [Instruction ι ρ] {resolve : ρ → Option F}

private theorem Renumbered.standsBefore {w : StaticWrite F} {after : List ι}
    (hstands : g.StandsBefore resolve w after) :
    g'.StandsBefore resolve { w with node := π w.node } after := by
  rwa [StandsBefore, h.instructions]

private theorem Renumbered.clear_iff {field : F} {n : NodeId} :
    g'.Clear resolve field (π n) ↔ g.Clear resolve field n := by
  rw [Clear, Clear, h.instructions]

private theorem Renumbered.clearPath {field : F} {source target : NodeId}
    (hpath : g.ClearPath resolve field source target) :
    g'.ClearPath resolve field (π source) (π target) := by
  refine hpath.induction (P := fun n => g'.ClearPath resolve field (π source) (π n)) ?_ ?_
  · intro n hn
    exact ⟨[], .edge ((h.mem_successors source n).mpr hn), by simp⟩
  · intro m hm hclear n hn
    exact hm.step (h.clear_iff.mpr hclear) ((h.mem_successors m n).mpr hn)

/-- The paths clear of a field are the same, node for node. -/
theorem Renumbered.clearPath_iff {field : F} {source target : NodeId} :
    g'.ClearPath resolve field (π source) (π target) ↔ g.ClearPath resolve field source target := by
  refine ⟨fun hpath => ?_, h.clearPath⟩
  have hback := h.symm.clearPath hpath
  rwa [π.symm_apply_apply, π.symm_apply_apply] at hback

variable {w : StaticWrite F} {after : List ι} {n : NodeId}

/-- A write reaches the entry of a node exactly when it does so after renumbering. -/
theorem Renumbered.reachesEntry_iff :
    g'.ReachesEntry resolve { w with node := π w.node } after (π n) ↔
      g.ReachesEntry resolve w after n :=
  and_congr_right fun _ => h.clearPath_iff

/-- A write reaches the exit of a node exactly when it does so after renumbering. -/
theorem Renumbered.reachesExit_iff :
    g'.ReachesExit resolve { w with node := π w.node } after (π n) ↔
      g.ReachesExit resolve w after n :=
  or_congr (and_congr_left fun _ => π.apply_eq_iff_eq) (and_congr h.reachesEntry_iff h.clear_iff)

end Renumbered

end FlowGraph

/-! ## The sets under other numbers -/

section Sets

variable [Instruction ι ρ] [DecidableEq F] {g g' : FlowGraph ι} {resolve : ρ → Option F}
  {π : Equiv.Perm NodeId}

/-- The analysis of a graph can be made ready after renumbering if it can before. -/
theorem Analysis.exists_prepare_renumbered [Describe ρ] {a : Analysis ι F}
    (h : prepare resolve g = .ok a) (hg : g.Renumbered π g') :
    ∃ a', prepare resolve g' = .ok a' := by
  obtain ⟨inside, hnumberable⟩ := exists_prepare_iff.mp ⟨a, h⟩
  exact exists_prepare_iff.mpr ⟨hg.inside inside, hnumberable.of_perm hg.allInstructions_perm⟩

/-- Sets that collect the same writes before and after renumbering have the same positions. -/
theorem FactSet.Collects.mem_positions_renumbered {s s' : FactSet F}
    {P P' : StaticWrite F → List ι → Prop} (h : s.Collects resolve g P)
    (h' : s'.Collects resolve g' P') (hg : g.Renumbered π g')
    (hsame : ∀ {w after}, P' { w with node := π w.node } after ↔ P w after) (p : Position) :
    p ∈ s'.positions ↔ p ∈ s.positions := by
  refine h.mem_positions_iff h'
    (R := fun w after w' after' => w' = { w with node := π w.node } ∧ after' = after) ?_ ?_ ?_ p
  · intro w after hstands
    exact ⟨_, after, ⟨rfl, rfl⟩, hg.standsBefore hstands⟩
  · intro w' after' hstands
    refine ⟨{ w' with node := π.symm w'.node }, after', ⟨?_, rfl⟩, hg.symm.standsBefore hstands⟩
    simp only [π.apply_symm_apply]
  · intro w after w' after' hR
    obtain ⟨rfl, rfl⟩ := hR
    exact ⟨rfl, hsame⟩

/-- A graph that has sets has them too when its nodes are renumbered, in any order of the visits and
with or without the check of growth, unless the signal asks to stop. The same positions enter a node
under its old number and under its new one, and the same positions leave it. -/
theorem Analysis.prepare_renumbered [Describe ρ] (hg : g.Renumbered π g') {a : Analysis ι F}
    (ha : prepare resolve g = .ok a) {options : SolveOptions} {signal : Option (Signal BitSet)}
    {report : Report F} (hr : a.solve? options signal = some report) {r : ReachingSets F}
    (hok : report.outcome = .ok r) :
    ∃ a', prepare resolve g' = .ok a' ∧ ∀ options' signal', ∃ report',
      a'.solve? options' signal' = some report' ∧
      ((∀ stop ∈ signal', ∀ journal, stop journal = false) → ∃ r', report'.outcome = .ok r') ∧
      ∀ r', report'.outcome = .ok r' → ∀ n < g.nodeCount, ∃ entry exit entry' exit',
        r.inFacts? n = some entry ∧ r.outFacts? n = some exit ∧
        r'.inFacts? (π n) = some entry' ∧ r'.outFacts? (π n) = some exit' ∧
        (∀ p, p ∈ entry'.positions ↔ p ∈ entry.positions) ∧
        ∀ p, p ∈ exit'.positions ↔ p ∈ exit.positions := by
  obtain ⟨a', ha'⟩ := exists_prepare_renumbered ha hg
  have hprepared := prepared_of_prepare ha
  have hprepared' := prepared_of_prepare ha'
  refine ⟨a', ha', fun options' signal' => ?_⟩
  obtain ⟨report', hr'⟩ : ∃ report', a'.solve? options' signal' = some report' :=
    hprepared'.exists_report
  refine ⟨report', hr', fun hnever => hprepared'.exists_sets hnever hr', ?_⟩
  intro r' hok' n hn
  have hn' : π n < g'.nodeCount := by
    rw [hg.nodeCount, hg.lt_iff]
    exact hn
  obtain ⟨entry, exit, hentry, hexit, -, -, hin, hout⟩ := hprepared.exists_facts hr hok hn
  obtain ⟨entry', exit', hentry', hexit', -, -, hin', hout'⟩ :=
    hprepared'.exists_facts hr' hok' hn'
  exact ⟨entry, exit, entry', exit', hentry, hexit, hentry', hexit',
    hin.mem_positions_renumbered hin' hg hg.reachesEntry_iff,
    hout.mem_positions_renumbered hout' hg hg.reachesExit_iff⟩

end Sets

/-- With the nodes of a loop exchanged, the write at the loop is numbered first, and the positions that
enter the loop are the same as before. -/
theorem Analysis.writingLoop_renumbered : ∃ a',
    prepare FieldRef.byName (FlowGraph.writingLoop.renumber (Equiv.swap 0 1)) = .ok a' ∧
      a'.facts.positions.indexOf? ⟨1⟩ = some 0 ∧ ∃ report' r' entry',
        a'.solve? {} none = some report' ∧ report'.outcome = .ok r' ∧ r'.inFacts? 0 = some entry' ∧
          ∀ p, p ∈ entry'.positions ↔ p = ⟨0⟩ ∨ p = ⟨1⟩ ∨ p = ⟨2⟩ := by
  have hrun : (((prepare FieldRef.byName .writingLoop).toOption.bind fun a =>
      (a.solve? {} none).bind fun report => report.outcome.toOption).bind fun r =>
        (r.inFacts? 1).map FactSet.positions) = some [⟨0⟩, ⟨1⟩, ⟨2⟩] := by
    decide +kernel
  have hfirst : (prepare FieldRef.byName
      (FlowGraph.writingLoop.renumber (Equiv.swap 0 1))).toOption.bind (fun a' =>
        a'.facts.positions.indexOf? ⟨1⟩) = some 0 := by
    decide +kernel
  obtain ⟨r, hr, hpositions⟩ := Option.bind_eq_some_iff.mp hrun
  obtain ⟨a, ha, hr⟩ := Option.bind_eq_some_iff.mp hr
  obtain ⟨report, hreport, hok⟩ := Option.bind_eq_some_iff.mp hr
  obtain ⟨entry, hentry, hpositions⟩ := Option.map_eq_some_iff.mp hpositions
  have hlt : ∀ n, Equiv.swap 0 1 n < FlowGraph.writingLoop.nodeCount ↔
      n < FlowGraph.writingLoop.nodeCount := by
    intro n
    match n with
    | 0 => decide
    | 1 => decide
    | n + 2 => rw [Equiv.swap_apply_of_ne_of_ne (by omega) (by omega)]
  obtain ⟨a', ha', hsets⟩ := prepare_renumbered (FlowGraph.renumbered_renumber hlt)
    (toOption_eq_some.mp ha) hreport (toOption_eq_some.mp hok)
  obtain ⟨report', hreport', hnever, hsame⟩ := hsets {} none
  obtain ⟨r', hok'⟩ := hnever nofun
  obtain ⟨entry₁, -, entry', -, hentry₁, -, hentry', -, hsame, -⟩ := hsame r' hok' 1 (by decide)
  obtain rfl := Option.some.inj (hentry.symm.trans hentry₁)
  rw [ha'] at hfirst
  refine ⟨a', ha', hfirst, report', r', entry', hreport', hok', hentry', fun p => ?_⟩
  rw [hsame, hpositions]
  simp

end ReachingWrites
