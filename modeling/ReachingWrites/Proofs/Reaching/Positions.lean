import ReachingWrites.Proofs.BitSet.Cursor
import ReachingWrites.Proofs.Reaching.Paths
import ReachingWrites.Proofs.Reaching.Termination

/-!
# The positions that reach a node

Two analyses number their facts each in its own way. What can be compared between them are the
positions of the writes. A set that collects the facts with some property has the positions of the
writes with that property, and the sets that are reported at a node collect the facts that reach its
entry and its exit.
-/

set_option autoImplicit false

namespace ReachingWrites

variable {ι ρ F : Type} [Instruction ι ρ] [DecidableEq F] {resolve : ρ → Option F} {g : FlowGraph ι}

/-! ## Sets of facts -/

namespace FactSet

omit [DecidableEq F] in
/-- The list of a fact set has the members of its bit set. -/
@[simp] theorem mem_toList {s : FactSet F} {i : Nat} : i ∈ s.toList ↔ i ∈ s.members :=
  BitSet.mem_toList

omit [DecidableEq F] in
/-- A smaller fact set lists some of the facts of a greater one. -/
theorem toList_subset {s s' : FactSet F} (h : FlowLattice.leq s.members s'.members = true) :
    s.toList ⊆ s'.toList := by
  intro i hi
  rw [mem_toList] at hi ⊢
  exact BitSet.leq_eq_true.mp h i hi

/-- A set of facts holds those whose writes have a property. The property may speak of the
instructions that follow the write in its node. -/
structure Collects (s : FactSet F) (resolve : ρ → Option F) (g : FlowGraph ι)
    (P : StaticWrite F → List ι → Prop) : Prop where
  /-- The facts are those of the graph. -/
  facts : s.facts.Lists resolve g
  /-- A fact is in the set if its write has the property. -/
  mem_members : ∀ i, i ∈ s.members ↔
    ∃ w after, s.facts.write? i = some w ∧ g.StandsBefore resolve w after ∧ P w after

/-- A set of facts collects those that it holds: each is a write, and stands before some
instructions. -/
private theorem Collects.of_fits {s : FactSet F} {P : StaticWrite F → List ι → Prop}
    (hfacts : s.facts.Lists resolve g) (hfits : s.members.Fits s.facts.size)
    (hholds : ∀ {i w after}, s.facts.write? i = some w → g.StandsBefore resolve w after →
      (i ∈ s.members ↔ P w after)) : s.Collects resolve g P where
  facts := hfacts
  mem_members i := by
    constructor
    · intro hi
      have hlt : i < s.facts.writes.size := hfits.lt hi
      have hw : s.facts.write? i = some s.facts.writes[i] := Array.getElem?_eq_getElem hlt
      obtain ⟨after, hstands⟩ := hfacts.exists_write?_iff.mp ⟨i, hw⟩
      exact ⟨_, after, hw, hstands, (hholds hw hstands).mp hi⟩
    · intro hw
      obtain ⟨w, after, hw, hstands, hP⟩ := hw
      exact (hholds hw hstands).mpr hP

/-- The positions of a set are those of the writes that it collects. -/
theorem Collects.mem_positions {s : FactSet F} {P : StaticWrite F → List ι → Prop}
    (h : s.Collects resolve g P) {p : Position} :
    p ∈ s.positions ↔ ∃ w after, g.StandsBefore resolve w after ∧ w.position = p ∧ P w after := by
  simp only [positions, List.mem_filterMap, mem_toList, h.mem_members, h.facts.get?_positions]
  constructor
  · intro hi
    obtain ⟨i, ⟨w, after, hw, hstands, hP⟩, hp⟩ := hi
    rw [h.facts.position_getElem? hw] at hp
    exact ⟨w, after, hstands, Option.some.inj hp, hP⟩
  · intro hw
    obtain ⟨w, after, hstands, rfl, hP⟩ := hw
    obtain ⟨i, hi⟩ := h.facts.exists_write?_iff.mpr ⟨after, hstands⟩
    exact ⟨i, ⟨w, after, hi, hstands, hP⟩, h.facts.position_getElem? hi⟩

/-- Let the writes of two graphs have counterparts in each other, at the same positions. Then sets that
collect counterparts alike have the same positions. -/
theorem Collects.mem_positions_iff {g' : FlowGraph ι} {s s' : FactSet F}
    {P P' : StaticWrite F → List ι → Prop} (h : s.Collects resolve g P)
    (h' : s'.Collects resolve g' P') {R : StaticWrite F → List ι → StaticWrite F → List ι → Prop}
    (forth : ∀ {w after}, g.StandsBefore resolve w after →
      ∃ w' after', R w after w' after' ∧ g'.StandsBefore resolve w' after')
    (back : ∀ {w' after'}, g'.StandsBefore resolve w' after' →
      ∃ w after, R w after w' after' ∧ g.StandsBefore resolve w after)
    (same : ∀ {w after w' after'}, R w after w' after' →
      w'.position = w.position ∧ (P' w' after' ↔ P w after)) (p : Position) :
    p ∈ s'.positions ↔ p ∈ s.positions := by
  rw [h.mem_positions, h'.mem_positions]
  constructor
  · intro hmem
    obtain ⟨w', after', hstands', rfl, hin⟩ := hmem
    obtain ⟨w, after, hR, hstands⟩ := back hstands'
    obtain ⟨hposition, hsame⟩ := same hR
    exact ⟨w, after, hstands, hposition.symm, hsame.mp hin⟩
  · intro hmem
    obtain ⟨w, after, hstands, rfl, hin⟩ := hmem
    obtain ⟨w', after', hR, hstands'⟩ := forth hstands
    obtain ⟨hposition, hsame⟩ := same hR
    exact ⟨w', after', hstands', hposition, hsame.mpr hin⟩

end FactSet

/-! ## The sets of a report -/

namespace Analysis

variable {a : Analysis ι F}

/-- A report has two sets for each node of the graph. They collect the facts that reach its entry and
those that reach its exit. -/
theorem Prepared.exists_facts (h : a.Prepared resolve g) {options : SolveOptions}
    {signal : Option (Signal BitSet)} {report : Report F}
    (hr : a.solve? options signal = some report) {r : ReachingSets F}
    (hok : report.outcome = .ok r) {n : NodeId} (hn : n < g.nodeCount) :
    ∃ entry exit, r.inFacts? n = some entry ∧ r.outFacts? n = some exit ∧
      entry.facts = a.facts ∧ exit.facts = a.facts ∧
      entry.Collects resolve g (g.ReachesEntry resolve · · n) ∧
      exit.Collects resolve g (g.ReachesExit resolve · · n) := by
  obtain ⟨solution, rfl, hleast⟩ := h.exists_isLeast hr hok
  have hn' : n < a.problem.graph.nodeCount := h.problem_nodeCount.symm ▸ hn
  obtain ⟨hentry, hexit⟩ := h.facts_eq_some hleast hn
  refine ⟨_, _, hentry, hexit, rfl, rfl, ?_, ?_⟩
  · exact .of_fits h.facts (hleast.mem_ins n hn') fun hw hstands =>
      h.mem_ins_iff hw hstands hleast hn
  · refine .of_fits h.facts (hleast.mem_outs n hn') fun hw hstands => ?_
    rw [h.mem_outs_iff hw hstands hleast hn, h.mem_ins_iff hw hstands hleast hn]
    exact Iff.rfl

end Analysis

end ReachingWrites
