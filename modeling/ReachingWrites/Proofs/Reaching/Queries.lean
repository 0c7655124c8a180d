import Mathlib.Data.List.Nodup
import ReachingWrites.Proofs.BitSet.Cursor
import ReachingWrites.Proofs.Facts.Places
import ReachingWrites.Proofs.Reaching.Paths

/-!
# What the questions about a result answer

The facts at a node can be asked for in many ways: one by one or all of them, by index or by position,
for one field or for all. The answers are views of one list, that of the members in ascending order.
`FactSet.Answers` says what each question has to do with it.

Some of the questions look a member up among the facts and pass over one that they do not find there,
and others know the indices below the bound only. That none of them misses a member is no property of
the questions. It holds because a solve makes no set with a member that is not the index of a fact,
and because the facts of a graph have their positions and their writes at the same indices.
-/

set_option autoImplicit false

namespace ReachingWrites

variable {ι ρ F : Type} [DecidableEq F]

/-! ## Looking facts up -/

namespace Facts

variable [Instruction ι ρ] {f : Facts F} {resolve : ρ → Option F} {g : FlowGraph ι}
  (h : f.Lists resolve g)
include h

/-- Every fact has a position. -/
theorem Lists.isSome_get?_positions {i : Nat} (hi : i < f.size) :
    (f.positions.get? i).isSome = true := by
  rw [h.get?_positions, Option.isSome_iff_ne_none, ne_eq, List.getElem?_eq_none_iff, List.length_map,
    ← h.size_eq]
  exact Nat.not_le_of_lt hi

end Facts

namespace FactSet

/-- All questions about the facts at a place are answered from the list of the members. -/
structure Answers (s : FactSet F) (r : ReachingSets F) : Prop where
  /-- The members are facts of the result. -/
  lt : ∀ i ∈ s.toList, i < r.factCount
  ascending : s.toList.Pairwise (· < ·)
  size : s.size = s.toList.length
  isEmpty : s.isEmpty = true ↔ s.toList = []
  /-- Every index may be asked for, one out of range too. -/
  contains : ∀ i, s.contains i = true ↔ i ∈ s.toList
  /-- Each member has a position, and the positions stand in the order of the members. -/
  positions : s.positions.map some = s.toList.map r.factAt?
  nodup_positions : s.positions.Nodup
  mem_positions : ∀ p, p ∈ s.positions ↔ ∃ i ∈ s.toList, r.factIndex? p = some i
  containsPosition : ∀ p, s.containsPosition p = true ↔ p ∈ s.positions
  /-- The members that write a field are told by the fields of the members. -/
  writesOf : ∀ field, s.writesOf field = s.toList.filter fun i => decide (r.fieldOf? i = some field)
  /-- They are told by the set of all writes of the field too. -/
  writesOf_of_written : ∀ field all, r.facts.writesOf? field = some all →
    s.writesOf field = s.toList.filter all.contains
  writesOf_of_unwritten : ∀ field, r.facts.writesOf? field = none → s.writesOf field = []

omit [DecidableEq F] in
/-- A fact set is empty if it lists no fact. -/
theorem isEmpty_eq_true {s : FactSet F} : s.isEmpty = true ↔ s.toList = [] := by
  rw [isEmpty, BitSet.isEmpty_eq_true, toList, List.eq_nil_iff_forall_not_mem]
  simp only [BitSet.mem_toList]

/-- A member is a write of a field if its own field is that one. -/
theorem writes_eq (s : FactSet F) (field : F) (i : Nat) :
    s.writes field i = decide ((s.facts.write? i).map StaticWrite.field = some field) := by
  unfold writes
  cases s.facts.write? i <;> simp

section Fits

variable [Instruction ι ρ] {s : FactSet F} {resolve : ρ → Option F} {g : FlowGraph ι}
  (hfacts : s.facts.Lists resolve g) (hfits : s.members.Fits s.facts.size)

include hfits in
omit [DecidableEq F] [Instruction ι ρ] in
/-- The facts of a set of the universe are numbered. -/
theorem lt_of_mem_toList {i : Nat} (hi : i ∈ s.toList) : i < s.facts.size :=
  hfits.lt (BitSet.mem_toList.mp hi)

include hfits in
omit [DecidableEq F] [Instruction ι ρ] in
/-- A set contains the facts that it lists. -/
theorem contains_eq_true {i : Nat} : s.contains i = true ↔ i ∈ s.toList :=
  hfits.contains_eq_true.trans BitSet.mem_toList.symm

omit [DecidableEq F] [Instruction ι ρ] in
/-- The positions of a set are those of its facts. -/
theorem mem_positions {p : Position} :
    p ∈ s.positions ↔ ∃ i ∈ s.toList, s.facts.positions.indexOf? p = some i := by
  simp only [positions, List.mem_filterMap, Ordinals.indexOf?_eq_some]

include hfacts hfits in
/-- No member is passed over when the positions are asked for. -/
theorem map_some_positions :
    s.positions.map some = s.toList.map s.facts.positions.get? := by
  rw [positions, List.map_filterMap_some_eq_filter_map_isSome, List.filter_eq_self]
  intro position hposition
  obtain ⟨i, hi, rfl⟩ := List.mem_map.mp hposition
  exact hfacts.isSome_get?_positions (lt_of_mem_toList hfits hi)

omit [DecidableEq F] [Instruction ι ρ] in
/-- No two members have one position. -/
theorem nodup_positions : s.positions.Nodup := by
  apply List.Nodup.filterMap
  · intro i j p hi hj
    have hindex := Ordinals.indexOf?_eq_some.mpr hi
    rw [Ordinals.indexOf?_eq_some.mpr hj] at hindex
    exact (Option.some.inj hindex).symm
  · exact (BitSet.pairwise_toList s.members).imp Nat.ne_of_lt

include hfits in
omit [DecidableEq F] [Instruction ι ρ] in
/-- A set contains the positions that it lists. -/
theorem containsPosition_eq_true {p : Position} :
    s.containsPosition p = true ↔ p ∈ s.positions := by
  rw [mem_positions, containsPosition]
  cases s.facts.positions.indexOf? p with
  | none => simp
  | some i =>
    have hcontains : s.members.contains i = true ↔ i ∈ s.toList := contains_eq_true hfits
    simp [hcontains]

include hfacts in
/-- A member writes a field exactly when it is in the set of the field. -/
theorem writes_eq_contains {field : F} {all : BitSet} (hall : s.facts.writesOf? field = some all)
    (i : Nat) : s.writes field i = all.contains i := by
  have hindex := hfacts.indexed.mem_writesOf field i
  rw [hall, Option.getD_some] at hindex
  rw [writes_eq, Bool.eq_iff_iff, decide_eq_true_iff, Option.map_eq_some_iff,
    (hfacts.indexed.fits field all hall).contains_eq_true, hindex]

include hfacts in
/-- A field without a set is written by no member. -/
theorem writes_eq_false {field : F} (hnone : s.facts.writesOf? field = none) (i : Nat) :
    s.writes field i = false := by
  have hindex := hfacts.indexed.mem_writesOf field i
  rw [hnone, Option.getD_none] at hindex
  rw [writes_eq, decide_eq_false_iff_not, Option.map_eq_some_iff, ← hindex]
  exact BitSet.notMem_empty _ i

include hfacts hfits in
/-- Over the facts of a graph, a set of fact indices answers all questions from its members. -/
theorem answers {r : ReachingSets F} (hr : r.facts = s.facts) : s.Answers r where
  lt i hi := by
    rw [ReachingSets.factCount, hr]
    exact lt_of_mem_toList hfits hi
  ascending := s.members.pairwise_toList
  size := s.members.length_toList.symm
  isEmpty := isEmpty_eq_true
  contains _ := contains_eq_true hfits
  positions := by
    rw [map_some_positions hfacts hfits, ← hr]
    rfl
  nodup_positions := nodup_positions
  mem_positions p := by
    rw [mem_positions, ← hr]
    rfl
  containsPosition _ := containsPosition_eq_true hfits
  writesOf field := by
    apply List.filter_congr
    intro i _
    rw [writes_eq, ← hr]
    rfl
  writesOf_of_written field all hall := by
    rw [hr] at hall
    exact List.filter_congr fun i _ => writes_eq_contains hfacts hall i
  writesOf_of_unwritten field hnone := by
    rw [hr] at hnone
    rw [FactSet.writesOf, List.filter_eq_nil_iff]
    intro i _
    rw [writes_eq_false hfacts hnone]
    exact Bool.false_ne_true

end Fits

end FactSet

/-! ## The questions about a result -/

namespace ReachingSets

omit [DecidableEq F] in
/-- There is no set at the entry of a node that is not in the table. -/
theorem inFacts?_eq_none {r : ReachingSets F} {n : NodeId} :
    r.inFacts? n = none ↔ r.ins.size ≤ n := by
  rw [inFacts?, Option.map_eq_none_iff, Array.getElem?_eq_none_iff]

omit [DecidableEq F] in
/-- There is no set at the exit of a node that is not in the table. -/
theorem outFacts?_eq_none {r : ReachingSets F} {n : NodeId} :
    r.outFacts? n = none ↔ r.outs.size ≤ n := by
  rw [outFacts?, Option.map_eq_none_iff, Array.getElem?_eq_none_iff]

end ReachingSets

namespace Analysis

variable [Instruction ι ρ] [Describe ρ] {resolve : ρ → Option F} {g : FlowGraph ι}
  {a : Analysis ι F}

section Report

variable {options : SolveOptions} {signal : Option (Signal BitSet)} {report : Report F}
  {r : ReachingSets F}

omit [Describe ρ] in
/-- A result has the facts of its graph, and two sets of them for each node. -/
theorem Prepared.sizes_and_fits (h : a.Prepared resolve g)
    (hr : a.solve? options signal = some report) (hok : report.outcome = .ok r) :
    r.ins.size = g.nodeCount ∧ r.outs.size = g.nodeCount ∧ r.facts = a.facts ∧
      ∀ n s, r.inFacts? n = some s ∨ r.outFacts? n = some s →
        s.facts = a.facts ∧ s.members.Fits a.facts.size := by
  obtain ⟨solution, rfl, hleast⟩ := h.exists_isLeast hr hok
  have hins : solution.ins.size = g.nodeCount := by rw [hleast.solves.size_ins, h.problem_nodeCount]
  have houts : solution.outs.size = g.nodeCount := by rw [hleast.solves.size_outs, h.problem_nodeCount]
  refine ⟨hins, houts, rfl, fun n s hs => ?_⟩
  by_cases hn : n < g.nodeCount
  · have hn' : n < a.problem.graph.nodeCount := h.problem_nodeCount.symm ▸ hn
    obtain ⟨hentry, hexit⟩ := h.facts_eq_some hleast hn
    rw [hentry, hexit] at hs
    rcases hs with hs | hs
    · cases hs
      exact ⟨rfl, hleast.mem_ins n hn'⟩
    · cases hs
      exact ⟨rfl, hleast.mem_outs n hn'⟩
  · have hle := Nat.le_of_not_lt hn
    rw [ReachingSets.inFacts?_eq_none.mpr (hins.le.trans hle),
      ReachingSets.outFacts?_eq_none.mpr (houts.le.trans hle)] at hs
    rcases hs with hs | hs <;> cases hs

/-- A result has facts at the entry and at the exit of each node of its graph and of no other node, and
whatever is asked about the facts at a place is answered from its members: these are indices of facts
in ascending order; they are as many as are counted, and the ones that are found; each has a position
of its own; and those that write a field are told by their fields and by the set of all writes of it
alike. -/
theorem solve?_answers (ha : prepare resolve g = .ok a)
    (hr : a.solve? options signal = some report) (hok : report.outcome = .ok r) (n : NodeId) :
    r.nodeCount = g.nodeCount ∧
      (r.inFacts? n = none ↔ r.nodeCount ≤ n) ∧ (r.outFacts? n = none ↔ r.nodeCount ≤ n) ∧
      ∀ s, r.inFacts? n = some s ∨ r.outFacts? n = some s → s.Answers r := by
  have h := prepared_of_prepare ha
  obtain ⟨hins, houts, hfacts, hfits⟩ := h.sizes_and_fits hr hok
  refine ⟨hins, ReachingSets.inFacts?_eq_none, ?_, fun s hs => ?_⟩
  · rw [ReachingSets.outFacts?_eq_none, houts, ← hins]
    exact Iff.rfl
  · obtain ⟨hsame, hmembers⟩ := hfits n s hs
    rw [← hsame] at hmembers
    exact FactSet.answers (hsame ▸ h.facts) hmembers (hfacts.trans hsame.symm)

end Report

/-- At the second node of the loop all three facts are members, each with the position of its write, and
two of them write `x`. There is no third node. -/
theorem writingLoop_answers : ∃ a report r s, prepare FieldRef.byName .writingLoop = .ok a ∧
    a.solve? ⟨.reverse, false⟩ none = some report ∧ report.outcome = .ok r ∧
      r.inFacts? 1 = some s ∧ s.Answers r ∧ s.toList = [0, 1, 2] ∧
        s.writesOf "x" = s.toList.filter (fun i => decide (r.fieldOf? i = some "x")) ∧
          r.inFacts? 2 = none := by
  obtain ⟨a, report, r, ha, hreport, hr, hins, -⟩ := exists_writingLoop
  obtain ⟨-, -, -, hanswers⟩ := solve?_answers ha hreport hr 1
  obtain ⟨hcount, hnone, -⟩ := solve?_answers ha hreport hr 2
  have hentry : r.inFacts? 1 = some ⟨⟨3, #[7]⟩, r.facts⟩ := by
    rw [ReachingSets.inFacts?, hins]
    rfl
  have hall := hanswers _ (.inl hentry)
  have htoList : (⟨3, #[7]⟩ : BitSet).toList = [0, 1, 2] := by decide
  exact ⟨a, report, r, _, ha, hreport, hr, hentry, hall, htoList, hall.writesOf "x",
    hnone.mpr hcount.le⟩

end Analysis

end ReachingWrites
