import ReachingWrites.FlowGraph.Predecessors
import ReachingWrites.Proofs.Failure
import ReachingWrites.Proofs.FlowGraph.Edges

/-!
# Predecessors turn the edges around

The predecessor lists that `Predecessors.ofGraph` builds hold the edges of the graph and nothing
else: a node is listed for another one exactly when the other one is among its successors. That the
lists exist means that no edge leaves the graph. The solver needs both: it reads along the lists and
puts nodes on its worklist along the successors. If an edge leaves the graph, the first one that does
is reported.
-/

set_option autoImplicit false

namespace ReachingWrites

variable {ι : Type}

namespace Predecessors

/-- The source of an edge goes to the end of the list of its target, unless it is in it. -/
theorem of_enter {ps entered : Predecessors} {source target : NodeId}
    (h : ps.enter (source, target) = .ok entered) (m : NodeId) :
    entered.of m =
      if target = m ∧ source ∉ ps.of m then ps.of m ++ [source] else ps.of m := by
  unfold enter at h
  split at h
  next hlt =>
    cases h
    simp only [of, size, Array.getD_eq_getD_getElem?, Array.getElem?_modify] at hlt ⊢
    by_cases hm : target = m
    · subst hm
      rw [if_pos rfl, Array.getElem?_eq_getElem hlt, Option.map_some, Option.getD_some,
        Option.getD_some]
      by_cases hs : source ∈ ps.lists[target]
      · rw [if_pos hs, if_neg fun h => h.2 hs]
      · rw [if_neg hs, if_pos ⟨rfl, hs⟩]
    · rw [if_neg hm, if_neg fun h => hm h.1]
  next => cases h

/-- An edge that is entered ends at a node with a list, and its source is then in that list, besides
all that the lists held before. -/
theorem enter_eq_ok {ps entered : Predecessors} {source target : NodeId}
    (h : ps.enter (source, target) = .ok entered) :
    target < ps.size ∧ entered.size = ps.size ∧
      ∀ q m, q ∈ entered.of m ↔ q ∈ ps.of m ∨ (q, m) = (source, target) := by
  have hof := of_enter h
  unfold enter at h
  split at h
  next hlt =>
    cases h
    refine ⟨hlt, Array.size_modify, fun q m => ?_⟩
    rw [hof m, Prod.mk.injEq]
    split
    next hnew =>
      obtain ⟨rfl, -⟩ := hnew
      rw [List.mem_append, List.mem_singleton, and_iff_left rfl]
    next hold =>
      refine (or_iff_left_of_imp ?_).symm
      rintro ⟨rfl, rfl⟩
      exact Decidable.not_not.mp fun hs => hold ⟨rfl, hs⟩
  next => cases h

/-- An edge whose source is listed for its target is not entered again. -/
theorem enter_of_mem {ps : Predecessors} {source target : NodeId} (h : source ∈ ps.of target) :
    ps.enter (source, target) = .ok ps := by
  rw [of, Array.getD_eq_getD_getElem?] at h
  by_cases hlt : target < ps.lists.size
  · rw [Array.getElem?_eq_getElem hlt, Option.getD_some] at h
    have hsame : ps.lists.modify target (fun sources =>
        if source ∈ sources then sources else sources ++ [source]) = ps.lists := by
      refine Array.ext Array.size_modify fun m hm hm' => ?_
      rw [Array.getElem_modify]
      by_cases hmt : target = m
      · subst hmt
        rw [if_pos rfl, if_pos h]
      · rw [if_neg hmt]
    rw [enter, if_pos (show target < ps.size from hlt), hsame]
  · rw [Array.getElem?_eq_none (Nat.le_of_not_lt hlt)] at h
    cases h

/-- Edges that have all been entered end within the lists, and each list has got the sources of its
edges. -/
theorem foldlM_enter_eq_ok {edges : List (NodeId × NodeId)} {ps entered : Predecessors}
    (h : edges.foldlM enter ps = .ok entered) :
    (∀ e ∈ edges, e.2 < ps.size) ∧ entered.size = ps.size ∧
      ∀ q m, q ∈ entered.of m ↔ q ∈ ps.of m ∨ (q, m) ∈ edges := by
  induction edges generalizing ps with
  | nil =>
    rw [foldlM_nil_eq_ok] at h
    subst h
    simp
  | cons e edges ih =>
    obtain ⟨next, hfirst, hrest⟩ := foldlM_cons_eq_ok.mp h
    obtain ⟨hlt, hsize, hmem⟩ := enter_eq_ok hfirst
    obtain ⟨hlts, hsizes, hmems⟩ := ih hrest
    rw [hsize] at hlts hsizes
    refine ⟨?_, hsizes, ?_⟩
    · intro e' he'
      rcases List.mem_cons.mp he' with rfl | he'
      · exact hlt
      · exact hlts e' he'
    · intro q m
      rw [hmems, hmem, List.mem_cons, or_assoc]

/-! ## Edges that leave the graph -/

private theorem enter_eq_error {ps : Predecessors} {edge : NodeId × NodeId}
    {failure : AnalysisFailure} : ps.enter edge = .error failure ↔
      ps.size ≤ edge.2 ∧ failure = .malformedGraph edge.1 edge.2 := by
  unfold enter
  split
  next hlt =>
    constructor
    · intro h
      cases h
    · intro h
      exact absurd h.1 (Nat.not_le_of_lt hlt)
  next hge =>
    constructor
    · intro h
      cases h
      exact ⟨Nat.le_of_not_lt hge, rfl⟩
    · intro h
      rw [h.2]

/-- Edges to nodes with a list can all be entered. -/
theorem exists_foldlM_enter {edges : List (NodeId × NodeId)} {ps : Predecessors}
    (h : ∀ e ∈ edges, e.2 < ps.size) : ∃ entered, edges.foldlM enter ps = .ok entered := by
  cases hresult : edges.foldlM enter ps with
  | ok entered => exact ⟨entered, rfl⟩
  | error failure =>
    obtain ⟨before, e, after, next, rfl, hbefore, he⟩ := foldlM_eq_error.mp hresult
    obtain ⟨-, hsize, -⟩ := foldlM_enter_eq_ok hbefore
    have hlt := h e (List.mem_append_right _ List.mem_cons_self)
    rw [← hsize] at hlt
    exact absurd (enter_eq_error.mp he).1 (Nat.not_le_of_lt hlt)

private theorem size_empty (count : Nat) : (empty count).size = count := Array.size_replicate

/-- Empty lists have no predecessor of any node. -/
theorem of_empty (count : Nat) (m : NodeId) : (empty count).of m = [] := by
  rw [of, empty, Array.getD_eq_getD_getElem?, Array.getElem?_replicate]
  split
  · rfl
  · rfl

/-- There are lists exactly when no edge leaves the graph. -/
theorem exists_ofGraph_iff {g : FlowGraph ι} :
    (∃ ps, ofGraph g = .ok ps) ↔ ∀ e ∈ g.edges, e.2 < g.nodeCount := by
  constructor
  · intro h
    obtain ⟨ps, hps⟩ := h
    obtain ⟨hlts, -, -⟩ := foldlM_enter_eq_ok hps
    rwa [size_empty] at hlts
  · intro h
    exact exists_foldlM_enter (by rwa [size_empty])

/-- The failure names the first edge that leaves the graph. -/
theorem ofGraph_eq_error {g : FlowGraph ι} {failure : AnalysisFailure} :
    ofGraph g = .error failure ↔ ∃ earlier source target later,
      g.edges = earlier ++ (source, target) :: later ∧ (∀ e ∈ earlier, e.2 < g.nodeCount) ∧
        g.nodeCount ≤ target ∧ failure = .malformedGraph source target := by
  rw [ofGraph, foldlM_eq_error]
  constructor
  · intro h
    obtain ⟨earlier, ⟨source, target⟩, later, next, hsplit, hearlier, he⟩ := h
    obtain ⟨hlts, hsize, -⟩ := foldlM_enter_eq_ok hearlier
    obtain ⟨hle, hfailure⟩ := enter_eq_error.mp he
    rw [size_empty] at hlts hsize
    rw [hsize] at hle
    exact ⟨earlier, source, target, later, hsplit, hlts, hle, hfailure⟩
  · intro h
    obtain ⟨earlier, source, target, later, hsplit, hlts, hle, hfailure⟩ := h
    obtain ⟨next, hnext⟩ : ∃ next, earlier.foldlM enter (empty g.nodeCount) = .ok next :=
      exists_foldlM_enter (by rwa [size_empty])
    obtain ⟨-, hsize, -⟩ := foldlM_enter_eq_ok hnext
    rw [size_empty] at hsize
    refine ⟨earlier, (source, target), later, next, hsplit, hnext, enter_eq_error.mpr ⟨?_, hfailure⟩⟩
    rwa [hsize]

/-! ## The lists of a graph -/

/-- A node beyond the last one has no list. -/
theorem of_eq_nil {ps : Predecessors} {m : NodeId} (h : ps.size ≤ m) : ps.of m = [] := by
  rw [of, Array.getD_eq_getD_getElem?, Array.getElem?_eq_none h, Option.getD_none]

section OfGraph

variable {g : FlowGraph ι} {ps : Predecessors} (h : ofGraph g = .ok ps)
include h

/-- There is a list for each node. -/
theorem size_ofGraph : ps.size = g.nodeCount := by
  obtain ⟨-, hsize, -⟩ := foldlM_enter_eq_ok h
  rwa [size_empty] at hsize

/-- A node is listed for another one exactly when an edge leads from the first to the second. -/
theorem mem_of_ofGraph {q m : NodeId} : q ∈ ps.of m ↔ m ∈ g.successors q := by
  obtain ⟨-, -, hmem⟩ := foldlM_enter_eq_ok h
  rw [hmem, FlowGraph.mem_edges]
  rw [of_empty]
  exact or_iff_right List.not_mem_nil

/-- Every edge ends in the graph. -/
theorem lt_of_mem_successors {q m : NodeId} (hm : m ∈ g.successors q) : m < g.nodeCount := by
  obtain ⟨hlts, -, -⟩ := foldlM_enter_eq_ok h
  rw [size_empty] at hlts
  exact hlts (q, m) (FlowGraph.mem_edges.mpr hm)

/-- Every node that is listed is a node of the graph. -/
theorem lt_of_mem_of {q m : NodeId} (hq : q ∈ ps.of m) : q < g.nodeCount :=
  FlowGraph.lt_nodeCount_of_mem_successors ((mem_of_ofGraph h).mp hq)

end OfGraph

end Predecessors

end ReachingWrites
