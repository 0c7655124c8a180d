import Mathlib.Data.List.Sort
import ReachingWrites.Proofs.FlowGraph.Predecessors

/-!
# Predecessors are the edges turned around

`Predecessors.Transposes` says what predecessor lists are, without saying how they are made: a list
for each node, with the nodes that have an edge to it, in ascending order. There is one such table of
lists at most, and going through the edges makes it: since the edges come by source, a source is
never smaller than what has been entered before, and it goes to the end of a list.

No lists are made of a graph with an edge that leaves it. The first one is reported, by source and
for one source in the order of the successors: `FlowGraph.FirstStray`.
-/

set_option autoImplicit false

namespace ReachingWrites

variable {ι : Type}

/-! ## The first edge that leaves a graph -/

/-- The first place of a range at which there is something. -/
private theorem findSome?_range_eq_some {β : Type} {f : Nat → Option β} {n : Nat} {b : β} :
    (List.range n).findSome? f = some b ↔ ∃ i < n, f i = some b ∧ ∀ j < i, f j = none := by
  induction n with
  | zero => simp
  | succ n ih =>
    rw [List.range_succ, List.findSome?_append, Option.or_eq_some_iff, ih,
      List.findSome?_eq_none_iff, List.findSome?_singleton]
    simp only [List.mem_range]
    constructor
    · rintro (⟨i, hi, hb, hfirst⟩ | ⟨hnone, hb⟩)
      · exact ⟨i, Nat.lt_succ_of_lt hi, hb, hfirst⟩
      · exact ⟨n, Nat.lt_succ_self n, hb, hnone⟩
    · rintro ⟨i, hi, hb, hfirst⟩
      rcases Nat.lt_succ_iff_lt_or_eq.mp hi with hlt | rfl
      · exact .inl ⟨i, hlt, hb, hfirst⟩
      · exact .inr ⟨hfirst, hb⟩

namespace FlowGraph

/-- No node before the source has an edge that leaves the graph, and the target is the first of the
source's successors that is not in the graph. -/
structure FirstStray (g : FlowGraph ι) (source target : NodeId) : Prop where
  earlier : ∀ n < source, ∀ m ∈ g.successors n, m < g.nodeCount
  first : (g.successors source).find? (fun m => decide (g.nodeCount ≤ m)) = some target

private theorem firstStray_iff_find? {g : FlowGraph ι} {source target : NodeId} :
    g.FirstStray source target ↔
      g.edges.find? (fun e => decide (g.nodeCount ≤ e.2)) = some (source, target) := by
  have hfind : g.edges.find? (fun e => decide (g.nodeCount ≤ e.2)) =
      (List.range g.nodeCount).findSome? fun n =>
        ((g.successors n).find? fun m => decide (g.nodeCount ≤ m)).map (Prod.mk n) := by
    rw [edges, nodes, List.find?_flatMap]
    simp only [List.find?_map, Function.comp_def]
  rw [hfind, findSome?_range_eq_some]
  simp only [Option.map_eq_some_iff, Option.map_eq_none_iff, List.find?_eq_none, decide_eq_true_iff,
    Nat.not_le]
  constructor
  · intro h
    have hsource := lt_nodeCount_of_mem_successors (List.mem_of_find?_eq_some h.first)
    exact ⟨source, hsource, ⟨target, h.first, rfl⟩, h.earlier⟩
  · rintro ⟨n, -, ⟨m, hm, heq⟩, hearlier⟩
    cases heq
    exact ⟨hearlier, hm⟩

end FlowGraph

namespace Predecessors

/-! ## Lists in ascending order -/

/-- The lists are ascending and go no further than a node. -/
structure Ascending (upto : NodeId) (ps : Predecessors) : Prop where
  pairwise : ∀ m, (ps.of m).Pairwise (· < ·)
  le : ∀ m, ∀ q ∈ ps.of m, q ≤ upto

/-- A source that is no smaller than all before keeps the lists ascending. -/
private theorem Ascending.enter {upto source target : NodeId} {ps entered : Predecessors}
    (h : ps.Ascending upto) (hle : upto ≤ source)
    (henter : ps.enter (source, target) = .ok entered) : entered.Ascending source := by
  constructor
  · intro m
    rw [of_enter henter]
    split
    next hnew =>
      rw [List.pairwise_append]
      refine ⟨h.pairwise m, List.pairwise_singleton _ _, fun q hq s hs => ?_⟩
      rw [List.mem_singleton] at hs
      subst hs
      exact Nat.lt_of_le_of_ne ((h.le m q hq).trans hle) fun heq => hnew.2 (heq ▸ hq)
    next => exact h.pairwise m
  · intro m q hq
    obtain ⟨-, -, hmem⟩ := enter_eq_ok henter
    rcases (hmem q m).mp hq with hq | heq
    · exact (h.le m q hq).trans hle
    · cases heq
      exact Nat.le_refl _

/-- Entering edges by source keeps the lists ascending. -/
private theorem Ascending.foldlM_enter {edges : List (NodeId × NodeId)} {upto : NodeId}
    {ps entered : Predecessors} (h : ps.Ascending upto) (hupto : ∀ e ∈ edges, upto ≤ e.1)
    (hsorted : edges.Pairwise fun e e' => e.1 ≤ e'.1)
    (hrun : edges.foldlM Predecessors.enter ps = .ok entered) :
    ∃ last, entered.Ascending last := by
  induction edges generalizing upto ps with
  | nil =>
    rw [foldlM_nil_eq_ok] at hrun
    exact ⟨upto, hrun ▸ h⟩
  | cons e edges ih =>
    obtain ⟨next, hfirst, hrest⟩ := foldlM_cons_eq_ok.mp hrun
    obtain ⟨hlater, hsorted⟩ := List.pairwise_cons.mp hsorted
    exact ih (h.enter (hupto e List.mem_cons_self) hfirst) hlater hsorted hrest

/-- The lists that are made of a graph are ascending. -/
theorem pairwise_of_ofGraph {g : FlowGraph ι} {ps : Predecessors} (h : ofGraph g = .ok ps)
    (m : NodeId) : (ps.of m).Pairwise (· < ·) := by
  have hempty : (empty g.nodeCount).Ascending 0 := by
    constructor
    · intro m
      rw [of_empty]
      exact .nil
    · intro m q hq
      rw [of_empty] at hq
      cases hq
  obtain ⟨last, hlast⟩ :=
    hempty.foldlM_enter (fun _ _ => Nat.zero_le _) g.pairwise_edges h
  exact hlast.pairwise m

/-! ## The table of lists -/

/-- The lists hold the edges of the graph, turned around. -/
structure Transposes (g : FlowGraph ι) (ps : Predecessors) : Prop where
  size : ps.size = g.nodeCount
  mem_of : ∀ p m, p ∈ ps.of m ↔ m ∈ g.successors p
  /-- So no node is listed twice, however often an edge is repeated. -/
  ascending : ∀ m, (ps.of m).Pairwise (· < ·)
  of_beyond : ∀ m, g.nodeCount ≤ m → ps.of m = []

/-- The lists that are made of a graph hold its edges turned around. -/
theorem transposes_of_ofGraph {g : FlowGraph ι} {ps : Predecessors} (h : ofGraph g = .ok ps) :
    ps.Transposes g where
  size := size_ofGraph h
  mem_of _ _ := mem_of_ofGraph h
  ascending := pairwise_of_ofGraph h
  of_beyond _ hm := of_eq_nil ((size_ofGraph h).trans_le hm)

/-- Two tables of lists that hold the edges of one graph are equal. -/
theorem Transposes.unique {g : FlowGraph ι} {ps ps' : Predecessors} (h : ps.Transposes g)
    (h' : ps'.Transposes g) : ps = ps' := by
  have hof : ∀ m, ps.of m = ps'.of m := by
    intro m
    apply (h.ascending m).eq_of_mem_iff (h'.ascending m)
    intro p
    rw [h.mem_of, h'.mem_of]
  have hlists : ps.lists = ps'.lists := by
    refine Array.ext (h.size.trans h'.size.symm) fun m hm hm' => ?_
    have := hof m
    rwa [of, of, Array.getD_eq_getD_getElem?, Array.getD_eq_getD_getElem?,
      Array.getElem?_eq_getElem hm, Array.getElem?_eq_getElem hm'] at this
  cases ps
  cases ps'
  exact congrArg _ hlists

/-- Where the lists exist, no edge leaves the graph. -/
theorem Transposes.lt_nodeCount {g : FlowGraph ι} {ps : Predecessors} (h : ps.Transposes g)
    {n m : NodeId} (hm : m ∈ g.successors n) : m < g.nodeCount := by
  refine Nat.lt_of_not_le fun hle => ?_
  have hmem := (h.mem_of n m).mpr hm
  rw [h.of_beyond m hle] at hmem
  cases hmem

/-- The lists can be made exactly if no edge leaves the graph. -/
theorem exists_ofGraph_iff_lt {g : FlowGraph ι} :
    (∃ ps, ofGraph g = .ok ps) ↔ ∀ n m, m ∈ g.successors n → m < g.nodeCount := by
  rw [exists_ofGraph_iff]
  constructor
  · intro h n m hm
    exact h (n, m) (FlowGraph.mem_edges.mpr hm)
  · intro h e he
    exact h e.1 e.2 (FlowGraph.mem_edges.mp he)

/-- What is made of a graph is the one table that holds its edges turned around. -/
theorem ofGraph_eq_ok_iff {g : FlowGraph ι} {ps : Predecessors} :
    ofGraph g = .ok ps ↔ ps.Transposes g := by
  constructor
  · exact transposes_of_ofGraph
  · intro h
    obtain ⟨ps', hps'⟩ := exists_ofGraph_iff_lt.mpr fun n m hm => h.lt_nodeCount hm
    rw [h.unique (transposes_of_ofGraph hps'), hps']

/-- What is reported of a graph is the first edge that leaves it. -/
theorem ofGraph_eq_error_iff {g : FlowGraph ι} {failure : AnalysisFailure} :
    ofGraph g = .error failure ↔
      ∃ source target, g.FirstStray source target ∧ failure = .malformedGraph source target := by
  rw [ofGraph_eq_error]
  simp only [FlowGraph.firstStray_iff_find?, List.find?_eq_some_iff_append, decide_eq_true_iff,
    Bool.not_eq_true', decide_eq_false_iff_not, Nat.not_le]
  constructor
  · rintro ⟨earlier, source, target, later, hsplit, hearlier, hleaves, hfailure⟩
    exact ⟨source, target, ⟨hleaves, earlier, later, hsplit, hearlier⟩, hfailure⟩
  · rintro ⟨source, target, ⟨hleaves, earlier, later, hsplit, hearlier⟩, hfailure⟩
    exact ⟨earlier, source, target, later, hsplit, hearlier, hleaves, hfailure⟩

/-- The lists can be made exactly of a graph that no edge leaves, and they are then the one table that
holds its edges turned around. Otherwise the first edge that leaves the graph is reported, whatever
edges follow. -/
theorem ofGraph_transposes (g : FlowGraph ι) :
    ((∃ ps, ofGraph g = .ok ps) ↔ ∀ n m, m ∈ g.successors n → m < g.nodeCount) ∧
    (∀ ps, ofGraph g = .ok ps ↔ ps.Transposes g) ∧
    ∀ failure, ofGraph g = .error failure ↔
      ∃ source target, g.FirstStray source target ∧ failure = .malformedGraph source target :=
  ⟨exists_ofGraph_iff_lt, fun _ => ofGraph_eq_ok_iff, fun _ => ofGraph_eq_error_iff⟩

/-- Edges that are repeated, one to the node itself, and a node without predecessors. -/
example : (ofGraph (⟨#[⟨[], [2, 1, 2]⟩, ⟨[], [2, 1, 1]⟩, ⟨[], []⟩]⟩ : FlowGraph Instr)).map
    Predecessors.lists = .ok #[[], [0, 1], [0, 1]] := by rfl

end Predecessors

end ReachingWrites
