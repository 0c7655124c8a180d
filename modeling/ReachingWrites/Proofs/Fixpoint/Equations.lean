import ReachingWrites.Proofs.Fixpoint.Turn
import ReachingWrites.Proofs.FlowGraph.Predecessors
import ReachingWrites.Proofs.FlowLattice

/-!
# A solution satisfies the equations

The equations of a dataflow problem say of each node that what enters it is `bottom` joined with what
leaves its predecessors, and that what leaves it is what its transfer makes of that. A run that ends
with a solution ends with values that satisfy them, whatever the join and the order are and whether
the transfers are monotone or not.

The reason is an invariant: each node is on the worklist, or its equations hold of the values now. A
visit makes the equations of its node hold. It can break those of another node only by changing what
leaves a predecessor of that node, and then the other node is a successor and goes on the worklist.
The node itself is no exception: if it is its own predecessor, it is put back.
-/

set_option autoImplicit false

namespace ReachingWrites

variable {ι α τ : Type} [FlowLattice α]

/-! ## The equations -/

namespace Problem

/-- What enters a node if `outs` leaves the nodes: `bottom` joined in turn with what leaves the
predecessors. -/
def entering (p : Problem ι α τ) (outs : NodeId → α) (node : NodeId) : α :=
  FlowLattice.joinAll p.bottom ((p.predecessors.of node).map outs)

/-- The transfers answer by `f`, whatever their memory. -/
def Answers (p : Problem ι α τ) (f : NodeId → α → α) : Prop :=
  ∀ memory node value, (p.transfer memory node value).1 = f node value

/-- The values `ins` and `outs` at the nodes satisfy the equations of a problem whose transfers answer
by `f`. -/
structure IsSolution (p : Problem ι α τ) (f : NodeId → α → α) (ins outs : NodeId → α) : Prop where
  /-- What enters a node is `bottom` joined with what leaves its predecessors. -/
  enters : ∀ node < p.graph.nodeCount, ins node = p.entering outs node
  /-- What leaves a node is its transfer of what enters it. -/
  leaves : ∀ node < p.graph.nodeCount, outs node = f node (ins node)

/-- What enters a node depends on what leaves its predecessors only. -/
theorem entering_congr (p : Problem ι α τ) {outs outs' : NodeId → α} {node : NodeId}
    (h : ∀ q ∈ p.predecessors.of node, outs q = outs' q) :
    p.entering outs node = p.entering outs' node := by
  unfold entering
  rw [List.map_congr_left h]

end Problem

/-- A solution has a value for each node and no others, and the values satisfy the equations. -/
structure Solution.Solves (s : Solution α) (p : Problem ι α τ) (f : NodeId → α → α) : Prop where
  /-- A value enters each node. -/
  size_ins : s.ins.size = p.graph.nodeCount
  /-- A value leaves each node. -/
  size_outs : s.outs.size = p.graph.nodeCount
  /-- The values satisfy the equations. -/
  equations : p.IsSolution f (s.ins.getD · p.bottom) (s.outs.getD · p.bottom)

/-! ## The invariant -/

section Invariant

variable {p : Problem ι α τ} {options : SolveOptions} {signal : Option (Signal α)} {memory : τ}
  {f : NodeId → α → α} (hp : Predecessors.ofGraph p.graph = .ok p.predecessors)

namespace State

include hp in
/-- The solver joins what leaves all predecessors, for none of them is out of range. -/
theorem inValue_eq_entering {s : State α τ} (h : s.Sized p) (node : NodeId) :
    p.inValue s.outs node = p.entering (s.leaving p) node := by
  unfold Problem.inValue Problem.entering FlowLattice.joinAll
  rw [List.foldl_map]
  refine List.foldl_ext _ _ _ fun value q hq => ?_
  have hlt : q < s.outs.size := by
    rw [h.outs]
    exact Predecessors.lt_of_mem_of hp hq
  rw [leaving, Array.getD_eq_getD_getElem?, Array.getElem?_eq_getElem hlt, Option.getD_some]

include hp in
/-- The answer of a visit is the transfer of what enters the node. -/
theorem answer_eq (hf : p.Answers f) {s : State α τ} (h : s.Sized p) (node : NodeId) :
    (s.answer p node).1 = f node (p.entering (s.leaving p) node) := by
  rw [answer, hf, inValue_eq_entering hp h]

/-- The equations of a node hold of the values now. -/
def AgreesAt (s : State α τ) (p : Problem ι α τ) (f : NodeId → α → α) (node : NodeId) : Prop :=
  s.entered p node = p.entering (s.leaving p) node ∧
    s.leaving p node = f node (s.entered p node)

/-- Each node is on the worklist, or its equations hold of the values now. -/
def Agrees (s : State α τ) (p : Problem ι α τ) (f : NodeId → α → α) : Prop :=
  ∀ node < p.graph.nodeCount, node ∈ s.worklist.pending ∨ s.AgreesAt p f node

omit [FlowLattice α] in
/-- Taking the next node leaves the others waiting. -/
theorem mem_rest {s : State α τ} {node other : NodeId} {rest : List NodeId}
    (next : s.worklist.pending = node :: rest) (hne : other ≠ node) :
    other ∈ s.worklist.pending ↔ other ∈ rest := by
  rw [next, List.mem_cons]
  exact or_iff_right hne

private theorem agrees_start (p : Problem ι α τ) (f : NodeId → α → α) (order : VisitOrder)
    (memory : τ) : (start p order memory).Agrees p f :=
  fun _ hlt => .inl (Worklist.mem_arrange.mpr hlt)

include hp in
/-- A visit that changes nothing that leaves its node makes the equations of the node hold. -/
private theorem Agrees.arrived (hf : p.Answers f) {s : State α τ} (h : s.Agrees p f) (hs : s.Sized p)
    {node : NodeId} {rest : List NodeId} (next : s.worklist.pending = node :: rest)
    (same : (s.answer p node).1 = s.leaving p node) :
    (s.arrived p signal node rest).Agrees p f := by
  intro other hlt
  unfold AgreesAt
  rw [leaving_arrived, entered_arrived hs next]
  by_cases hne : other = node
  · subst hne
    rw [Function.update_self, inValue_eq_entering hp hs, ← answer_eq hp hf hs]
    exact .inr ⟨rfl, same.symm⟩
  · rw [Function.update_of_ne hne]
    exact (h other hlt).imp_left (mem_rest next hne).mp

include hp in
/-- A visit that changes what leaves its node puts every node whose equations it may break on the
worklist. -/
private theorem Agrees.grown (hf : p.Answers f) {s : State α τ} (h : s.Agrees p f) (hs : s.Sized p)
    {node : NodeId} {rest : List NodeId} (next : s.worklist.pending = node :: rest) :
    (s.grown p signal node rest).Agrees p f := by
  intro other hlt
  have hwaits : other ∈ (s.grown p signal node rest).worklist.pending ↔
      other ∈ rest ∨ other ∈ p.graph.successors node := by
    rw [grown_worklist, (hs.marked.tail next).mem_pushAll, Array.size_setIfInBounds, hs.queued]
    exact or_congr_right (and_iff_left hlt)
  by_cases hsucc : other ∈ p.graph.successors node
  · exact .inl (hwaits.mpr (.inr hsucc))
  -- the visited node is no predecessor of the other one, whose equations read the same values
  have hsame : p.entering ((s.grown p signal node rest).leaving p) other =
      p.entering (s.leaving p) other := by
    refine p.entering_congr fun q hq => ?_
    rw [leaving_grown hs next, Function.update_of_ne]
    intro heq
    rw [heq] at hq
    exact hsucc ((Predecessors.mem_of_ofGraph hp).mp hq)
  unfold AgreesAt
  rw [hsame, leaving_grown hs next, entered_grown hs next]
  by_cases hne : other = node
  · subst hne
    rw [Function.update_self, Function.update_self, inValue_eq_entering hp hs,
      answer_eq hp hf hs]
    exact .inr ⟨rfl, rfl⟩
  · rw [Function.update_of_ne hne, Function.update_of_ne hne]
    exact (h other hlt).imp_left fun hm => hwaits.mpr (.inl ((mem_rest next hne).mp hm))

include hp in
/-- At every moment of a solve, each node is on the worklist or its equations hold. -/
theorem Reached.agrees (hf : p.Answers f) {s : State α τ}
    (h : Reached p options signal memory s) : s.Agrees p f := by
  induction h with
  | start => exact agrees_start p f options.order memory
  | next before turn ih =>
    cases turn with
    | kept next _ same => exact ih.arrived hp hf before.sized next same
    | grown next => exact ih.grown hp hf before.sized next

end State

include hp in
/-- With no node left to visit, all equations hold. -/
theorem State.Reached.isSolution (hf : p.Answers f) {s : State α τ}
    (h : State.Reached p options signal memory s) (empty : s.worklist.pending = []) :
    p.IsSolution f (s.entered p) (s.leaving p) := by
  have hagrees : ∀ node < p.graph.nodeCount, s.AgreesAt p f node := fun node hlt =>
    (h.agrees hp hf node hlt).resolve_left fun hm => by
      rw [empty] at hm
      cases hm
  exact ⟨fun node hlt => (hagrees node hlt).1, fun node hlt => (hagrees node hlt).2⟩

include hp in
/-- However a run has come to end with a solution, the solution satisfies the equations. -/
theorem Problem.Ends.solves (hf : p.Answers f) {run : Run α τ}
    (h : p.Ends options signal memory run) {solution : Solution α}
    (hok : run.outcome = .ok solution) : solution.Solves p f := by
  rcases h.of_ok hok with ⟨none, rfl⟩ | ⟨s, reached, empty, rfl⟩
  · exact ⟨none.symm, none.symm, by simp [none], by simp [none]⟩
  · exact ⟨reached.sized.ins, reached.sized.outs, reached.isSolution hp hf empty⟩

end Invariant

/-! ## The result of a solve -/

/-- A solution that a solve returns satisfies the equations. Nothing is asked of the join, of the
order or of `bottom`, and the transfers need not be monotone. -/
theorem Problem.solve?_solves [DecidableEq α] {p : Problem ι α τ} {f : NodeId → α → α}
    (hp : Predecessors.ofGraph p.graph = .ok p.predecessors) (hf : p.Answers f)
    {options : SolveOptions} {signal : Option (Signal α)} {memory : τ} {turns : Nat} {run : Run α τ}
    (hr : p.solve? options signal memory turns = some run) {solution : Solution α}
    (hok : run.outcome = .ok solution) : solution.Solves p f :=
  (solve?_ends hr).solves hp hf hok

/-- The second node of this loop lets `9` leave at first and lets it shrink to `2` later. -/
def Problem.shrinkingLoop : Problem Instr Nat Unit :=
  .stateless ⟨#[⟨[], [1, 1]⟩, ⟨[], [1, 0]⟩]⟩ ⟨#[[1], [0, 1]]⟩ 0 fun node value =>
    if node = 0 then 3 else if value < 3 then 9 - value else 2

/-- A solve of the loop in reverse order ends, and its values satisfy the equations. -/
theorem Problem.shrinkingLoop_solves :
    Predecessors.ofGraph shrinkingLoop.graph = .ok shrinkingLoop.predecessors ∧
      (shrinkingLoop.solve? ⟨.reverse, false⟩ none () 9).map Run.outcome =
        some (.ok ⟨#[2, 3], #[3, 2], ⟨5, 3⟩⟩) ∧
      (⟨#[2, 3], #[3, 2], ⟨5, 3⟩⟩ : Solution Nat).Solves shrinkingLoop
        fun node value => (shrinkingLoop.transfer () node value).1 := by
  have hp : Predecessors.ofGraph shrinkingLoop.graph = .ok shrinkingLoop.predecessors := by
    decide +kernel
  have hmap : (shrinkingLoop.solve? ⟨.reverse, false⟩ none () 9).map Run.outcome =
      some (.ok ⟨#[2, 3], #[3, 2], ⟨5, 3⟩⟩) := by
    rfl
  obtain ⟨run, hr, hok⟩ := Option.map_eq_some_iff.mp hmap
  exact ⟨hp, hmap, Problem.solve?_solves hp (fun _ _ _ => rfl) hr hok⟩

end ReachingWrites
