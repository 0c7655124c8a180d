import Mathlib.Algebra.BigOperators.Ring.Finset
import Mathlib.Algebra.Order.BigOperators.Group.Finset
import ReachingWrites.Proofs.Fixpoint.Least
import ReachingWrites.Proofs.FlowGraph.Edges

/-!
# How much work a solve is

Each node is visited once because it is on the worklist at the start. Any further visit is owed to a
change of what leaves a predecessor, and a change puts each successor on the worklist at most once.
So the visits are bounded once the changes are. Where a change makes a value grow, what leaves a node
changes no more often than a value can grow from `bottom`.

`State.Account` is the invariant. It charges every visit, made or still to make, to the start or to a
change, and every change to the growth of what leaves one node.
-/

set_option autoImplicit false

namespace ReachingWrites

variable {ι α τ : Type}

/-! ## Counting by node -/

/-- One more at one node is its weight more in the weighted sum. -/
private theorem sum_update_mul {count : Nat} (times weight : NodeId → Nat) {node : NodeId}
    (h : node < count) :
    ∑ n ∈ Finset.range count, Function.update times node (times node + 1) n * weight n =
      ∑ n ∈ Finset.range count, times n * weight n + weight node := by
  have hone : ∀ n, Function.update times node (times node + 1) n * weight n =
      times n * weight n + if n = node then weight n else 0 := by
    intro n
    by_cases hn : n = node
    · subst hn
      rw [Function.update_self, if_pos rfl, Nat.add_mul, Nat.one_mul]
    · rw [Function.update_of_ne hn, if_neg hn, Nat.add_zero]
  rw [Finset.sum_congr rfl fun n _ => hone n, Finset.sum_add_distrib, Finset.sum_ite_eq',
    if_pos (Finset.mem_range.mpr h)]

private theorem sum_mul_le {count bound : Nat} {times weight : NodeId → Nat}
    (h : ∀ n < count, times n ≤ bound) :
    ∑ n ∈ Finset.range count, times n * weight n ≤
      bound * ∑ n ∈ Finset.range count, weight n := by
  rw [Finset.mul_sum]
  exact Finset.sum_le_sum fun n hn =>
    Nat.mul_le_mul_right (weight n) (h n (Finset.mem_range.mp hn))

/-! ## The invariant -/

variable [FlowLattice α]
variable {p : Problem ι α τ} {options : SolveOptions} {signal : Option (Signal α)} {memory : τ}
  {V : α → Prop}

open FlowLattice (leq Ascent)

namespace State

/-- What has left each node has grown from `bottom`, `times` says how often, and all changes and all
visits are accounted for. -/
structure Account (s : State α τ) (p : Problem ι α τ) (V : α → Prop) (times : NodeId → Nat) :
    Prop where
  /-- What leaves a node has grown so often. -/
  ascent : ∀ node < p.graph.nodeCount, Ascent V p.bottom (times node) (s.leaving p node)
  /-- Every change made a value grow. -/
  updates : s.summary.updates = ∑ node ∈ Finset.range p.graph.nodeCount, times node
  /-- Every node has been visited or waits. -/
  nodes_le : p.graph.nodeCount ≤ s.summary.visits + s.worklist.pending.length
  /-- Every visit, made or waiting, is one of the start or is owed to the growth at a predecessor. -/
  le_owed : s.summary.visits + s.worklist.pending.length ≤ p.graph.nodeCount +
    ∑ node ∈ Finset.range p.graph.nodeCount, times node * p.graph.outDegree node

omit [FlowLattice α] in
/-- One node waits less once the next one has been taken. -/
theorem length_pending {s : State α τ} {node : NodeId} {rest : List NodeId}
    (next : s.worklist.pending = node :: rest) : s.worklist.pending.length = rest.length + 1 := by
  rw [next, List.length_cons]

private theorem Account.start (p : Problem ι α τ) (V : α → Prop) (order : VisitOrder) (memory : τ) :
    (start p order memory).Account p V fun _ => 0 := by
  have hlength : (State.start p order memory).worklist.pending.length = p.graph.nodeCount :=
    Worklist.length_arrange order p.graph.nodeCount
  have hvisits : (State.start p order memory).summary.visits = 0 := rfl
  refine ⟨?_, ?_, ?_, ?_⟩
  · intro node _
    rw [leaving_start]
    exact .stay
  · rw [Finset.sum_const_zero]
    rfl
  · omega
  · omega

/-- A visit that changes nothing pays for itself: it was waiting, and now it is made. -/
private theorem Account.arrived {s : State α τ} {times : NodeId → Nat} (h : s.Account p V times)
    {node : NodeId} {rest : List NodeId} (next : s.worklist.pending = node :: rest) :
    (s.arrived p signal node rest).Account p V times := by
  have hlength := length_pending next
  have hnodes := h.nodes_le
  have howed := h.le_owed
  refine ⟨?_, ?_, ?_, ?_⟩
  · rw [leaving_arrived]
    exact h.ascent
  · rw [arrived_updates]
    exact h.updates
  · rw [arrived_visits, arrived_worklist]
    dsimp only
    omega
  · rw [arrived_visits, arrived_worklist]
    dsimp only
    omega

/-- A visit that makes what leaves its node grow also puts the successors on the worklist, and each of
them at most once. -/
private theorem Account.grown {s : State α τ} {times : NodeId → Nat} (h : s.Account p V times)
    (hs : s.Sized p) {node : NodeId} {rest : List NodeId}
    (next : s.worklist.pending = node :: rest) (mem : V (s.answer p node).1)
    (above : leq (s.leaving p node) (s.answer p node).1 = true)
    (changed : (s.answer p node).1 ≠ s.leaving p node) :
    (s.grown p signal node rest).Account p V
      (Function.update times node (times node + 1)) := by
  have hlt := hs.lt next
  have hlength := length_pending next
  have hnodes := h.nodes_le
  have howed := h.le_owed
  have hmarked := hs.marked.tail next
  have hmore := hmarked.length_le_pushAll (p.graph.successors node)
  have hless := hmarked.length_pushAll_le (p.graph.successors node)
  simp only [Array.size_setIfInBounds, hs.queued] at hless hmore
  have hdegree : p.graph.outDegree node =
      ((p.graph.successors node).toFinset.filter (· < p.graph.nodeCount)).card := rfl
  refine ⟨?_, ?_, ?_, ?_⟩
  · intro n hn
    rw [leaving_grown hs next]
    by_cases hne : n = node
    · subst hne
      rw [Function.update_self, Function.update_self]
      exact (h.ascent n hn).grow mem above changed.symm
    · rw [Function.update_of_ne hne, Function.update_of_ne hne]
      exact h.ascent n hn
  · have hsum := sum_update_mul times (fun _ => 1) hlt
    simp only [Nat.mul_one] at hsum
    rw [grown_updates, h.updates, hsum]
  · rw [grown_visits, grown_worklist]
    omega
  · rw [grown_visits, grown_worklist, sum_update_mul times p.graph.outDegree hlt]
    omega

/-- The changes of a solve make values of the class `V` grow: whatever a visit changes and the check
lets pass becomes a greater value of the class. -/
def Grows (p : Problem ι α τ) (options : SolveOptions) (signal : Option (Signal α)) (memory : τ)
    (V : α → Prop) : Prop :=
  ∀ ⦃s : State α τ⦄ ⦃node : NodeId⦄ ⦃rest : List NodeId⦄, Reached p options signal memory s →
    s.worklist.pending = node :: rest →
    (options.checkMonotone = true → leq (s.leaving p node) (s.answer p node).1 = true) →
      V (s.answer p node).1 ∧ leq (s.leaving p node) (s.answer p node).1 = true

/-- Monotone transfers make values grow, whether or not a check demands it. -/
theorem grows_of_monotoneOn {f : NodeId → α → α}
    (hp : Predecessors.ofGraph p.graph = .ok p.predecessors) (hf : p.Answers f)
    (hV : FlowLattice.LawfulOn V) (hmono : p.MonotoneOn f V) :
    Grows p options signal memory V := by
  intro s node rest reached next _
  have hlt := reached.sized.lt next
  have houts : ∀ q ∈ p.predecessors.of node, V (s.leaving p q) :=
    (reached.rising hp hf hV hmono).mem_of hp
  refine ⟨?_, reached.leq_answer hp hf hV hmono next⟩
  rw [answer_eq hp hf reached.sized]
  exact hmono.mem hlt (Problem.mem_entering hV hmono.mem_bottom houts)

/-- In every state that is reached the account of visits and changes holds. -/
theorem Reached.account (hgrows : Grows p options signal memory V) {s : State α τ}
    (h : Reached p options signal memory s) : ∃ times, s.Account p V times := by
  induction h with
  | start => exact ⟨_, Account.start p V options.order memory⟩
  | next before turn ih =>
    obtain ⟨times, haccount⟩ := ih
    cases turn with
    | kept next => exact ⟨times, haccount.arrived next⟩
    | grown next _ changed above =>
      obtain ⟨mem, above⟩ := hgrows before next above
      exact ⟨_, haccount.grown before.sized next mem above changed⟩

/-! ## The bounds -/

section Bounds

variable (hgrows : Grows p options signal memory V) {height : Nat}
  (hheight : ∀ ⦃count : Nat⦄ ⦃a : α⦄, Ascent V p.bottom count a → count ≤ height)
include hgrows hheight

/-- The visits made and waiting are bounded by the height of the class. -/
theorem Reached.visits_le {s : State α τ} (h : Reached p options signal memory s) :
    s.summary.visits + s.worklist.pending.length ≤
      p.graph.nodeCount + height * p.graph.edgeCount := by
  obtain ⟨times, haccount⟩ := h.account hgrows
  have hsum : ∑ node ∈ Finset.range p.graph.nodeCount, times node * p.graph.outDegree node ≤
      height * p.graph.edgeCount :=
    sum_mul_le fun node hlt => hheight (haccount.ascent node hlt)
  exact haccount.le_owed.trans (Nat.add_le_add_left hsum _)

/-- What leaves a node changes no more often than a value of the class can grow. -/
theorem Reached.updates_le {s : State α τ} (h : Reached p options signal memory s) :
    s.summary.updates ≤ height * p.graph.nodeCount := by
  obtain ⟨times, haccount⟩ := h.account hgrows
  rw [haccount.updates]
  have hsum : ∑ node ∈ Finset.range p.graph.nodeCount, times node * 1 ≤
      height * ∑ _node ∈ Finset.range p.graph.nodeCount, 1 :=
    sum_mul_le fun node hlt => hheight (haccount.ascent node hlt)
  simpa using hsum

end Bounds

end State

namespace Problem

variable (hgrows : State.Grows p options signal memory V) {height : Nat}
  (hheight : ∀ ⦃count : Nat⦄ ⦃a : α⦄, Ascent V p.bottom count a → count ≤ height)
include hgrows hheight

/-- A solve whose changes make values of a class of finite height grow ends. -/
theorem exists_solve?_of_grows [DecidableEq α] {turns : Nat}
    (enough : p.graph.nodeCount + height * p.graph.edgeCount < turns) :
    ∃ run, p.solve? options signal memory turns = some run :=
  exists_solve? (fun _ h => (Nat.le_add_right _ _).trans (h.visits_le hgrows hheight)) enough

/-- The work of a solve that ends with a solution: every node has been visited, and no more often than
the growth of values accounts for. -/
theorem Ends.summary_le {run : Run α τ} (h : p.Ends options signal memory run)
    {solution : Solution α} (hok : run.outcome = .ok solution) :
    p.graph.nodeCount ≤ solution.summary.visits ∧
      solution.summary.visits ≤ p.graph.nodeCount + height * p.graph.edgeCount ∧
      solution.summary.updates ≤ height * p.graph.nodeCount := by
  rcases h.of_ok hok with ⟨none, rfl⟩ | ⟨s, reached, empty, rfl⟩
  · rw [none]
    exact ⟨Nat.le_refl 0, Nat.zero_le _, Nat.zero_le _⟩
  · obtain ⟨times, haccount⟩ := reached.account hgrows
    have hnodes := haccount.nodes_le
    have hvisits := reached.visits_le hgrows hheight
    rw [empty, List.length_nil, Nat.add_zero] at hnodes hvisits
    exact ⟨hnodes, hvisits, reached.updates_le hgrows hheight⟩

end Problem

end ReachingWrites
