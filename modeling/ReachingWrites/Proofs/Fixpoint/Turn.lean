import Mathlib.Logic.Function.Basic
import ReachingWrites.Fixpoint.Run
import ReachingWrites.Proofs.Fixpoint.Worklist

/-!
# What a turn can do

A turn of a solve does one of five things, and `State.Takes` lists them with all that is known when
each happens. Every fact about the solver rests on this list and not on the text of the turn.

`State.Reached` are the solves between two turns that a start leads to, for any number of turns. A
fact about all of them needs two cases: the start, and the two turns after which a solve goes on.
`Problem.Ends` are the ways in which a solve can end. `Problem.solve?_ends` says that every run is
one of them, and `Problem.exists_solve?` that a run exists wherever the visits are bounded.
-/

set_option autoImplicit false

namespace ReachingWrites

variable {ι α τ : Type}
variable {p : Problem ι α τ} {options : SolveOptions} {signal : Option (Signal α)} {memory : τ}

namespace State

/-! ## The question to the signal -/

private theorem stops_eq_true {s : State α τ} (h : s.stops signal = true) :
    ∃ stop, signal = some stop ∧ stop s.journal = true := by
  cases signal with
  | none => cases h
  | some stop => exact ⟨stop, rfl, h⟩

/-- Asking the signal changes nothing that leaves the nodes. -/
@[simp] theorem asked_outs (s : State α τ) : (s.asked signal).outs = s.outs := by
  cases signal <;> rfl

/-- Asking the signal changes nothing that entered the nodes. -/
@[simp] theorem asked_ins (s : State α τ) : (s.asked signal).ins = s.ins := by
  cases signal <;> rfl

/-- Asking the signal is not counted in the summary. -/
@[simp] theorem asked_summary (s : State α τ) : (s.asked signal).summary = s.summary := by
  cases signal <;> rfl

/-- Asking the signal does not touch the memory of the transfers. -/
@[simp] theorem asked_memory (s : State α τ) : (s.asked signal).memory = s.memory := by
  cases signal <;> rfl

/-! ## The tables -/

/-- The worklist and the values range over the nodes of the graph, and the worklist is marked. -/
structure Sized (p : Problem ι α τ) (s : State α τ) : Prop where
  /-- There is a value that enters each node. -/
  ins : s.ins.size = p.graph.nodeCount
  /-- There is a value that leaves each node. -/
  outs : s.outs.size = p.graph.nodeCount
  /-- There is a mark for each node. -/
  queued : s.worklist.queued.size = p.graph.nodeCount
  /-- The queue and the marks agree. -/
  marked : s.worklist.Marked

private theorem sized_start (p : Problem ι α τ) (order : VisitOrder) (memory : τ) :
    (start p order memory).Sized p where
  ins := Array.size_replicate
  outs := Array.size_replicate
  queued := Array.size_replicate
  marked := Worklist.marked_seed order p.graph.nodeCount

/-- The node that is visited next is a node of the graph. -/
theorem Sized.lt {s : State α τ} (h : s.Sized p) {node : NodeId} {rest : List NodeId}
    (next : s.worklist.pending = node :: rest) : node < p.graph.nodeCount := by
  have hwaits : node ∈ s.worklist.pending := by
    rw [next]
    exact List.mem_cons_self
  have hlt := h.marked.lt_size hwaits
  rwa [h.queued] at hlt

/-- Setting a value of a table changes it at its node and nowhere else. -/
private theorem getD_setIfInBounds {values : Array α} {node : NodeId} (h : node < values.size)
    (value bottom : α) : ((values.setIfInBounds node value).getD · bottom) =
      Function.update (values.getD · bottom) node value := by
  funext other
  rw [Array.getD_eq_getD_getElem?, Array.getElem?_setIfInBounds]
  by_cases hne : node = other
  · subst hne
    rw [if_pos rfl, if_pos h, Function.update_self, Option.getD_some]
  · rw [if_neg hne, Function.update_of_ne (Ne.symm hne), Array.getD_eq_getD_getElem?]

/-! ## One turn -/

/-- What entered a node at its last visit. -/
def entered (s : State α τ) (p : Problem ι α τ) (node : NodeId) : α := s.ins.getD node p.bottom

/-- What leaves a node now. -/
def leaving (s : State α τ) (p : Problem ι α τ) (node : NodeId) : α := s.outs.getD node p.bottom

/-- At the start `bottom` leaves every node. -/
theorem leaving_start (p : Problem ι α τ) (order : VisitOrder) (memory : τ) {node : NodeId} :
    (start p order memory).leaving p node = p.bottom := by
  rw [leaving, start, Array.getD_eq_getD_getElem?, Array.getElem?_replicate]
  split <;> rfl

variable [FlowLattice α]

/-- What the transfer of a node answers to what enters the node now, and its memory after that. -/
def answer (s : State α τ) (p : Problem ι α τ) (node : NodeId) : α × τ :=
  p.transfer s.memory node (p.inValue s.outs node)

/-- The solve after its next node, which `rest` follows on the worklist, has been taken and visited,
and before what leaves the node is changed. -/
def arrived (s : State α τ) (p : Problem ι α τ) (signal : Option (Signal α)) (node : NodeId)
    (rest : List NodeId) : State α τ :=
  { s.asked signal with
    worklist := ⟨rest, s.worklist.queued.setIfInBounds node false⟩ }.visited
    node (p.inValue s.outs node) (s.answer p node).2

/-- The solve after its next node has been visited and what leaves the node has been changed. -/
def grown (s : State α τ) (p : Problem ι α τ) (signal : Option (Signal α)) (node : NodeId)
    (rest : List NodeId) : State α τ :=
  (s.arrived p signal node rest).update p node (s.leaving p node) (s.answer p node).1

/-- The turns that a solve may take, each with what makes the solve take it. -/
inductive Takes (p : Problem ι α τ) (options : SolveOptions) (signal : Option (Signal α))
    (s : State α τ) : Turn α τ → Prop where
  /-- No node is left to visit. -/
  | settled (empty : s.worklist.pending = []) :
      Takes p options signal s (.done (s.settle p.graph.nodeCount))
  /-- The signal asks to stop. -/
  | cancelled {node : NodeId} {rest : List NodeId} {stop : Signal α}
      (next : s.worklist.pending = node :: rest) (watched : signal = some stop)
      (stops : stop s.journal = true) :
      Takes p options signal s (.done ((s.asked signal).cancel s.worklist.pending.length))
  /-- The visit changes nothing that leaves the node. -/
  | kept {node : NodeId} {rest : List NodeId} (next : s.worklist.pending = node :: rest)
      (goesOn : s.stops signal = false) (same : (s.answer p node).1 = s.leaving p node) :
      Takes p options signal s (.next (s.arrived p signal node rest))
  /-- The visit would change what leaves the node to a value that is not above it. -/
  | refused {node : NodeId} {rest : List NodeId} (next : s.worklist.pending = node :: rest)
      (goesOn : s.stops signal = false) (checked : options.checkMonotone = true)
      (changed : (s.answer p node).1 ≠ s.leaving p node)
      (notAbove : FlowLattice.leq (s.leaving p node) (s.answer p node).1 = false) :
      Takes p options signal s (.done ((s.arrived p signal node rest).fail (.nonMonotone node)))
  /-- The visit changes what leaves the node. -/
  | grown {node : NodeId} {rest : List NodeId} (next : s.worklist.pending = node :: rest)
      (goesOn : s.stops signal = false)
      (changed : (s.answer p node).1 ≠ s.leaving p node)
      (above : options.checkMonotone = true →
        FlowLattice.leq (s.leaving p node) (s.answer p node).1 = true) :
      Takes p options signal s (.next (s.grown p signal node rest))

/-! ### What makes a turn which -/

section Step

variable [DecidableEq α] {s : State α τ} {node : NodeId} {rest : List NodeId}

/-- A turn without a waiting node settles the solve. -/
theorem step_of_empty (empty : s.worklist.pending = []) :
    s.step p options signal = .done (s.settle p.graph.nodeCount) := by
  simp only [step, Worklist.pop?, empty]

/-- A turn at which the signal says stop cancels the solve, with the number of nodes that wait. -/
theorem step_of_stops (next : s.worklist.pending = node :: rest) (stops : s.stops signal = true) :
    s.step p options signal = .done ((s.asked signal).cancel s.worklist.pending.length) := by
  simp only [step, Worklist.pop?, next, stops, if_true]

/-- A turn that visits a node: its answer is put in if it is a new one, unless the check refuses it. -/
theorem step_of_goesOn (next : s.worklist.pending = node :: rest)
    (goesOn : s.stops signal = false) :
    s.step p options signal =
      if (s.answer p node).1 = s.leaving p node then .next (s.arrived p signal node rest)
      else if options.checkMonotone && !FlowLattice.leq (s.leaving p node) (s.answer p node).1 then
        .done ((s.arrived p signal node rest).fail (.nonMonotone node))
      else .next (s.grown p signal node rest) := by
  simp only [step, Worklist.pop?, next, goesOn, Bool.false_eq_true, if_false, visit, answer,
    leaving, arrived, State.grown, asked_outs, asked_memory]

end Step

/-- A turn is one of the five. -/
theorem step_takes [DecidableEq α] (s : State α τ) :
    s.Takes p options signal (s.step p options signal) := by
  cases hp : s.worklist.pending with
  | nil =>
    rw [step_of_empty hp]
    exact .settled hp
  | cons node rest =>
    cases hstop : s.stops signal with
    | true =>
      obtain ⟨stop, hwatched, hstops⟩ := stops_eq_true hstop
      rw [step_of_stops hp hstop]
      exact .cancelled hp hwatched hstops
    | false =>
      rw [step_of_goesOn hp hstop]
      split
      next same => exact .kept hp hstop same
      next changed =>
        split
        next bad =>
          rw [Bool.and_eq_true, Bool.not_eq_true'] at bad
          exact .refused hp hstop bad.1 changed bad.2
        next good =>
          refine .grown hp hstop changed fun checked => ?_
          rw [checked, Bool.true_and, Bool.not_eq_true', Bool.not_eq_false] at good
          exact good

/-! ## What the two turns that go on leave in the state -/

section Fields

variable (s : State α τ) (node : NodeId) (rest : List NodeId)

/-- A visit without a change takes its node off the queue and its mark away. -/
@[simp] theorem arrived_worklist : (s.arrived p signal node rest).worklist =
    ⟨rest, s.worklist.queued.setIfInBounds node false⟩ := rfl

/-- A visit without a change puts in what enters its node. -/
@[simp] theorem arrived_ins : (s.arrived p signal node rest).ins =
    s.ins.setIfInBounds node (p.inValue s.outs node) := by
  simp [arrived, visited]

/-- A visit without a change leaves what leaves the nodes as it is. -/
@[simp] theorem arrived_outs : (s.arrived p signal node rest).outs = s.outs := by
  simp [arrived, visited]

/-- A visit without a change is counted as a visit. -/
@[simp] theorem arrived_visits :
    (s.arrived p signal node rest).summary.visits = s.summary.visits + 1 := by
  simp [arrived, visited]

/-- A visit without a change is not counted as a change. -/
@[simp] theorem arrived_updates :
    (s.arrived p signal node rest).summary.updates = s.summary.updates := by
  simp [arrived, visited]

/-- A visit with a change puts the successors of its node on the queue. -/
@[simp] theorem grown_worklist : (s.grown p signal node rest).worklist =
    (⟨rest, s.worklist.queued.setIfInBounds node false⟩ : Worklist).pushAll
      (p.graph.successors node) := rfl

/-- A visit with a change puts in what enters its node. -/
@[simp] theorem grown_ins : (s.grown p signal node rest).ins =
    s.ins.setIfInBounds node (p.inValue s.outs node) := arrived_ins s node rest

/-- A visit with a change puts in its answer. -/
@[simp] theorem grown_outs : (s.grown p signal node rest).outs =
    s.outs.setIfInBounds node (s.answer p node).1 := by
  simp [grown, update]

/-- A visit with a change is counted as a visit. -/
@[simp] theorem grown_visits :
    (s.grown p signal node rest).summary.visits = s.summary.visits + 1 := by
  simp [grown, update]

/-- A visit with a change is counted as a change. -/
@[simp] theorem grown_updates :
    (s.grown p signal node rest).summary.updates = s.summary.updates + 1 := by
  simp [grown, update]

end Fields

/-- A turn after which the solve goes on is a visit. -/
theorem Takes.visits_next {s s' : State α τ} (turn : s.Takes p options signal (.next s')) :
    s'.summary.visits = s.summary.visits + 1 := by
  cases turn with
  | kept => exact arrived_visits _ _ _
  | grown => exact grown_visits _ _ _

section Values

variable {s : State α τ} (h : s.Sized p) {node : NodeId} {rest : List NodeId}
  (next : s.worklist.pending = node :: rest)
include h next

/-- A visit without a change notes what entered its node, and nothing else. -/
theorem entered_arrived : (s.arrived p signal node rest).entered p =
    Function.update (s.entered p) node (p.inValue s.outs node) := by
  unfold entered
  rw [arrived_ins]
  exact getD_setIfInBounds (h.ins.symm ▸ h.lt next) _ _

/-- A visit with a change notes what entered its node, and nothing else. -/
theorem entered_grown : (s.grown p signal node rest).entered p =
    Function.update (s.entered p) node (p.inValue s.outs node) := by
  unfold entered
  rw [grown_ins]
  exact getD_setIfInBounds (h.ins.symm ▸ h.lt next) _ _

/-- After a visit with a change its answer leaves the node, and nothing else is changed. -/
theorem leaving_grown : (s.grown p signal node rest).leaving p =
    Function.update (s.leaving p) node (s.answer p node).1 := by
  unfold leaving
  rw [grown_outs]
  exact getD_setIfInBounds (h.outs.symm ▸ h.lt next) _ _

end Values

/-- After a visit without a change the same leaves the nodes as before. -/
@[simp] theorem leaving_arrived (s : State α τ) (node : NodeId) (rest : List NodeId) :
    (s.arrived p signal node rest).leaving p = s.leaving p := by
  unfold leaving
  rw [arrived_outs]

/-! ## The solves that a start leads to -/

/-- The solves between two turns that a start leads to. -/
inductive Reached (p : Problem ι α τ) (options : SolveOptions) (signal : Option (Signal α))
    (memory : τ) : State α τ → Prop where
  /-- The start. -/
  | start : Reached p options signal memory (.start p options.order memory)
  /-- The solve after a turn that does not end it. -/
  | next {s s' : State α τ} (before : Reached p options signal memory s)
      (turn : s.Takes p options signal (.next s')) : Reached p options signal memory s'

/-- A visit without a change keeps the sizes of the tables. -/
theorem Sized.arrived {s : State α τ} (h : s.Sized p) {node : NodeId} {rest : List NodeId}
    (next : s.worklist.pending = node :: rest) : (s.arrived p signal node rest).Sized p where
  ins := by rw [arrived_ins, Array.size_setIfInBounds, h.ins]
  outs := by rw [arrived_outs, h.outs]
  queued := by rw [arrived_worklist, Array.size_setIfInBounds, h.queued]
  marked := h.marked.tail next

/-- A visit with a change keeps the sizes of the tables. -/
theorem Sized.grown {s : State α τ} (h : s.Sized p) {node : NodeId} {rest : List NodeId}
    (next : s.worklist.pending = node :: rest) : (s.grown p signal node rest).Sized p where
  ins := by rw [grown_ins, Array.size_setIfInBounds, h.ins]
  outs := by rw [grown_outs, Array.size_setIfInBounds, h.outs]
  queued := by rw [grown_worklist, Worklist.size_queued_pushAll, Array.size_setIfInBounds, h.queued]
  marked := (h.marked.tail next).pushAll _

/-- A turn after which the solve goes on keeps the sizes of the tables. -/
theorem Sized.takes {s s' : State α τ} (h : s.Sized p) (turn : s.Takes p options signal (.next s')) :
    s'.Sized p := by
  cases turn with
  | kept next => exact h.arrived next
  | grown next => exact h.grown next

/-- The tables of a solve never change their sizes, and its worklist stays marked. -/
theorem Reached.sized {s : State α τ} (h : Reached p options signal memory s) : s.Sized p := by
  induction h with
  | start => exact sized_start p options.order memory
  | next _ turn ih => exact ih.takes turn

section Run

variable [DecidableEq α]

/-- Where the visits of all solves that a start leads to are bounded, so are the turns: a turn that
does not end the solve is a visit. -/
theorem exists_run {bound : Nat}
    (bounded : ∀ s, Reached p options signal memory s → s.summary.visits ≤ bound) (turns : Nat)
    {s : State α τ} (h : Reached p options signal memory s)
    (enough : bound < s.summary.visits + turns) : ∃ run, run? p options signal turns s = some run := by
  induction turns generalizing s with
  | zero => exact absurd (bounded s h) (by omega)
  | succ turns ih =>
    have turn : s.Takes p options signal (s.step p options signal) := step_takes s
    rw [run?]
    generalize s.step p options signal = result at turn
    cases turn with
    | settled | cancelled | refused => exact ⟨_, rfl⟩
    | kept next goesOn same =>
      exact ih (h.next (.kept next goesOn same)) (by rw [arrived_visits]; omega)
    | grown next goesOn changed above =>
      exact ih (h.next (.grown next goesOn changed above)) (by rw [grown_visits]; omega)

/-- A run ends in a turn of a solve that its start leads to, and each turn before that one was a
visit. -/
theorem Reached.of_run? {turns : Nat} {s : State α τ} (h : Reached p options signal memory s)
    {run : Run α τ} (hr : run? p options signal turns s = some run) :
    ∃ last, Reached p options signal memory last ∧ last.Takes p options signal (.done run) ∧
      last.summary.visits < s.summary.visits + turns := by
  induction turns generalizing s with
  | zero => cases hr
  | succ turns ih =>
    have turn : s.Takes p options signal (s.step p options signal) := step_takes s
    rw [run?] at hr
    cases hstep : s.step p options signal with
    | done final =>
      rw [hstep] at hr turn
      cases hr
      exact ⟨s, h, turn, by omega⟩
    | next s' =>
      rw [hstep] at hr turn
      obtain ⟨last, hlast, hdone, hvisits⟩ := ih (h.next turn) hr
      rw [turn.visits_next] at hvisits
      exact ⟨last, hlast, hdone, by omega⟩

end Run

end State

/-! ## How a solve ends -/

namespace Problem

variable [FlowLattice α]

/-- The ways in which a solve ends. -/
inductive Ends (p : Problem ι α τ) (options : SolveOptions) (signal : Option (Signal α))
    (memory : τ) : Run α τ → Prop where
  /-- The predecessors are those of a graph of another size. -/
  | mismatch (differ : p.predecessors.size ≠ p.graph.nodeCount) :
      Ends p options signal memory
        ⟨.error (.predecessorMismatch p.graph.nodeCount p.predecessors.size), {}, memory⟩
  /-- The graph has no nodes. -/
  | empty (agree : p.predecessors.size = p.graph.nodeCount) (none : p.graph.nodeCount = 0) :
      Ends p options signal memory ⟨.ok ⟨#[], #[], {}⟩, {}, memory⟩
  /-- A turn has ended the solve. -/
  | last {run : Run α τ} {s : State α τ} (agree : p.predecessors.size = p.graph.nodeCount)
      (some : p.graph.nodeCount ≠ 0) (reached : State.Reached p options signal memory s)
      (turn : s.Takes p options signal (.done run)) : Ends p options signal memory run

/-- Every run ends in one of these ways. -/
theorem solve?_ends [DecidableEq α] {turns : Nat} {run : Run α τ}
    (h : p.solve? options signal memory turns = some run) : p.Ends options signal memory run := by
  simp only [solve?] at h
  split at h
  next differ =>
    cases h
    exact .mismatch differ
  next agree =>
    rw [not_not] at agree
    split at h
    next none =>
      cases h
      exact .empty agree none
    next some =>
      obtain ⟨s, reached, turn, -⟩ := State.Reached.start.of_run? h
      exact .last agree some reached turn

/-- A solve whose visits are bounded ends within one turn more than the bound. -/
theorem exists_solve? [DecidableEq α] {bound : Nat}
    (bounded : ∀ s, State.Reached p options signal memory s → s.summary.visits ≤ bound) {turns : Nat}
    (enough : bound < turns) : ∃ run, p.solve? options signal memory turns = some run := by
  simp only [solve?]
  split
  · exact ⟨_, rfl⟩
  · split
    · exact ⟨_, rfl⟩
    · exact State.exists_run bounded turns .start (by simpa [State.start] using enough)

/-- A solution is that of a graph without nodes, or holds the values with which no node was left to
visit. -/
theorem Ends.of_ok {run : Run α τ} (h : p.Ends options signal memory run) {solution : Solution α}
    (hok : run.outcome = .ok solution) :
    (p.graph.nodeCount = 0 ∧ solution = ⟨#[], #[], {}⟩) ∨
      ∃ s, State.Reached p options signal memory s ∧ s.worklist.pending = [] ∧
        solution = ⟨s.ins, s.outs, s.summary⟩ := by
  cases h with
  | mismatch => cases hok
  | empty _ none =>
    cases hok
    exact .inl ⟨none, rfl⟩
  | last _ _ reached turn =>
    cases turn with
    | settled empty =>
      cases hok
      exact .inr ⟨_, reached, empty, rfl⟩
    | cancelled => cases hok
    | refused => cases hok

/-- A solve fails because the predecessors are not those of the graph, because the signal asked it to
stop when a node was left to visit, or because a visit would have made a value not grow. -/
theorem Ends.of_error {run : Run α τ} (h : p.Ends options signal memory run) {failure : SolveFailure}
    (hfails : run.outcome = .error failure) :
    (p.predecessors.size ≠ p.graph.nodeCount ∧
        failure = .predecessorMismatch p.graph.nodeCount p.predecessors.size) ∨
      (failure = .cancelled ∧ ∃ s stop, State.Reached p options signal memory s ∧
        s.worklist.pending ≠ [] ∧ signal = some stop ∧ stop s.journal = true ∧
          run.journal =
            s.journal.poll.write (.cancelled s.summary.visits s.worklist.pending.length)) ∨
      ∃ s node rest, failure = .nonMonotone node ∧ State.Reached p options signal memory s ∧
        s.worklist.pending = node :: rest ∧
          FlowLattice.leq (s.leaving p node) (s.answer p node).1 = false := by
  cases h with
  | mismatch differ =>
    cases hfails
    exact .inl ⟨differ, rfl⟩
  | empty => cases hfails
  | @last _ s _ _ reached turn =>
    cases turn with
    | settled => cases hfails
    | @cancelled _ _ stop next watched stops =>
      cases hfails
      subst watched
      refine .inr (.inl ⟨rfl, s, stop, reached, ?_, rfl, stops, rfl⟩)
      rw [next]
      exact List.cons_ne_nil _ _
    | @refused node rest next _ _ _ notAbove =>
      cases hfails
      exact .inr (.inr ⟨s, node, rest, rfl, reached, next, notAbove⟩)

end Problem

end ReachingWrites
