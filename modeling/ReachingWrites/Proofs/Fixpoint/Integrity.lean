import ReachingWrites.Proofs.Fixpoint.Visits

/-!
# The worklist and the tables of a solve stay intact

A solve keeps three things that must fit each other: the queue of the nodes that wait, their marks, and
the values at the nodes. Neither the predecessors nor the successors need to fit them. The predecessors
may be those of another graph, and either may name nodes that the graph does not have, or one node again
and again. At the head of every turn the worklist is in order all the same, as `State.Intact` says.

Therefore every table has a place for the node that a turn visits. `State.visit` does not show this, for
it leaves a table as it is where it has no place for the node, and reads `bottom` there.
`State.strictStep?` is the turn that has no result in such a case. `State.strictRun?` takes such turns, and
from a start it always has the result of `State.run?`.

What enters a node may miss a change of a predecessor that has no edge to it. What leaves a node is still
what its transfer makes of what entered it, for nothing else writes to the values of a node.
-/

set_option autoImplicit false

namespace ReachingWrites

variable {ι α τ : Type}

/-! ## Tables that must have a place -/

/-- Changes the entry of a table at a place. There is no result if the table does not have the place. -/
def setAt? {β : Type} (entries : Array β) (place : Nat) (entry : β) : Option (Array β) :=
  if h : place < entries.size then some (entries.set place entry h) else none

private theorem setAt?_of_lt {β : Type} {entries : Array β} {place : Nat} (h : place < entries.size)
    (entry : β) : setAt? entries place entry = some (entries.setIfInBounds place entry) := by
  rw [setAt?, dif_pos h, Array.setIfInBounds, dif_pos h]

namespace State

section Strict

variable [FlowLattice α] [DecidableEq α]

/-- A visit as in `State.visit`, of a node that `rest` follows on the worklist. It has no result if the
marks, the values that enter or the values that leave have no place for the node where it is looked up. -/
def strictVisit? (s : State α τ) (p : Problem ι α τ) (checkMonotone : Bool) (node : NodeId)
    (rest : List NodeId) : Option (Turn α τ) := do
  let queued ← setAt? s.worklist.queued node false
  let ins ← setAt? s.ins node (p.inValue s.outs node)
  let entering ← ins[node]?
  let answer := p.transfer s.memory node entering
  let old ← s.outs[node]?
  let visited : State α τ :=
    { worklist := ⟨rest, queued⟩
      ins
      outs := s.outs
      summary := { s.summary with visits := s.summary.visits + 1 }
      journal := s.journal.visit node
      memory := answer.2 }
  if answer.1 = old then some (.next visited)
  else if checkMonotone && !FlowLattice.leq old answer.1 then
    some (.done (visited.fail (.nonMonotone node)))
  else do
    let outs ← setAt? s.outs node answer.1
    some (.next { visited with
      worklist := visited.worklist.pushAll (p.graph.successors node)
      outs
      summary := { visited.summary with updates := visited.summary.updates + 1 }
      journal := visited.journal.outChanged node old answer.1 })

/-- A turn as in `State.step`, with no result if a table has no place for the node that is visited. -/
def strictStep? (s : State α τ) (p : Problem ι α τ) (options : SolveOptions)
    (signal : Option (Signal α)) : Option (Turn α τ) :=
  match s.worklist.pending with
  | [] => some (.done (s.settle p.graph.nodeCount))
  | node :: rest =>
    if s.stops signal then some (.done ((s.asked signal).cancel (rest.length + 1)))
    else (s.asked signal).strictVisit? p options.checkMonotone node rest

/-- Takes turns as in `State.run?`. There is no result, not even that the number of turns did not suffice,
if a turn has none. -/
def strictRun? (p : Problem ι α τ) (options : SolveOptions) (signal : Option (Signal α)) :
    Nat → State α τ → Option (Option (Run α τ))
  | 0, _ => some none
  | turns + 1, s =>
    match s.strictStep? p options signal with
    | none => none
    | some (.done run) => some (some run)
    | some (.next s') => strictRun? p options signal turns s'

end Strict

/-! ## What is intact -/

/-- The queue, the marks and the values fit each other and the graph. -/
structure Intact (p : Problem ι α τ) (s : State α τ) : Prop where
  /-- No node waits twice. -/
  nodup : s.worklist.pending.Nodup
  /-- A node waits exactly when it is marked. -/
  mem_iff : ∀ node, node ∈ s.worklist.pending ↔ s.worklist.queued[node]? = some true
  /-- Only nodes of the graph wait. -/
  lt : ∀ node ∈ s.worklist.pending, node < p.graph.nodeCount
  /-- No more nodes wait than the graph has. -/
  length_le : s.worklist.pending.length ≤ p.graph.nodeCount
  /-- There is a mark for each node. -/
  size_queued : s.worklist.queued.size = p.graph.nodeCount
  /-- There is a value that enters each node. -/
  size_ins : s.ins.size = p.graph.nodeCount
  /-- There is a value that leaves each node. -/
  size_outs : s.outs.size = p.graph.nodeCount

private theorem Sized.intact {p : Problem ι α τ} {s : State α τ} (h : s.Sized p) : s.Intact p where
  nodup := h.marked.nodup
  mem_iff := h.marked.mem_iff
  lt _ hwaits := h.queued ▸ h.marked.lt_size hwaits
  length_le := h.queued ▸ h.marked.length_pending_le
  size_queued := h.queued
  size_ins := h.ins
  size_outs := h.outs

variable [FlowLattice α]
variable {p : Problem ι α τ} {options : SolveOptions} {signal : Option (Signal α)} {memory : τ}

/-! ## No turn looks a node up where it is not -/

section Strict

variable [DecidableEq α]

/-- If all tables have a place for the node, the visit has its result. -/
private theorem strictVisit?_eq_some {s : State α τ} {node : NodeId} (rest : List NodeId)
    (checkMonotone : Bool) (queued : node < s.worklist.queued.size) (ins : node < s.ins.size)
    (outs : node < s.outs.size) :
    s.strictVisit? p checkMonotone node rest =
      some ({ s with worklist := ⟨rest, s.worklist.queued.setIfInBounds node false⟩ }.visit p
        checkMonotone node) := by
  have hentering : (s.ins.setIfInBounds node (p.inValue s.outs node))[node]? =
      some (p.inValue s.outs node) := Array.getElem?_setIfInBounds_self_of_lt ins
  have hold : s.outs[node]? = some (s.outs.getD node p.bottom) := by
    rw [Array.getD_eq_getD_getElem?, Array.getElem?_eq_getElem outs, Option.getD_some]
  simp only [strictVisit?, setAt?_of_lt queued, setAt?_of_lt ins, setAt?_of_lt outs, hentering, hold,
    Option.bind_eq_bind, Option.bind_some, visit, visited, update]
  rw [apply_ite some, apply_ite some]

/-- In a solve whose tables have their sizes, a turn finds every place that it looks up. -/
theorem Sized.strictStep?_eq_some {s : State α τ} (h : s.Sized p) :
    s.strictStep? p options signal = some (s.step p options signal) := by
  unfold strictStep?
  cases next : s.worklist.pending with
  | nil => rw [step_of_empty next]
  | cons node rest =>
    have hlt := h.lt next
    cases hstops : s.stops signal with
    | true =>
      rw [step_of_stops next hstops, next]
      rfl
    | false =>
      have hsame : (s.asked signal).worklist = s.worklist := by cases signal <;> rfl
      simp only [Bool.false_eq_true, if_false, step, Worklist.pop?, next, hstops]
      rw [strictVisit?_eq_some rest options.checkMonotone, hsame]
      · rw [hsame, h.queued]
        exact hlt
      · rw [asked_ins, h.ins]
        exact hlt
      · rw [asked_outs, h.outs]
        exact hlt

/-- So does a run, from wherever it takes its turns. -/
theorem Reached.strictRun?_eq_some {s : State α τ} (h : Reached p options signal memory s)
    (turns : Nat) : strictRun? p options signal turns s = some (run? p options signal turns s) := by
  induction turns generalizing s with
  | zero => rfl
  | succ turns ih =>
    have turn : s.Takes p options signal (s.step p options signal) := step_takes s
    rw [strictRun?, run?, h.sized.strictStep?_eq_some]
    cases hstep : s.step p options signal with
    | done run => rfl
    | next s' =>
      rw [hstep] at turn
      exact ih (h.next turn)

end Strict

/-! ## What leaves a node -/

/-- Each node is on the worklist, or what leaves it is what its transfer makes of what entered it. -/
def LeavesBy (s : State α τ) (p : Problem ι α τ) (f : NodeId → α → α) : Prop :=
  ∀ node < p.graph.nodeCount,
    node ∈ s.worklist.pending ∨ s.leaving p node = f node (s.entered p node)

omit [FlowLattice α] in
private theorem leavesBy_start (p : Problem ι α τ) (f : NodeId → α → α) (order : VisitOrder)
    (memory : τ) : (start p order memory).LeavesBy p f :=
  fun _ hlt => .inl (Worklist.mem_arrange.mpr hlt)

/-- A turn sets both values of the node that it visits, and no others. So nothing is needed of the
predecessors from which it takes what enters the node. -/
private theorem LeavesBy.takes {f : NodeId → α → α} (hf : p.Answers f) {s s' : State α τ}
    (h : s.LeavesBy p f) (hs : s.Sized p) (turn : s.Takes p options signal (.next s')) :
    s'.LeavesBy p f := by
  intro other hlt
  cases turn with
  | @kept node rest next _ same =>
    rw [leaving_arrived, entered_arrived hs next]
    by_cases hne : other = node
    · subst hne
      rw [Function.update_self, ← same]
      exact .inr (hf _ _ _)
    · rw [Function.update_of_ne hne]
      exact (h other hlt).imp_left (mem_rest next hne).mp
  | @grown node rest next =>
    rw [leaving_grown hs next, entered_grown hs next]
    by_cases hne : other = node
    · subst hne
      rw [Function.update_self, Function.update_self]
      exact .inr (hf _ _ _)
    · rw [Function.update_of_ne hne, Function.update_of_ne hne]
      refine (h other hlt).imp_left fun hwaits => ?_
      exact (Worklist.prefix_pushAll _ _).subset ((mem_rest next hne).mp hwaits)

/-- In every state that is reached, each node waits or is left by what its transfer makes of what
entered it. -/
theorem Reached.leavesBy {f : NodeId → α → α} (hf : p.Answers f) {s : State α τ}
    (h : Reached p options signal memory s) : s.LeavesBy p f := by
  induction h with
  | start => exact leavesBy_start p f options.order memory
  | next before turn ih => exact ih.takes hf before.sized turn

end State

namespace Problem

variable [FlowLattice α]
variable {p : Problem ι α τ} {options : SolveOptions} {signal : Option (Signal α)} {memory : τ}

/-- With a solution that a solve ends with, all nodes have been visited. -/
theorem Ends.visit_mem {run : Run α τ} (h : p.Ends options signal memory run) {solution : Solution α}
    (hok : run.outcome = .ok solution) {node : NodeId} (hlt : node < p.graph.nodeCount) :
    .visit node ∈ run.journal.events.toList := by
  have hmem := (h.history hok).seeded.subset (Worklist.mem_arrange.mpr hlt)
  rw [List.append_nil] at hmem
  exact Event.mem_filterMap_visited?.mp hmem

/-- A solution has two values for each node, and the second is what the transfer makes of the first. -/
theorem Ends.leaves {f : NodeId → α → α} (hf : p.Answers f) {run : Run α τ}
    (h : p.Ends options signal memory run) {solution : Solution α}
    (hok : run.outcome = .ok solution) {node : NodeId} (hlt : node < p.graph.nodeCount) :
    ∃ entering, solution.ins[node]? = some entering ∧ solution.outs[node]? = some (f node entering) := by
  rcases h.of_ok hok with ⟨none, -⟩ | ⟨s, reached, empty, rfl⟩
  · rw [none] at hlt
    exact absurd hlt (Nat.not_lt_zero node)
  · have hins : node < s.ins.size := reached.sized.ins ▸ hlt
    have houts : node < s.outs.size := reached.sized.outs ▸ hlt
    have hleaves := (reached.leavesBy hf node hlt).resolve_left (by rw [empty]; exact List.not_mem_nil)
    rw [State.leaving, State.entered, Array.getD_eq_getD_getElem?, Array.getD_eq_getD_getElem?,
      Array.getElem?_eq_getElem hins, Array.getElem?_eq_getElem houts, Option.getD_some,
      Option.getD_some] at hleaves
    exact ⟨_, Array.getElem?_eq_getElem hins, by rw [Array.getElem?_eq_getElem houts, hleaves]⟩

/-- At the head of every turn the worklist and the tables are intact, and no turn looks a node up in a
table that has no place for it. This holds for any predecessors and successors, and for transfers that
answer anything. If the transfers answer by `f` and the solve ends with a solution, each node has been
visited, and what leaves it is `f` of what entered it. -/
theorem solve?_intact [DecidableEq α] (p : Problem ι α τ) (options : SolveOptions)
    (signal : Option (Signal α)) (memory : τ) :
    (∀ s, State.Reached p options signal memory s → s.Intact p) ∧
    (∀ turns, State.strictRun? p options signal turns (.start p options.order memory) =
      some (State.run? p options signal turns (.start p options.order memory))) ∧
    ∀ f, p.Answers f → ∀ turns run solution,
      p.solve? options signal memory turns = some run → run.outcome = .ok solution →
        solution.ins.size = p.graph.nodeCount ∧ solution.outs.size = p.graph.nodeCount ∧
        ∀ node < p.graph.nodeCount, .visit node ∈ run.journal.events.toList ∧
          ∃ entering, solution.ins[node]? = some entering ∧
            solution.outs[node]? = some (f node entering) := by
  refine ⟨fun s reached => reached.sized.intact, State.Reached.start.strictRun?_eq_some, ?_⟩
  intro f hf turns run solution hr hok
  have hends := solve?_ends hr
  obtain ⟨hins, houts⟩ : solution.ins.size = p.graph.nodeCount ∧
      solution.outs.size = p.graph.nodeCount := by
    rcases hends.of_ok hok with ⟨none, rfl⟩ | ⟨s, reached, -, rfl⟩
    · exact ⟨none.symm, none.symm⟩
    · exact ⟨reached.sized.ins, reached.sized.outs⟩
  exact ⟨hins, houts, fun node hlt => ⟨hends.visit_mem hok hlt, hends.leaves hf hok hlt⟩⟩

/-- Two nodes with predecessors that are not those of the graph. The second node stands before the first
one without an edge to it, and predecessors and edges name nodes that are not there. -/
def strayLists : Problem Instr Nat Unit :=
  .stateless ⟨#[⟨[], [1, 9, 1]⟩, ⟨[], [4]⟩]⟩ ⟨#[[1, 7], []]⟩ 0 fun node value =>
    if node = 0 then value + 3 else 5

/-- The first node is not visited again when `5` leaves the second one. What leaves the first node is its
transfer of what entered it at its only visit. -/
theorem strayLists_intact :
    State.Reached strayLists {} none () ((State.start strayLists .forward ()).grown strayLists none 0 [1]) ∧
      ((State.start strayLists .forward ()).grown strayLists none 0 [1]).Intact strayLists ∧
      strayLists.Answers (fun node value => if node = 0 then value + 3 else 5) ∧
      ∃ run solution, strayLists.solve? {} none () 3 = some run ∧ run.outcome = .ok solution ∧
        solution = ⟨#[0, 0], #[3, 5], ⟨2, 2⟩⟩ ∧ .visit 0 ∈ run.journal.events.toList ∧
        ∃ entering, solution.ins[0]? = some entering ∧
          solution.outs[0]? = some (entering + 3) := by
  have hreached : State.Reached strayLists {} none ()
      ((State.start strayLists .forward ()).grown strayLists none 0 [1]) :=
    .next .start (.grown rfl rfl (by decide) (by decide))
  have hf : strayLists.Answers fun node value => if node = 0 then value + 3 else 5 :=
    fun _ _ _ => rfl
  have hmap : (strayLists.solve? {} none () 3).map Run.outcome =
      some (.ok ⟨#[0, 0], #[3, 5], ⟨2, 2⟩⟩) := rfl
  obtain ⟨run, hr, hok⟩ := Option.map_eq_some_iff.mp hmap
  obtain ⟨hheads, -, hsolved⟩ := solve?_intact strayLists {} none ()
  obtain ⟨-, -, hnodes⟩ := hsolved _ hf 3 run _ hr hok
  exact ⟨hreached, hheads _ hreached, hf, run, _, hr, hok, rfl, hnodes 0 (by decide)⟩

end Problem

end ReachingWrites
