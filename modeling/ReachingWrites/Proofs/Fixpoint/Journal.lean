import ReachingWrites.Proofs.Fixpoint.Course

/-!
# What the journal of a solve tells

The journal is all that an observer, a log and a signal see of a solve. Here it is read: which nodes
have been visited, how often what leaves a node has changed, and what had been told when a number of
visits had been made. The counts of a solve agree with its journal at every moment.

A solve need not end, so what it tells is known by the journals that it keeps: `Problem.Keeps` holds
of the journal between any two turns, and of the last one if there is a last one. Of two of them, the
one with fewer visits is the beginning of the other, as far as the observer is concerned
(`Problem.Keeps.firstVisits_eq`).
-/

set_option autoImplicit false

namespace ReachingWrites

variable {ι α τ : Type}

/-! ## Reading a journal -/

namespace Event

/-- The node that is visited, if that is what the observer is told. -/
def visited? : Event α → Option NodeId
  | .visit node => some node
  | .outChanged _ _ _ => none

/-- A visit is of its node. -/
@[simp] theorem visited?_visit (node : NodeId) : (visit node : Event α).visited? = some node := rfl

/-- A change is no visit of a node. -/
@[simp] theorem visited?_outChanged (node : NodeId) (old new : α) :
    (outChanged node old new).visited? = none := rfl

/-- A visit is a visit. -/
@[simp] theorem isVisit_visit (node : NodeId) : (visit node : Event α).isVisit = true := rfl

/-- A change is no visit. -/
@[simp] theorem isVisit_outChanged (node : NodeId) (old new : α) :
    (outChanged node old new).isVisit = false := rfl

/-- The visited nodes are those with a visit among the events. -/
theorem mem_filterMap_visited? {events : List (Event α)} {node : NodeId} :
    node ∈ events.filterMap visited? ↔ .visit node ∈ events := by
  rw [List.mem_filterMap]
  constructor
  · intro h
    obtain ⟨event, hmem, hnode⟩ := h
    cases event with
    | visit =>
      cases hnode
      exact hmem
    | outChanged => cases hnode
  · intro h
    exact ⟨_, h, rfl⟩

/-- There are as many visited nodes as visits among the events. -/
theorem length_filterMap_visited? (events : List (Event α)) :
    (events.filterMap visited?).length = events.countP isVisit := by
  induction events with
  | nil => rfl
  | cons event events ih => cases event <;> simp [List.filterMap_cons, List.countP_cons, ih]

/-- What the observer is told before the visit after the first `count` ones. -/
def firstVisits : Nat → List (Event α) → List (Event α)
  | _, [] => []
  | count, .outChanged node old new :: events =>
    .outChanged node old new :: firstVisits count events
  | 0, .visit _ :: _ => []
  | count + 1, .visit node :: events => .visit node :: firstVisits count events

/-- The events up to a visit are the first ones. -/
theorem firstVisits_prefix (count : Nat) (events : List (Event α)) :
    firstVisits count events <+: events := by
  fun_induction firstVisits count events with
  | case1 => exact List.prefix_rfl
  | case2 _ _ _ _ _ ih => exact List.prefix_cons_inj _ |>.mpr ih
  | case3 => exact List.nil_prefix
  | case4 _ _ _ ih => exact List.prefix_cons_inj _ |>.mpr ih

/-- With no more visits than that, it is all that the observer is told. -/
theorem firstVisits_of_le {count : Nat} {events : List (Event α)}
    (h : events.countP isVisit ≤ count) : firstVisits count events = events := by
  fun_induction firstVisits count events with
  | case1 => rfl
  | case2 _ _ _ _ _ ih => rw [ih (by simpa using h)]
  | case3 => simp [List.countP_cons] at h
  | case4 _ _ _ ih => rw [ih (by simpa [List.countP_cons] using h)]

/-- What is told from a later visit on makes no difference. -/
theorem firstVisits_append_visit {count : Nat} {events : List (Event α)} (node : NodeId)
    (more : List (Event α)) (h : count ≤ events.countP isVisit) :
    firstVisits count (events ++ .visit node :: more) = firstVisits count events := by
  fun_induction firstVisits count events with
  | case1 count =>
    obtain rfl := Nat.le_zero.mp h
    rfl
  | case2 count n old new events ih =>
    rw [List.cons_append, firstVisits, ih (by simpa using h)]
  | case3 => rfl
  | case4 count n events ih =>
    rw [List.cons_append, firstVisits, ih (by simpa [List.countP_cons] using h)]

end Event

namespace Journal

/-- The nodes that have been visited, in that order. -/
def visited (j : Journal α) : List NodeId := j.events.toList.filterMap Event.visited?

/-- How often what leaves a node has changed. -/
def changes (j : Journal α) : Nat := j.events.toList.countP (!·.isVisit)

/-- The journal counts the visited nodes. -/
theorem length_visited (j : Journal α) : j.visited.length = j.visits :=
  Event.length_filterMap_visited? j.events.toList

/-- A visit is the last event once it is entered. -/
@[simp] theorem toList_events_visit (j : Journal α) (node : NodeId) :
    (j.visit node).events.toList = j.events.toList ++ [.visit node] := Array.toList_push

/-- A change is the last event once it is entered. -/
@[simp] theorem toList_events_outChanged (j : Journal α) (node : NodeId) (old new : α) :
    (j.outChanged node old new).events.toList = j.events.toList ++ [.outChanged node old new] :=
  Array.toList_push

/-- A visit adds its node to the visited ones. -/
@[simp] theorem visited_visit (j : Journal α) (node : NodeId) :
    (j.visit node).visited = j.visited ++ [node] := by
  rw [visited, toList_events_visit, List.filterMap_append]
  rfl

/-- A change adds no visited node. -/
@[simp] theorem visited_outChanged (j : Journal α) (node : NodeId) (old new : α) :
    (j.outChanged node old new).visited = j.visited := by
  rw [visited, toList_events_outChanged, List.filterMap_append]
  exact List.append_nil _

/-- A visit is counted as one. -/
@[simp] theorem visits_visit (j : Journal α) (node : NodeId) :
    (j.visit node).visits = j.visits + 1 := by
  simp [visits]

/-- A change is not counted as a visit. -/
@[simp] theorem visits_outChanged (j : Journal α) (node : NodeId) (old new : α) :
    (j.outChanged node old new).visits = j.visits := by
  simp [visits]

/-- A visit is not counted as a change. -/
@[simp] theorem changes_visit (j : Journal α) (node : NodeId) :
    (j.visit node).changes = j.changes := by
  simp [changes]

/-- A change is counted as one. -/
@[simp] theorem changes_outChanged (j : Journal α) (node : NodeId) (old new : α) :
    (j.outChanged node old new).changes = j.changes + 1 := by
  simp [changes]

end Journal

variable [FlowLattice α]
variable {p : Problem ι α τ} {options : SolveOptions} {signal : Option (Signal α)} {memory : τ}

namespace State

/-! ## What a turn adds -/

omit [FlowLattice α] in
/-- Asking the signal is no event. -/
@[simp] theorem asked_events (s : State α τ) :
    (s.asked signal).journal.events = s.journal.events := by
  cases signal <;> rfl

omit [FlowLattice α] in
/-- Asking the signal visits no node. -/
@[simp] theorem asked_visited (s : State α τ) :
    (s.asked signal).journal.visited = s.journal.visited := by
  cases signal <;> rfl

omit [FlowLattice α] in
/-- Asking the signal is not counted as a visit. -/
@[simp] theorem asked_visits (s : State α τ) :
    (s.asked signal).journal.visits = s.journal.visits := by
  cases signal <;> rfl

omit [FlowLattice α] in
/-- Asking the signal is not counted as a change. -/
@[simp] theorem asked_changes (s : State α τ) :
    (s.asked signal).journal.changes = s.journal.changes := by
  cases signal <;> rfl

section Turn

variable (s : State α τ) (node : NodeId) (rest : List NodeId)

/-- The journal of a visit without a change holds the visit. -/
@[simp] theorem arrived_journal : (s.arrived p signal node rest).journal =
    (s.asked signal).journal.visit node := rfl

/-- A visit without a change is counted in the summary as a visit. -/
@[simp] theorem arrived_summary : (s.arrived p signal node rest).summary =
    ⟨s.summary.visits + 1, s.summary.updates⟩ := by
  cases signal <;> rfl

/-- A visit with a change is counted in the summary as both. -/
@[simp] theorem grown_summary : (s.grown p signal node rest).summary =
    ⟨s.summary.visits + 1, s.summary.updates + 1⟩ := by
  cases signal <;> rfl

/-- The journal of a visit with a change holds the change behind the visit, from what left the node to
the answer. -/
@[simp] theorem grown_journal : (s.grown p signal node rest).journal =
    (s.arrived p signal node rest).journal.outChanged node (s.leaving p node)
      (s.answer p node).1 := rfl

end Turn

/-- The turns that go on begin with a visit. -/
theorem Takes.events_next {s s' : State α τ} (turn : s.Takes p options signal (.next s')) :
    ∃ node more,
      s'.journal.events.toList = s.journal.events.toList ++ .visit node :: more := by
  cases turn with
  | @kept node => exact ⟨node, [], by simp⟩
  | @grown node => exact ⟨node, [.outChanged node (s.leaving p node) (s.answer p node).1], by simp⟩

/-- A turn after which the solve goes on is one visit in the journal. -/
theorem Takes.journal_visits_next {s s' : State α τ} (turn : s.Takes p options signal (.next s')) :
    s'.journal.visits = s.journal.visits + 1 := by
  cases turn with
  | kept => simp
  | grown => simp

/-- The turn that ends a solve tells of nothing, or of the visit that is refused. -/
theorem Takes.events_done {s : State α τ} {run : Run α τ}
    (turn : s.Takes p options signal (.done run)) :
    run.journal.events.toList = s.journal.events.toList ∨
      ∃ node rest, s.worklist.pending = node :: rest ∧
        run.journal.events.toList = s.journal.events.toList ++ [.visit node] := by
  cases turn with
  | settled => exact .inl rfl
  | cancelled =>
    left
    exact congrArg Array.toList (asked_events s)
  | @refused node rest next =>
    right
    exact ⟨node, rest, next, by simp [fail]⟩

/-- The counts of a solve are those of its journal. -/
theorem Reached.summary_eq {s : State α τ} (h : Reached p options signal memory s) :
    s.summary = ⟨s.journal.visits, s.journal.changes⟩ := by
  induction h with
  | start => rfl
  | next _ turn ih =>
    cases turn with
    | kept => simp [ih]
    | grown => simp [ih]

/-- The journal and the summary count the same visits. -/
theorem Reached.visits_eq {s : State α τ} (h : Reached p options signal memory s) :
    s.journal.visits = s.summary.visits := by
  rw [h.summary_eq]

/-! ## Fewer visits tell the beginning -/

section Row

variable [DecidableEq α]

/-- The solve that a turn ends has the most visits of all that the start leads to. -/
theorem Reached.visits_le_last {s last : State α τ} (h : Reached p options signal memory s)
    (hlast : Reached p options signal memory last) {run : Run α τ}
    (turn : last.Takes p options signal (.done run)) : s.summary.visits ≤ last.summary.visits := by
  induction h with
  | start => exact Nat.zero_le _
  | next before goesOn ih =>
    rw [goesOn.visits_next]
    refine Nat.lt_of_le_of_ne ih fun hsame => ?_
    obtain rfl := before.eq_of_visits hlast hsame
    cases goesOn.unique turn

/-- What one solve has told is what any later one had told after as many visits. -/
theorem Reached.firstVisits_eq {s s' : State α τ} (h : Reached p options signal memory s)
    (h' : Reached p options signal memory s') (hle : s.summary.visits ≤ s'.summary.visits) :
    Event.firstVisits s.journal.visits s'.journal.events.toList = s.journal.events.toList := by
  -- the count of the visits is carried along, for it must not exceed those of the later solve
  refine And.right (h.of_visits_le (motive := fun t => s.journal.visits ≤ t.journal.visits ∧
    Event.firstVisits s.journal.visits t.journal.events.toList = s.journal.events.toList)
    ⟨Nat.le_refl _, Event.firstVisits_of_le (Nat.le_refl _)⟩ ?_ h' hle)
  intro t t' _ turn ih
  have hmore := turn.journal_visits_next
  obtain ⟨node, more, hevents⟩ := turn.events_next
  refine ⟨by omega, ?_⟩
  rw [hevents, Event.firstVisits_append_visit node more ih.1]
  exact ih.2

end Row

end State

namespace Problem

/-- The counts of a solution are those of the journal of its run. -/
theorem Ends.summary_eq {run : Run α τ} (h : p.Ends options signal memory run)
    {solution : Solution α} (hok : run.outcome = .ok solution) :
    solution.summary = ⟨run.journal.visits, run.journal.changes⟩ := by
  cases h with
  | mismatch => cases hok
  | empty =>
    cases hok
    rfl
  | last _ _ reached turn =>
    cases turn with
    | settled =>
      cases hok
      exact reached.summary_eq
    | cancelled | refused => cases hok

/-- The journals that a solve keeps: between two turns and at its end. -/
inductive Keeps (p : Problem ι α τ) (options : SolveOptions) (signal : Option (Signal α))
    (memory : τ) : Journal α → Prop where
  /-- The journal before a turn. -/
  | during {s : State α τ} (posed : p.Posed) (reached : State.Reached p options signal memory s) :
      Keeps p options signal memory s.journal
  /-- The journal at the end. -/
  | ended {run : Run α τ} (ends : p.Ends options signal memory run) :
      Keeps p options signal memory run.journal

/-- What holds of all journals that a solve keeps holds of the one that its run leaves behind. -/
theorem solve?_keeps [DecidableEq α] {turns : Nat} {run : Run α τ}
    (h : p.solve? options signal memory turns = some run) :
    p.Keeps options signal memory run.journal :=
  .ended (solve?_ends h)

/-- A journal that a solve keeps tells what it told before some turn, and at most one visit more. -/
theorem Keeps.events {journal : Journal α} (h : p.Keeps options signal memory journal) :
    ∃ s, State.Reached p options signal memory s ∧
      (journal.events.toList = s.journal.events.toList ∨
        ∃ node rest, s.worklist.pending = node :: rest ∧
          journal.events.toList = s.journal.events.toList ++ [.visit node]) := by
  cases h with
  | during _ reached => exact ⟨_, reached, .inl rfl⟩
  | ended ends =>
    cases ends with
    | mismatch => exact ⟨_, .start, .inl rfl⟩
    | empty => exact ⟨_, .start, .inl rfl⟩
    | last _ _ reached turn => exact ⟨_, reached, turn.events_done⟩

/-- Where there is nothing to visit, nothing is told. -/
theorem Keeps.eq_empty {journal : Journal α} (h : p.Keeps options signal memory journal)
    (hnone : ¬p.Posed) : journal = {} := by
  cases h with
  | during posed => exact absurd posed hnone
  | ended ends =>
    cases ends with
    | mismatch | empty => rfl
    | last agree some => exact absurd ⟨agree, some⟩ hnone

/-- What a solve had told when it had made some visits is what any journal with as many visits tells
of that many. -/
theorem Keeps.firstVisits_eq [DecidableEq α] {journal : Journal α}
    (h : p.Keeps options signal memory journal) {s : State α τ}
    (reached : State.Reached p options signal memory s)
    (hle : s.journal.visits ≤ journal.visits) :
    Event.firstVisits s.journal.visits journal.events.toList = s.journal.events.toList := by
  cases h with
  | during _ reached' =>
    rw [reached.visits_eq, reached'.visits_eq] at hle
    exact reached.firstVisits_eq reached' hle
  | ended ends =>
    cases ends with
    | mismatch | empty =>
      have hstart : s.journal.visits = (State.start p options.order memory).journal.visits :=
        Nat.le_zero.mp hle
      rw [reached.visits_eq] at hstart
      obtain rfl := reached.eq_of_visits .start hstart
      rfl
    | last _ _ reached' turn =>
      have hlast := reached.visits_le_last reached' turn
      have hfirst := reached.firstVisits_eq reached' hlast
      rcases turn.events_done with hsame | ⟨node, _, _, hevents⟩
      · rw [hsame]
        exact hfirst
      · rw [← reached.visits_eq, ← reached'.visits_eq] at hlast
        rw [hevents, Event.firstVisits_append_visit node [] hlast]
        exact hfirst

end Problem

end ReachingWrites
