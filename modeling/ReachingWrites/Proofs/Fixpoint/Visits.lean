import ReachingWrites.Proofs.Fixpoint.Equations
import ReachingWrites.Proofs.Fixpoint.Journal

/-!
# Which nodes a solve visits, and why

A solve visits all nodes once, in the order of its start. From then on it visits a node for a reason:
since the last visit of the node, what leaves a node with an edge to it has changed. And no reason is
passed over: when a solve ends with a solution, each change has been followed by visits of all nodes
that the changed one has edges to. That includes the node itself if it has an edge to itself.

Behind this is `Event.History`, which relates what has been told to the nodes that wait. A visit and a
change each keep it, whatever the values are, so it holds however the transfers answer and wherever
the solve ends.
-/

set_option autoImplicit false

namespace ReachingWrites

variable {ι α τ : Type}

/-- The node that stands at a place in an order of `count` nodes. -/
def VisitOrder.nodeAt (order : VisitOrder) (count place : Nat) : NodeId :=
  match order with
  | .forward => place
  | .reverse => count - 1 - place

private theorem VisitOrder.getElem?_arrange (order : VisitOrder) {count place : Nat}
    (h : place < count) :
    (order.arrange count)[place]? = some (order.nodeAt count place) := by
  cases order with
  | forward => exact List.getElem?_range h
  | reverse =>
    have hback : count - 1 - place < count := by omega
    rw [arrange, List.getElem?_reverse (by rwa [List.length_range]), List.length_range,
      List.getElem?_range hback]
    rfl

/-- Where an element stands in a list with one more element: it is the last one, or it stands in the
list. -/
theorem concat_eq_append_cons {β : Type} {events before after : List β} {last event : β}
    (h : events ++ [last] = before ++ event :: after) :
    (after = [] ∧ events = before ∧ last = event) ∨
      ∃ more, after = more ++ [last] ∧ events = before ++ event :: more := by
  rcases List.eq_nil_or_concat' after with rfl | ⟨more, other, rfl⟩
  · obtain ⟨hsame, hlast⟩ := List.append_inj' h rfl
    cases hlast
    exact .inl ⟨rfl, hsame, rfl⟩
  · rw [← List.cons_append, ← List.append_assoc] at h
    obtain ⟨hsame, hlast⟩ := List.append_inj' h rfl
    cases hlast
    exact .inr ⟨more, rfl, hsame⟩

/-- An element of a list stands somewhere for the last time. -/
private theorem exists_last_of_mem {β : Type} {events : List β} {event : β} (h : event ∈ events) :
    ∃ earlier since, events = earlier ++ event :: since ∧ event ∉ since := by
  obtain ⟨since, earlier, hback, hnot⟩ := List.eq_append_cons_of_mem (List.mem_reverse.mpr h)
  refine ⟨earlier.reverse, since.reverse, ?_, fun hmem => hnot (List.mem_reverse.mp hmem)⟩
  rw [← List.reverse_reverse events, hback, List.reverse_append, List.reverse_cons,
    List.append_assoc, List.singleton_append]

namespace Event

variable {g : FlowGraph ι} {order : VisitOrder} {events : List (Event α)} {waiting : List NodeId}

/-! ## What makes a visit due -/

/-- A visit of the node is due: since any visit of it, what leaves a node with an edge to it has
changed. -/
def Due (g : FlowGraph ι) (events : List (Event α)) (node : NodeId) : Prop :=
  ∀ ⦃earlier since⦄, events = earlier ++ .visit node :: since →
    ∃ source old new, .outChanged source old new ∈ since ∧ node ∈ g.successors source

/-- Only a visit of the node settles what is due. -/
private theorem Due.concat {node : NodeId} (h : Due g events node) {event : Event α}
    (other : event ≠ .visit node) : Due g (events ++ [event]) node := by
  intro earlier since hsplit
  rcases concat_eq_append_cons hsplit with ⟨-, -, hsame⟩ | ⟨more, rfl, hmore⟩
  · exact absurd hsame other
  · obtain ⟨source, old, new, hmem, hsucc⟩ := h hmore
    exact ⟨source, old, new, List.mem_append_left _ hmem, hsucc⟩

/-- A change makes visits of all nodes due to which there is an edge. -/
private theorem due_outChanged {source node : NodeId} (h : node ∈ g.successors source) (old new : α) :
    Due g (events ++ [.outChanged source old new]) node := by
  intro earlier since hsplit
  rcases concat_eq_append_cons hsplit with ⟨-, -, hsame⟩ | ⟨more, rfl, -⟩
  · cases hsame
  · exact ⟨source, old, new, List.mem_append_right _ (List.mem_singleton_self _), h⟩

/-! ## What has been told and what waits -/

/-- How the events of a solve fit the nodes that wait after them. -/
structure History (g : FlowGraph ι) (order : VisitOrder) (events : List (Event α))
    (waiting : List NodeId) : Prop where
  /-- The nodes that have been visited and those that wait begin with all nodes in order. -/
  seeded : order.arrange g.nodeCount <+: events.filterMap visited? ++ waiting
  /-- Only nodes of the graph have been visited. -/
  inGraph : ∀ node ∈ events.filterMap visited?, node < g.nodeCount
  /-- A node that waits is due. -/
  due : ∀ node ∈ waiting, Due g events node
  /-- Every visit was due. -/
  wasDue : ∀ ⦃before node after⦄, events = before ++ .visit node :: after → Due g before node
  /-- After a change, every node to which there is an edge has been visited, or it waits. -/
  followed : ∀ ⦃before source old new after⦄,
    events = before ++ .outChanged source old new :: after →
      ∀ node ∈ g.successors source, node < g.nodeCount → .visit node ∈ after ∨ node ∈ waiting

/-- At the start nothing has been told and all nodes wait. -/
private theorem history_nil (g : FlowGraph ι) (order : VisitOrder) :
    History g order ([] : List (Event α)) (order.arrange g.nodeCount) where
  seeded := List.prefix_rfl
  inGraph _ hmem := by cases hmem
  due _ _ _ _ hsplit := by simp at hsplit
  wasDue _ _ _ hsplit := by simp at hsplit
  followed _ _ _ _ _ hsplit := by simp at hsplit

/-- A visit takes a node out that waited once. -/
private theorem History.visit {node : NodeId} (h : History g order events (node :: waiting))
    (hlt : node < g.nodeCount) (once : node ∉ waiting) :
    History g order (events ++ [.visit node]) waiting where
  seeded := by
    rw [List.filterMap_append, List.append_assoc]
    exact h.seeded
  inGraph := by
    rw [List.filterMap_append, List.forall_mem_append]
    exact ⟨h.inGraph, List.forall_mem_singleton.mpr hlt⟩
  due other hmem := by
    refine (h.due other (List.mem_cons_of_mem _ hmem)).concat fun hsame => ?_
    cases hsame
    exact once hmem
  wasDue before other after hsplit := by
    rcases concat_eq_append_cons hsplit with ⟨-, rfl, hsame⟩ | ⟨more, -, hmore⟩
    · cases hsame
      exact h.due node List.mem_cons_self
    · exact h.wasDue hmore
  followed before source old new after hsplit other hsucc hother := by
    rcases concat_eq_append_cons hsplit with ⟨-, -, hsame⟩ | ⟨more, rfl, hmore⟩
    · cases hsame
    · rcases h.followed hmore other hsucc hother with hseen | hwaits
      · exact .inl (List.mem_append_left _ hseen)
      · -- of the nodes that waited, one is visited now
        rcases List.mem_cons.mp hwaits with rfl | hrest
        · exact .inl (List.mem_append_right _ (List.mem_singleton_self _))
        · exact .inr hrest

/-- A change lets nodes wait to which there is an edge from its node, behind those that waited, and no
others. -/
private theorem History.outChanged (h : History g order events waiting) {source : NodeId}
    {waiting' : List NodeId} (behind : waiting <+: waiting')
    (mem : ∀ node, node ∈ waiting' ↔
      node ∈ waiting ∨ (node ∈ g.successors source ∧ node < g.nodeCount)) (old new : α) :
    History g order (events ++ [.outChanged source old new]) waiting' where
  seeded := by
    obtain ⟨more, rfl⟩ := behind
    rw [List.filterMap_append, ← List.append_assoc]
    exact h.seeded.trans (by simp [List.filterMap_cons])
  inGraph := by
    rw [List.filterMap_append, List.forall_mem_append]
    exact ⟨h.inGraph, fun _ hmem => by cases hmem⟩
  due node hmem := by
    rcases (mem node).mp hmem with hwaited | ⟨hsucc, -⟩
    · exact (h.due node hwaited).concat (by simp)
    · exact due_outChanged hsucc old new
  wasDue before node after hsplit := by
    rcases concat_eq_append_cons hsplit with ⟨-, -, hsame⟩ | ⟨more, -, hmore⟩
    · cases hsame
    · exact h.wasDue hmore
  followed before other old' new' after hsplit node hsucc hlt := by
    rcases concat_eq_append_cons hsplit with ⟨-, -, hsame⟩ | ⟨more, rfl, hmore⟩
    · cases hsame
      exact .inr ((mem node).mpr (.inr ⟨hsucc, hlt⟩))
    · rcases h.followed hmore node hsucc hlt with hseen | hwaits
      · exact .inl (List.mem_append_left _ hseen)
      · exact .inr ((mem node).mpr (.inl hwaits))

/-! ## What a history says of the visits -/

/-- The visits begin with all nodes in order, as far as they go. -/
private theorem History.take_visited (h : History g order events waiting) :
    (events.filterMap visited?).take g.nodeCount <+: order.arrange g.nodeCount := by
  have hseeded := List.prefix_iff_eq_take.mp h.seeded
  rw [Worklist.length_arrange] at hseeded
  rw [hseeded]
  exact (List.prefix_append _ _).take _

/-- A visit after as many as there are nodes is not the first one of its node. -/
theorem History.visit_mem (h : History g order events waiting) {before after : List (Event α)}
    {node : NodeId} (hsplit : events = before ++ .visit node :: after)
    (late : g.nodeCount ≤ before.countP isVisit) : .visit node ∈ before := by
  have hseeded := h.seeded
  rw [hsplit, List.filterMap_append, List.append_assoc] at hseeded
  -- the visits before are at least as many as the nodes, so all nodes are among them
  have hbefore : order.arrange g.nodeCount <+: before.filterMap visited? := by
    refine List.prefix_of_prefix_length_le hseeded (List.prefix_append _ _) ?_
    rwa [Worklist.length_arrange, length_filterMap_visited?]
  have hlt : node < g.nodeCount := h.inGraph node <| by
    rw [mem_filterMap_visited?, hsplit]
    exact List.mem_append_right _ List.mem_cons_self
  exact mem_filterMap_visited?.mp (hbefore.subset (Worklist.mem_arrange.mpr hlt))

/-- A node of the graph waits exactly when it is due. -/
theorem History.mem_waiting_iff (h : History g order events waiting) {node : NodeId}
    (hlt : node < g.nodeCount) : node ∈ waiting ↔ Due g events node := by
  refine ⟨h.due node, fun hdue => ?_⟩
  by_cases hvisited : .visit node ∈ events
  · obtain ⟨earlier, since, hsplit, hnot⟩ := exists_last_of_mem hvisited
    obtain ⟨source, old, new, hmem, hsucc⟩ := hdue hsplit
    obtain ⟨before, after, hsince⟩ := List.append_of_mem hmem
    have hchange : events =
        (earlier ++ .visit node :: before) ++ .outChanged source old new :: after := by
      rw [hsplit, hsince, List.append_assoc, List.cons_append]
    refine (h.followed hchange node hsucc hlt).resolve_left fun hafter => hnot ?_
    rw [hsince]
    exact List.mem_append_right _ (List.mem_cons_of_mem _ hafter)
  · -- a node that has not been visited still waits from the start
    have hseeded := h.seeded.subset (Worklist.mem_arrange.mpr hlt)
    refine (List.mem_append.mp hseeded).resolve_left fun hmem => hvisited ?_
    exact mem_filterMap_visited?.mp hmem

/-- With no node that waits, all have been visited. -/
theorem History.le_visits (h : History g order events []) :
    g.nodeCount ≤ events.countP isVisit := by
  have hlength := h.seeded.length_le
  rwa [Worklist.length_arrange, List.append_nil, length_filterMap_visited?] at hlength

end Event

variable [FlowLattice α]
variable {p : Problem ι α τ} {options : SolveOptions} {signal : Option (Signal α)} {memory : τ}

/-! ## Every solve has a history -/

namespace State

/-- The history of a solve between two turns. -/
abbrev History (p : Problem ι α τ) (order : VisitOrder) (s : State α τ) : Prop :=
  Event.History p.graph order s.journal.events.toList s.worklist.pending

private theorem History.arrived {s : State α τ} (h : s.History p options.order) (hs : s.Sized p)
    {node : NodeId} {rest : List NodeId} (next : s.worklist.pending = node :: rest) :
    (s.arrived p signal node rest).History p options.order := by
  have hnodup := hs.marked.nodup
  rw [next, List.nodup_cons] at hnodup
  unfold History at h ⊢
  rw [next] at h
  rw [arrived_journal, Journal.toList_events_visit, asked_events]
  exact h.visit (hs.lt next) hnodup.1

private theorem History.grown {s : State α τ} (h : s.History p options.order) (hs : s.Sized p)
    {node : NodeId} {rest : List NodeId} (next : s.worklist.pending = node :: rest) :
    (s.grown p signal node rest).History p options.order := by
  have harrived : (s.arrived p signal node rest).History p options.order := h.arrived hs next
  have hsized : (s.arrived p signal node rest).Sized p := hs.arrived next
  unfold History at harrived ⊢
  rw [grown_journal, Journal.toList_events_outChanged]
  refine harrived.outChanged (Worklist.prefix_pushAll _ _) (fun other => ?_) _ _
  rw [hsized.marked.mem_pushAll, hsized.queued]

/-- In every state that is reached the events and the waiting nodes are a history. -/
theorem Reached.history {s : State α τ} (h : Reached p options signal memory s) :
    s.History p options.order := by
  induction h with
  | start => exact Event.history_nil p.graph options.order
  | next before turn ih =>
    cases turn with
    | kept next => exact ih.arrived before.sized next
    | grown next => exact ih.grown before.sized next

end State

namespace Problem

/-- The events of a journal that a solve keeps are a history with some waiting nodes. -/
theorem Keeps.history {journal : Journal α} (h : p.Keeps options signal memory journal) :
    ∃ waiting, Event.History p.graph options.order journal.events.toList waiting := by
  obtain ⟨s, reached, hevents⟩ := h.events
  rcases hevents with hsame | ⟨node, rest, next, hmore⟩
  · rw [hsame]
    exact ⟨_, reached.history⟩
  · -- the visit that ends the solve is the one that `arrived` tells of
    have harrived : (s.arrived p signal node rest).History p options.order :=
      reached.history.arrived reached.sized next
    refine ⟨rest, ?_⟩
    rw [hmore]
    unfold State.History at harrived
    rwa [State.arrived_journal, Journal.toList_events_visit, State.asked_events] at harrived

/-- When a solve ends with a solution, no node waits. -/
theorem Ends.history {run : Run α τ} (h : p.Ends options signal memory run)
    {solution : Solution α} (hok : run.outcome = .ok solution) :
    Event.History p.graph options.order run.journal.events.toList [] := by
  cases h with
  | mismatch => cases hok
  | empty _ none =>
    have hnone : options.order.arrange p.graph.nodeCount = [] := by
      rw [none]
      cases options.order <;> rfl
    have hstart : Event.History p.graph options.order ([] : List (Event α)) _ :=
      Event.history_nil _ _
    rwa [hnone] at hstart
  | last _ _ reached turn =>
    cases turn with
    | settled empty =>
      have hlast := reached.history
      unfold State.History at hlast
      rwa [empty] at hlast
    | cancelled | refused => cases hok

/-- The visits of a solve begin with all nodes, each once, ascending or descending. Before any later
visit of a node, and at its last visit or after it, what leaves a node with an edge to it has changed.
This holds of all that is told before the solve ends, if it ends at all. If it ends with a solution,
all nodes have been visited, and after each change all nodes to which there is an edge. -/
theorem solve?_visits [DecidableEq α] (p : Problem ι α τ) (options : SolveOptions)
    (signal : Option (Signal α)) (memory : τ) :
    (∀ journal, p.Keeps options signal memory journal →
      (journal.visited.take p.graph.nodeCount).Nodup ∧
      (∀ place, place < p.graph.nodeCount → place < journal.visits →
        journal.visited[place]? = some (options.order.nodeAt p.graph.nodeCount place)) ∧
      ∀ before node after, journal.events.toList = before ++ .visit node :: after →
        p.graph.nodeCount ≤ before.countP Event.isVisit →
          ∃ earlier since, before = earlier ++ .visit node :: since ∧ .visit node ∉ since ∧
            ∃ source old new, .outChanged source old new ∈ since ∧
              node ∈ p.graph.successors source) ∧
    ∀ turns run solution, p.solve? options signal memory turns = some run →
      run.outcome = .ok solution →
      p.graph.nodeCount ≤ run.journal.visits ∧
      ∀ before source old new after,
        run.journal.events.toList = before ++ .outChanged source old new :: after →
          ∀ node ∈ p.graph.successors source, node < p.graph.nodeCount → .visit node ∈ after := by
  constructor
  · intro journal hkeeps
    obtain ⟨waiting, h⟩ := hkeeps.history
    have htake : journal.visited.take p.graph.nodeCount <+:
        options.order.arrange p.graph.nodeCount := h.take_visited
    refine ⟨htake.sublist.nodup (Worklist.nodup_arrange _ _), fun place hlt hvisits => ?_, ?_⟩
    · have hlength : place < (journal.visited.take p.graph.nodeCount).length := by
        rw [List.length_take, journal.length_visited]
        exact lt_min hlt hvisits
      calc journal.visited[place]?
          = (journal.visited.take p.graph.nodeCount)[place]? := (List.getElem?_take_of_lt hlt).symm
        _ = (options.order.arrange p.graph.nodeCount)[place]? := by
          obtain ⟨more, hmore⟩ := htake
          rw [← hmore, List.getElem?_append_left hlength]
        _ = some (options.order.nodeAt p.graph.nodeCount place) :=
          options.order.getElem?_arrange hlt
    · intro before node after hsplit late
      obtain ⟨earlier, since, hlast, hnot⟩ := exists_last_of_mem (h.visit_mem hsplit late)
      exact ⟨earlier, since, hlast, hnot, h.wasDue hsplit hlast⟩
  · intro turns run solution hr hok
    have h := (solve?_ends hr).history hok
    refine ⟨h.le_visits, fun before source old new after hsplit node hsucc hlt => ?_⟩
    exact (h.followed hsplit node hsucc hlt).resolve_right List.not_mem_nil

/-- Backwards, this loop visits the second node and then the first. It comes back to the second one
because both have changed since, and to the first one because the second has changed once more. -/
theorem shrinkingLoop_visits : ∃ run solution,
    shrinkingLoop.solve? ⟨.reverse, false⟩ none () 9 = some run ∧ run.outcome = .ok solution ∧
      run.journal.events.toList =
        [.visit 1, .outChanged 1 0 9, .visit 0, .outChanged 0 0 3, .visit 1, .outChanged 1 9 2,
          .visit 1, .visit 0] ∧
      run.journal.visited[0]? = some 1 ∧ run.journal.visited[1]? = some 0 ∧
      (∃ earlier since,
        [.visit 1, .outChanged 1 0 9, .visit 0, .outChanged 0 0 3] = earlier ++ .visit 1 :: since ∧
          .visit 1 ∉ since ∧ ∃ source old new, Event.outChanged source old new ∈ since ∧
            1 ∈ shrinkingLoop.graph.successors source) ∧
      Event.visit 0 ∈ [(.visit 1 : Event Nat), .visit 0] := by
  have hmap : (shrinkingLoop.solve? ⟨.reverse, false⟩ none () 9).map
      (fun run => (run.outcome, run.journal.events.toList)) =
      some (.ok ⟨#[2, 3], #[3, 2], ⟨5, 3⟩⟩,
        [.visit 1, .outChanged 1 0 9, .visit 0, .outChanged 0 0 3, .visit 1, .outChanged 1 9 2,
          .visit 1, .visit 0]) := rfl
  obtain ⟨run, hr, hrun⟩ := Option.map_eq_some_iff.mp hmap
  obtain ⟨hok, hevents⟩ := Prod.mk.inj hrun
  obtain ⟨hkept, hsolved⟩ := solve?_visits shrinkingLoop ⟨.reverse, false⟩ none ()
  obtain ⟨hle, hfollowed⟩ := hsolved 9 run _ hr hok
  obtain ⟨-, hplaces, hreasons⟩ := hkept run.journal (solve?_keeps hr)
  refine ⟨run, _, hr, hok, hevents, hplaces 0 (by decide) (lt_of_lt_of_le (by decide) hle),
    hplaces 1 (by decide) (lt_of_lt_of_le (by decide) hle), ?_, ?_⟩
  · exact hreasons _ 1 _ hevents (by decide)
  · exact hfollowed [.visit 1, .outChanged 1 0 9, .visit 0, .outChanged 0 0 3, .visit 1] 1 9 2 _
      hevents 0 (by decide) (by decide)

end Problem

end ReachingWrites
