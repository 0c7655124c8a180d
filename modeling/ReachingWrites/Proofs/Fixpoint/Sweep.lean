import ReachingWrites.Proofs.Fixpoint.Cancellation

/-!
# One pass over an ordered graph

Where all edges of a graph go on in the order in which the nodes are put on the worklist, a solve is a
single pass. It visits each node once, in that order, and asks the transfer of each once. So it ends
whatever the transfers answer: no height of the values and no growth is asked for.

The reason is that nothing is ever put in again. When a node is visited, the nodes that it has edges
to stand behind it in the order, so they still wait; to put them in changes nothing. It also means
that what enters a node is never out of date: all that leaves its predecessors has been settled when
the node is visited.

The check of growth then compares with `bottom` only, for nothing else leaves a node before its one
visit. It either passes everywhere, or ends the pass at the first node that does not stay above
`bottom`.
-/

set_option autoImplicit false

namespace ReachingWrites

variable {ι α τ : Type}

/-! ## Graphs whose edges go on in an order -/

/-- The order puts one node in before another. -/
def VisitOrder.Before (order : VisitOrder) (m n : NodeId) : Prop :=
  match order with
  | .forward => m < n
  | .reverse => n < m

instance VisitOrder.decidableBefore (order : VisitOrder) (m n : NodeId) :
    Decidable (order.Before m n) :=
  match order with
  | .forward => inferInstanceAs (Decidable (m < n))
  | .reverse => inferInstanceAs (Decidable (n < m))

private theorem VisitOrder.Before.asymm {order : VisitOrder} {m n : NodeId} (h : order.Before m n) :
    ¬order.Before n m := by
  cases order with
  | forward => exact Nat.lt_asymm h
  | reverse => exact Nat.lt_asymm h

private theorem VisitOrder.pairwise_arrange (order : VisitOrder) (count : Nat) :
    (order.arrange count).Pairwise order.Before := by
  cases order with
  | forward => exact List.pairwise_lt_range
  | reverse => exact List.pairwise_reverse.mpr List.pairwise_lt_range

/-- An order of visits goes through all nodes. -/
theorem VisitOrder.arrange_perm (order : VisitOrder) (count : Nat) :
    (order.arrange count).Perm (List.range count) := by
  cases order with
  | forward => exact .refl _
  | reverse => exact List.reverse_perm _

/-- All edges go from a node to one that the order puts in after it. -/
def FlowGraph.RunsAlong (g : FlowGraph ι) (order : VisitOrder) : Prop :=
  ∀ e ∈ g.edges, order.Before e.1 e.2

/-- When all nodes before some node have been passed, those that the node has edges to come after
it. -/
private theorem FlowGraph.RunsAlong.mem_after {g : FlowGraph ι} {order : VisitOrder}
    (h : g.RunsAlong order) {count : Nat} {before after : List NodeId} {node target : NodeId}
    (split : order.arrange count = before ++ node :: after)
    (edge : target ∈ g.successors node) (hlt : target < count) : target ∈ after := by
  have hgoes : order.Before node target := h (node, target) (FlowGraph.mem_edges.mpr edge)
  have hmem : target ∈ before ++ node :: after := split ▸ Worklist.mem_arrange.mpr hlt
  have hpairwise := order.pairwise_arrange count
  rw [split] at hpairwise
  rcases List.mem_append.mp hmem with hbefore | hrest
  · -- it would stand before the node
    have hback := (List.pairwise_append.mp hpairwise).2.2 target hbefore node List.mem_cons_self
    exact absurd hback hgoes.asymm
  · rcases List.mem_cons.mp hrest with rfl | hafter
    · exact absurd hgoes hgoes.asymm
    · exact hafter

/-! ## Asking each transfer once -/

namespace Problem

/-- What the transfers answer if they are asked once for each of the nodes in turn, with the values
`ins`, and their memory in the end. -/
def sweep (p : Problem ι α τ) (ins : NodeId → α) : List NodeId → τ → List α × τ
  | [], memory => ([], memory)
  | node :: nodes, memory =>
    let answer := p.transfer memory node (ins node)
    let others := p.sweep ins nodes answer.2
    (answer.1 :: others.1, others.2)

private theorem sweep_congr (p : Problem ι α τ) {ins ins' : NodeId → α} {nodes : List NodeId}
    (h : ∀ node ∈ nodes, ins node = ins' node) (memory : τ) :
    p.sweep ins nodes memory = p.sweep ins' nodes memory := by
  induction nodes generalizing memory with
  | nil => rfl
  | cons node nodes ih =>
    have hnode := h node List.mem_cons_self
    have hnodes := ih fun other hmem => h other (List.mem_cons_of_mem node hmem)
    simp only [sweep, hnode, hnodes]

/-- One more node is asked for with the memory that the others leave. -/
theorem sweep_concat (p : Problem ι α τ) {ins : NodeId → α} {nodes : List NodeId}
    {memory memory' : τ} {answers : List α} (h : p.sweep ins nodes memory = (answers, memory'))
    (node : NodeId) : p.sweep ins (nodes ++ [node]) memory =
      (answers ++ [(p.transfer memory' node (ins node)).1],
        (p.transfer memory' node (ins node)).2) := by
  induction nodes generalizing memory answers with
  | nil =>
    cases h
    rfl
  | cons first nodes ih =>
    simp only [sweep, Prod.mk.injEq] at h
    obtain ⟨rfl, hmemory⟩ := h
    simp only [List.cons_append, sweep, ih (Prod.ext rfl hmemory)]

variable [FlowLattice α]

/-- A value that the check of growth lets leave a node from which nothing but `bottom` has left. Where
the order is reflexive, it is a value above `bottom`. -/
def Above (p : Problem ι α τ) (value : α) : Prop :=
  value = p.bottom ∨ FlowLattice.leq p.bottom value = true

end Problem

/-! ## The pass -/

variable [FlowLattice α] [DecidableEq α]
variable {p : Problem ι α τ} {options : SolveOptions} {order : VisitOrder}
  {signal : Option (Signal α)} {memory : τ}

namespace State

/-- What a visit of a pass does: the next node is visited and nothing is put in. -/
structure Advances (p : Problem ι α τ) (options : SolveOptions) (s : State α τ) (node : NodeId)
    (rest : List NodeId) (s' : State α τ) : Prop where
  /-- The node was the next one. -/
  next : s.worklist.pending = node :: rest
  /-- The others wait as they did. -/
  pending : s'.worklist.pending = rest
  /-- The node is visited. -/
  visited : s'.journal.visited = s.journal.visited ++ [node]
  /-- What enters the node joins what leaves its predecessors. -/
  entered : s'.entered p = Function.update (s.entered p) node (p.entering (s.leaving p) node)
  /-- The transfer of the node has been asked for that. -/
  answer : p.transfer s.memory node (p.entering (s.leaving p) node) = (s'.leaving p node, s'.memory)
  /-- Nothing else changes. -/
  leaving : s'.leaving p = Function.update (s.leaving p) node (s'.leaving p node)
  /-- A change is counted. -/
  updates : s'.summary.updates =
    s.summary.updates + if s'.leaving p node = s.leaving p node then 0 else 1
  /-- The check has let the change pass. -/
  above : options.checkMonotone = true → s'.leaving p node = s.leaving p node ∨
    FlowLattice.leq (s.leaving p node) (s'.leaving p node) = true

section Advances

variable {s s' : State α τ} {node other : NodeId} {rest : List NodeId}
  (visit : s.Advances p options node rest s') (hne : other ≠ node)
include visit hne

private theorem Advances.leaving_of_ne : s'.leaving p other = s.leaving p other := by
  rw [visit.leaving, Function.update_of_ne hne]

private theorem Advances.entered_of_ne : s'.entered p other = s.entered p other := by
  rw [visit.entered, Function.update_of_ne hne]

end Advances

/-- A solve in the course of a pass. -/
structure Swept (p : Problem ι α τ) (options : SolveOptions) (memory : τ) (s : State α τ) : Prop where
  /-- The nodes that have been visited and those that wait are all nodes, in order. -/
  seeded : options.order.arrange p.graph.nodeCount = s.journal.visited ++ s.worklist.pending
  /-- The transfers have been asked once for each node that has been visited. -/
  asked : p.sweep (s.entered p) s.journal.visited memory =
    (s.journal.visited.map (s.leaving p), s.memory)
  /-- What entered the visited nodes joins what leaves their predecessors now. -/
  enters : ∀ node ∈ s.journal.visited, s.entered p node = p.entering (s.leaving p) node
  /-- Only `bottom` leaves the nodes that wait. -/
  untouched : ∀ node ∈ s.worklist.pending, s.leaving p node = p.bottom
  /-- The changes are those from `bottom` to something else. -/
  updates : s.summary.updates = s.journal.visited.countP fun node => s.leaving p node ≠ p.bottom
  /-- The check has let all changes pass. -/
  above : options.checkMonotone = true → ∀ node ∈ s.journal.visited, p.Above (s.leaving p node)

private theorem swept_start (p : Problem ι α τ) (options : SolveOptions) (memory : τ) :
    (start p options.order memory).Swept p options memory where
  seeded := rfl
  asked := rfl
  enters _ hmem := by cases hmem
  untouched _ _ := leaving_start p options.order memory
  updates := rfl
  above _ _ hmem := by cases hmem

/-- The node that is visited next has not been visited, it waits once, and what has been visited does
not wait. -/
private theorem Swept.nodup_next {s : State α τ} (h : s.Swept p options memory) {node : NodeId}
    {rest : List NodeId} (next : s.worklist.pending = node :: rest) :
    node ∉ s.journal.visited ∧ node ∉ rest ∧ ∀ other ∈ s.journal.visited, other ∉ rest := by
  have hnodup := Worklist.nodup_arrange options.order p.graph.nodeCount
  rw [h.seeded, next, List.nodup_middle, List.nodup_cons, List.mem_append, not_or] at hnodup
  obtain ⟨⟨hvisited, hrest⟩, hothers⟩ := hnodup
  exact ⟨hvisited, hrest, fun other hmem hafter =>
    (List.nodup_append.mp hothers).2.2 other hmem other hafter rfl⟩

section Ordered

variable (hp : Predecessors.ofGraph p.graph = .ok p.predecessors)
  (along : p.graph.RunsAlong options.order)
include hp along

omit [FlowLattice α] [DecidableEq α] in
/-- The nodes to which the next node has edges wait behind it. -/
private theorem mem_rest_of_edge {s : State α τ}
    (seeded : options.order.arrange p.graph.nodeCount = s.journal.visited ++ s.worklist.pending)
    {node : NodeId} {rest : List NodeId} (next : s.worklist.pending = node :: rest)
    {target : NodeId} (edge : target ∈ p.graph.successors node) : target ∈ rest := by
  rw [next] at seeded
  exact along.mem_after seeded edge (Predecessors.lt_of_mem_successors hp edge)

/-- In an ordered graph, a visit puts nothing in. -/
private theorem Takes.advances {s s' : State α τ} (turn : s.Takes p options signal (.next s'))
    (hs : s.Sized p)
    (seeded : options.order.arrange p.graph.nodeCount = s.journal.visited ++ s.worklist.pending) :
    ∃ node rest, s.Advances p options node rest s' := by
  cases turn with
  | @kept node rest next _ same =>
    refine ⟨node, rest, ?_⟩
    exact {
      next
      pending := rfl
      visited := by simp
      entered := by rw [entered_arrived hs next, inValue_eq_entering hp hs]
      answer := by
        rw [leaving_arrived, ← same, ← inValue_eq_entering hp hs]
        rfl
      leaving := by simp
      updates := by simp
      above := fun _ => .inl (by rw [leaving_arrived]) }
  | @grown node rest next _ changed above =>
    have hleaving : (s.grown p signal node rest).leaving p node = (s.answer p node).1 := by
      rw [leaving_grown hs next, Function.update_self]
    refine ⟨node, rest, ?_⟩
    exact {
      next
      pending := by
        -- all that the change would put in waits already
        rw [grown_worklist, (hs.marked.tail next).pushAll_of_forall_mem]
        exact fun target edge => mem_rest_of_edge hp along seeded next edge
      visited := by simp
      entered := by rw [entered_grown hs next, inValue_eq_entering hp hs]
      answer := by
        rw [hleaving, ← inValue_eq_entering hp hs]
        rfl
      leaving := by rw [hleaving, leaving_grown hs next]
      updates := by rw [hleaving, if_neg changed, grown_updates]
      above := fun checked => .inr (hleaving ▸ above checked) }

/-- A visit changes nothing that enters its node or one that has been visited, for neither has the
visited node as its predecessor. -/
private theorem Swept.entering_eq {s s' : State α τ} (h : s.Swept p options memory) {node : NodeId}
    {rest : List NodeId} (visit : s.Advances p options node rest s') {other : NodeId}
    (hmem : other ∈ s.journal.visited ++ [node]) :
    p.entering (s'.leaving p) other = p.entering (s.leaving p) other := by
  obtain ⟨-, hrest, hvisited⟩ := h.nodup_next visit.next
  refine p.entering_congr fun q hq => visit.leaving_of_ne ?_
  rintro rfl
  have hafter : other ∈ rest := mem_rest_of_edge hp along h.seeded visit.next
    ((Predecessors.mem_of_ofGraph hp).mp hq)
  rcases List.mem_append.mp hmem with hmem | hmem
  · exact hvisited other hmem hafter
  · rw [List.mem_singleton] at hmem
    exact hrest (hmem ▸ hafter)

/-- A visit keeps what is known of a pass. -/
private theorem Swept.advances {s s' : State α τ} (h : s.Swept p options memory) {node : NodeId}
    {rest : List NodeId} (visit : s.Advances p options node rest s') : s'.Swept p options memory := by
  obtain ⟨hnew, hrest, -⟩ := h.nodup_next visit.next
  have hbottom : s.leaving p node = p.bottom := h.untouched node (visit.next ▸ List.mem_cons_self)
  have hnode : s'.entered p node = p.entering (s.leaving p) node := by
    rw [visit.entered, Function.update_self]
  have hne : ∀ other ∈ s.journal.visited, other ≠ node := fun other hmem he => hnew (he ▸ hmem)
  have hentered : ∀ other ∈ s.journal.visited, s.entered p other = s'.entered p other :=
    fun other hmem => (visit.entered_of_ne (hne other hmem)).symm
  have hleaving : ∀ other ∈ s.journal.visited, s.leaving p other = s'.leaving p other :=
    fun other hmem => (visit.leaving_of_ne (hne other hmem)).symm
  exact {
    seeded := by
      rw [h.seeded, visit.next, visit.visited, visit.pending, List.append_assoc,
        List.singleton_append]
    asked := by
      have hsweep := h.asked
      rw [p.sweep_congr hentered, List.map_congr_left hleaving] at hsweep
      rw [visit.visited, p.sweep_concat hsweep, hnode, visit.answer, List.map_append]
      rfl
    enters := by
      rw [visit.visited]
      intro other hmem
      rw [h.entering_eq hp along visit hmem]
      rcases List.mem_append.mp hmem with hmem | hmem
      · rw [← hentered other hmem]
        exact h.enters other hmem
      · rw [List.mem_singleton.mp hmem]
        exact hnode
    untouched := by
      rw [visit.pending]
      intro other hmem
      rw [visit.leaving_of_ne fun he => hrest (he ▸ hmem)]
      exact h.untouched other (visit.next ▸ List.mem_cons_of_mem node hmem)
    updates := by
      have hcount : (s.journal.visited.countP fun other => s.leaving p other ≠ p.bottom) =
          s.journal.visited.countP fun other => s'.leaving p other ≠ p.bottom :=
        List.countP_congr fun other hmem => by rw [hleaving other hmem]
      rw [visit.updates, visit.visited, h.updates, hcount, hbottom, List.countP_append,
        List.countP_singleton]
      by_cases hsame : s'.leaving p node = p.bottom
      · simp [hsame]
      · simp [hsame]
    above := by
      rw [visit.visited]
      intro checked other hmem
      rcases List.mem_append.mp hmem with hmem | hmem
      · rw [← hleaving other hmem]
        exact h.above checked other hmem
      · rw [List.mem_singleton.mp hmem]
        have habove := visit.above checked
        rwa [hbottom] at habove }

/-- Every solve that the start leads to is in the course of a pass. -/
theorem Reached.swept {s : State α τ} (h : Reached p options signal memory s) :
    s.Swept p options memory := by
  induction h with
  | start => exact swept_start p options memory
  | next before turn ih =>
    obtain ⟨node, rest, visit⟩ := turn.advances hp along before.sized ih.seeded
    exact ih.advances hp along visit

/-- The nodes that have been visited and those that wait are as many as all nodes. -/
theorem Reached.visits_add_pending {s : State α τ} (h : Reached p options signal memory s) :
    s.summary.visits + s.worklist.pending.length = p.graph.nodeCount := by
  have hlength := congrArg List.length (h.swept hp along).seeded
  rw [Worklist.length_arrange, List.length_append, Journal.length_visited, h.visits_eq] at hlength
  exact hlength.symm

/-- What leaves a node that has been visited is settled. -/
theorem Reached.leaving_settled {s last : State α τ} (h : Reached p options signal memory s)
    (hlast : Reached p options signal memory last)
    (hle : s.summary.visits ≤ last.summary.visits) :
    ∀ node ∈ s.journal.visited, last.leaving p node = s.leaving p node := by
  refine And.right (h.of_visits_le (motive := fun t => s.journal.visited ⊆ t.journal.visited ∧
    ∀ node ∈ s.journal.visited, t.leaving p node = s.leaving p node)
    ⟨List.Subset.refl _, fun _ _ => rfl⟩ ?_ hlast hle)
  intro t t' reached turn ih
  have hswept := reached.swept hp along
  obtain ⟨node, rest, visit⟩ := turn.advances hp along reached.sized hswept.seeded
  refine ⟨?_, fun other hmem => ?_⟩
  · rw [visit.visited]
    exact List.subset_append_of_subset_left _ ih.1
  · have hne : other ≠ node := fun he => (hswept.nodup_next visit.next).1 (he ▸ ih.1 hmem)
    rw [visit.leaving_of_ne hne]
    exact ih.2 other hmem

/-- A signal that lets a question pass for each node lets all questions of a pass pass. -/
theorem Reached.not_stops
    (passes : ∀ stop ∈ signal, ∀ journal, journal.polls < p.graph.nodeCount → stop journal = false)
    {s : State α τ} (h : Reached p options signal memory s) {node : NodeId} {rest : List NodeId}
    (next : s.worklist.pending = node :: rest) {stop : Signal α} (watched : signal = some stop) :
    stop s.journal ≠ true := by
  subst watched
  have hvisits := h.visits_add_pending hp along
  have hlt : s.journal.polls < p.graph.nodeCount := by
    rw [h.polls_eq, h.visits_eq, ← hvisits, next]
    exact Nat.lt_add_of_pos_right (Nat.succ_pos _)
  rw [passes stop rfl s.journal hlt]
  exact Bool.false_ne_true

end Ordered

end State

/-! ## With the check and without it -/

namespace State

omit [DecidableEq α] in
/-- Where a checked solve comes, one without the check comes too. -/
theorem Reached.uncheck {s : State α τ} (h : Reached p ⟨order, true⟩ signal memory s) :
    Reached p ⟨order, false⟩ signal memory s := by
  induction h with
  | start => exact .start
  | next _ turn ih =>
    cases turn with
    | kept next goesOn same => exact ih.next (.kept next goesOn same)
    | grown next goesOn changed =>
      exact ih.next (.grown next goesOn changed fun checked => absurd checked Bool.false_ne_true)

end State

namespace Problem

/-- The run makes one pass over the nodes in order and ends with the solution. -/
structure OnePass (p : Problem ι α τ) (order : VisitOrder) (memory : τ) (run : Run α τ)
    (solution : Solution α) : Prop where
  /-- The solve succeeds. -/
  outcome : run.outcome = .ok solution
  /-- A value enters each node. -/
  size_ins : solution.ins.size = p.graph.nodeCount
  /-- A value leaves each node. -/
  size_outs : solution.outs.size = p.graph.nodeCount
  /-- The nodes are visited in order, each once. -/
  visited : run.journal.visited = order.arrange p.graph.nodeCount
  /-- The visits are counted. -/
  visits : solution.summary.visits = p.graph.nodeCount
  /-- The transfers are asked in order, each once, for what enters their nodes in the end. They
  answer what leaves the nodes in the end, and their last memory is the one that is left. -/
  asked : p.sweep (solution.ins.getD · p.bottom) (order.arrange p.graph.nodeCount) memory =
    ((order.arrange p.graph.nodeCount).map (solution.outs.getD · p.bottom), run.memory)
  /-- A change is counted for each node that something else than `bottom` leaves. -/
  updates : solution.summary.updates =
    p.graph.nodes.countP fun node => solution.outs.getD node p.bottom ≠ p.bottom
  /-- What enters a node is `bottom` joined with what leaves its predecessors in the end. -/
  enters : ∀ node < p.graph.nodeCount, solution.ins.getD node p.bottom =
    p.entering (solution.outs.getD · p.bottom) node

variable (hp : Predecessors.ofGraph p.graph = .ok p.predecessors)

section Ordered

variable (along : p.graph.RunsAlong options.order)
include hp along

/-- With no node left to visit, the pass has been made. -/
private theorem onePass_settle {s : State α τ} (h : State.Reached p options signal memory s)
    (empty : s.worklist.pending = []) :
    p.OnePass options.order memory (s.settle p.graph.nodeCount) ⟨s.ins, s.outs, s.summary⟩ := by
  have hswept := h.swept hp along
  have hvisits := h.visits_add_pending hp along
  have hvisited := hswept.seeded
  rw [empty, List.append_nil] at hvisited
  rw [empty] at hvisits
  exact {
    outcome := rfl
    size_ins := h.sized.ins
    size_outs := h.sized.outs
    visited := hvisited.symm
    visits := hvisits
    asked := by
      rw [hvisited]
      exact hswept.asked
    updates := by
      rw [FlowGraph.nodes, ← (options.order.arrange_perm p.graph.nodeCount).countP_eq, hvisited]
      exact hswept.updates
    enters := fun node hlt => hswept.enters node (hvisited ▸ Worklist.mem_arrange.mpr hlt) }

end Ordered

/-- Where there are no nodes, the pass over them is made at once. -/
private theorem onePass_of_none (p : Problem ι α τ) (order : VisitOrder) (memory : τ)
    (none : p.graph.nodeCount = 0) :
    p.OnePass order memory ⟨.ok ⟨#[], #[], {}⟩, {}, memory⟩ ⟨#[], #[], {}⟩ := by
  have harrange : order.arrange p.graph.nodeCount = [] := by
    rw [none]
    cases order <;> rfl
  have hnodes : p.graph.nodes = [] := by
    rw [FlowGraph.nodes, none]
    rfl
  exact {
    outcome := rfl
    size_ins := none.symm
    size_outs := none.symm
    visited := harrange.symm
    visits := none.symm
    asked := by
      rw [harrange]
      rfl
    updates := by
      rw [hnodes]
      rfl
    enters := fun node hlt => by
      rw [none] at hlt
      cases hlt }

section Along

variable (along : p.graph.RunsAlong order)
include hp along

/-- A pass ends within a turn more than there are nodes. -/
private theorem Posed.exists_last (posed : p.Posed) (checked : Bool) (signal : Option (Signal α))
    (memory : τ) :
    ∃ s run, State.Reached p ⟨order, checked⟩ signal memory s ∧
      s.Takes p ⟨order, checked⟩ signal (.done run) ∧
      ∀ turns, p.graph.nodeCount < turns →
        p.solve? ⟨order, checked⟩ signal memory turns = some run := by
  have hbound : ∀ s, State.Reached p ⟨order, checked⟩ signal memory s →
      s.summary.visits ≤ p.graph.nodeCount := fun s reached =>
    (Nat.le_add_right _ _).trans (reached.visits_add_pending hp along).le
  obtain ⟨run, hr⟩ := exists_solve? hbound (Nat.lt_succ_self _)
  obtain ⟨s, reached, turn, -⟩ := posed.solve?_eq_some_iff.mp hr
  exact ⟨s, run, reached, turn, fun turns hlt => solve?_mono hr hlt⟩

/-- Where the check refuses a visit, it is the first one in order that does not stay above `bottom`
in the solution without the check. -/
private theorem refused_first {s last : State α τ} (h : State.Reached p ⟨order, true⟩ signal memory s)
    {node : NodeId} {rest : List NodeId} (next : s.worklist.pending = node :: rest)
    (goesOn : s.stops signal = false) (changed : (s.answer p node).1 ≠ s.leaving p node)
    (notAbove : FlowLattice.leq (s.leaving p node) (s.answer p node).1 = false)
    (hlast : State.Reached p ⟨order, false⟩ signal memory last)
    (empty : last.worklist.pending = []) :
    (∀ earlier ∈ s.journal.visited, p.Above (last.leaving p earlier)) ∧
      ¬p.Above (last.leaving p node) := by
  have hgrown : State.Reached p ⟨order, false⟩ signal memory (s.grown p signal node rest) :=
    h.uncheck.next (.grown next goesOn changed fun checked => absurd checked Bool.false_ne_true)
  have hswept := h.swept hp along
  have hbottom : s.leaving p node = p.bottom := hswept.untouched node (next ▸ List.mem_cons_self)
  have hsettled := h.uncheck.leaving_settled hp along hlast
    (h.uncheck.visits_le_last hlast (.settled empty))
  have hafter := hgrown.leaving_settled hp along hlast
    (hgrown.visits_le_last hlast (.settled empty)) node (by simp)
  rw [State.leaving_grown h.sized next, Function.update_self] at hafter
  rw [hbottom] at changed notAbove
  refine ⟨fun earlier hmem => ?_, ?_⟩
  · rw [hsettled earlier hmem]
    exact hswept.above rfl earlier hmem
  · rw [hafter]
    rintro (hsame | habove)
    · exact changed hsame
    · rw [notAbove] at habove
      cases habove

/-- Where all edges of a graph go on in the order of the visits, a solve is one pass, whatever the
transfers answer and remember and whatever the join and the order of the values are: it succeeds
after one visit of each node. With the check of growth, the run is the same if everything that leaves
a node in the end stays above `bottom`; otherwise the solve fails in the visit of the first node in
order that does not let such a value leave. A signal may be asked, if it lets a question pass for each
node. -/
theorem solve?_onePass
    (passes : ∀ stop ∈ signal, ∀ journal, journal.polls < p.graph.nodeCount → stop journal = false)
    (memory : τ) :
    ∃ run solution, p.OnePass order memory run solution ∧
      (∀ turns, p.graph.nodeCount < turns →
        p.solve? ⟨order, false⟩ signal memory turns = some run) ∧
      (((∀ node < p.graph.nodeCount, p.Above (solution.outs.getD node p.bottom)) ∧
          ∀ turns, p.graph.nodeCount < turns →
            p.solve? ⟨order, true⟩ signal memory turns = some run) ∨
        ∃ before node after failed,
          order.arrange p.graph.nodeCount = before ++ node :: after ∧
          (∀ earlier ∈ before, p.Above (solution.outs.getD earlier p.bottom)) ∧
          ¬p.Above (solution.outs.getD node p.bottom) ∧
          (∀ turns, p.graph.nodeCount < turns →
            p.solve? ⟨order, true⟩ signal memory turns = some failed) ∧
          failed.outcome = .error (.nonMonotone node) ∧
          failed.journal.visited = before ++ [node]) := by
  have agree : p.predecessors.size = p.graph.nodeCount := Predecessors.size_ofGraph hp
  by_cases none : p.graph.nodeCount = 0
  · refine ⟨_, _, p.onePass_of_none order memory none, fun _ _ => solve?_of_none agree none,
      .inl ⟨fun node hlt => ?_, fun _ _ => solve?_of_none agree none⟩⟩
    rw [none] at hlt
    cases hlt
  have posed : p.Posed := ⟨agree, none⟩
  obtain ⟨last, run, hlast, turn, hrun⟩ := posed.exists_last hp along false signal memory
  obtain ⟨s, run', hs, turn', hrun'⟩ := posed.exists_last hp along true signal memory
  cases turn with
  | cancelled next watched stops =>
    exact absurd stops (hlast.not_stops hp along passes next watched)
  | refused _ _ checked => cases checked
  | settled empty =>
    refine ⟨_, _, onePass_settle hp along hlast empty, hrun, ?_⟩
    cases turn' with
    | cancelled next watched stops =>
      exact absurd stops (hs.not_stops hp along passes next watched)
    | settled empty' =>
      obtain rfl := hs.uncheck.eq_of_empty empty' hlast empty
      have hswept := hs.swept hp along
      have hseeded := hswept.seeded
      rw [empty', List.append_nil] at hseeded
      exact .inl ⟨fun node hlt => hswept.above rfl node (hseeded ▸ Worklist.mem_arrange.mpr hlt),
        hrun'⟩
    | @refused node rest next goesOn _ changed notAbove =>
      have hseeded := (hs.swept hp along).seeded
      rw [next] at hseeded
      obtain ⟨habove, hnot⟩ := refused_first hp along hs next goesOn changed notAbove hlast empty
      exact .inr ⟨_, node, rest, _, hseeded, habove, hnot, hrun', rfl, by simp [State.fail]⟩

end Along

/-- The edges of this graph go down. The transfers answer by a count of the calls: the second answer
is `bottom`, and the third one is below it. -/
def fallingLadder : Problem Instr Nat Nat where
  graph := ⟨#[⟨[], []⟩, ⟨[], [0]⟩, ⟨[], [1, 0]⟩, ⟨[], [2, 1, 2]⟩]⟩
  predecessors := ⟨#[[1, 2], [2, 3], [3], []]⟩
  bottom := 1
  transfer calls _ value := ([3, 1, 0].getD calls (value + 4), calls + 1)

/-- One pass in reverse order solves the ladder. With the check the pass fails at the first node whose
answer is not above `bottom`. -/
theorem fallingLadder_onePass :
    Predecessors.ofGraph fallingLadder.graph = .ok fallingLadder.predecessors ∧
      fallingLadder.graph.RunsAlong .reverse ∧
      (∀ stop ∈ some (Signal.after 4), ∀ journal : Journal Nat, journal.polls < 4 →
        stop journal = false) ∧
      ∃ run, fallingLadder.OnePass .reverse 0 run ⟨#[1, 3, 3, 1], #[5, 0, 1, 3], ⟨4, 3⟩⟩ ∧
        fallingLadder.solve? ⟨.reverse, false⟩ (some (.after 4)) 0 5 = some run ∧
        run.memory = 4 ∧
        ∃ failed, fallingLadder.solve? ⟨.reverse, true⟩ (some (.after 4)) 0 5 = some failed ∧
          failed.outcome = .error (.nonMonotone 1) ∧ failed.journal.visited = [3, 2, 1] := by
  have hp : Predecessors.ofGraph fallingLadder.graph = .ok fallingLadder.predecessors := by
    decide +kernel
  have along : fallingLadder.graph.RunsAlong .reverse := by
    unfold FlowGraph.RunsAlong
    decide
  have passes : ∀ stop ∈ some (Signal.after 4), ∀ journal : Journal Nat, journal.polls < 4 →
      stop journal = false := by
    intro stop hstop journal hlt
    obtain rfl := Option.some.inj hstop
    exact decide_eq_false (Nat.not_le_of_lt hlt)
  refine ⟨hp, along, passes, ?_⟩
  obtain ⟨run, solution, hpass, hrun, hcheck⟩ := solve?_onePass hp along passes 0
  have houtcome : (fallingLadder.solve? ⟨.reverse, false⟩ (some (.after 4)) 0 5).map
      (fun run => (run.outcome, run.memory)) =
      some (.ok ⟨#[1, 3, 3, 1], #[5, 0, 1, 3], ⟨4, 3⟩⟩, 4) := by
    rfl
  rw [hrun 5 (by decide)] at houtcome
  obtain ⟨hok, hmemory⟩ := Prod.mk.inj (Option.some.inj houtcome)
  obtain rfl := Except.ok.inj (hpass.outcome.symm.trans hok)
  refine ⟨run, hpass, hrun 5 (by decide), hmemory, ?_⟩
  rcases hcheck with ⟨habove, -⟩ | ⟨before, node, after, failed, -, -, -, hfailed, hfails, hvisited⟩
  · exact absurd (habove 1 (by decide)) (by unfold Above; decide)
  · have hchecked : (fallingLadder.solve? ⟨.reverse, true⟩ (some (.after 4)) 0 5).map
        (fun run => (run.outcome.toOption, run.journal.visited)) = some (none, [3, 2, 1]) := by
      rfl
    rw [hfailed 5 (by decide)] at hchecked
    obtain ⟨-, hthree⟩ := Prod.mk.inj (Option.some.inj hchecked)
    rw [hvisited] at hthree
    obtain ⟨rfl, hone⟩ := List.append_inj' (hthree.trans (by rfl : _ = [3, 2] ++ [1])) rfl
    cases hone
    exact ⟨failed, hfailed 5 (by decide), hfails, hvisited⟩

end Problem

end ReachingWrites
