import Mathlib.Data.List.Chain
import ReachingWrites.Proofs.Fixpoint.GrowthCheck
import ReachingWrites.Proofs.Fixpoint.Visits

/-!
# The journal replays to the result

A solve keeps several records of what it does: the values, the counts, the events for the observer and
the log. They are written at different places of a turn, and a turn can end in different ways between
them. Still they tell one story. A change is told directly behind the visit that makes it. The changes
of a node form a chain from `bottom` to what leaves the node now, so the events can be replayed. And
but for the last entry the log is the events over again.

`Journal.Tells` says this of a journal and the values that leave the nodes. A visit keeps it, and so
does a visit with its change, whatever the transfers answer. So it holds at every moment of every
solve. How a solve ended is then read off its last event and its last log entry.
-/

set_option autoImplicit false

namespace ReachingWrites

variable {ι α τ : Type}

namespace Event

/-! ## Chains of changes -/

/-- The old and the new value, if the observer is told of a change of what leaves the node. -/
def changeOf? (node : NodeId) : Event α → Option (α × α)
  | .visit _ => none
  | .outChanged other old new => if other = node then some (old, new) else none

/-- Changes that lead from one value to another, each with its old and its new value. -/
structure Chain (first : α) (changes : List (α × α)) (last : α) : Prop where
  /-- The first change is one of the first value. -/
  starts : ∀ change ∈ changes.head?, change.1 = first
  /-- Each later change is one of the value that the change before has left. -/
  linked : changes.IsChain fun change next => change.2 = next.1
  /-- Each change is one to another value. -/
  changed : ∀ change ∈ changes, change.1 ≠ change.2
  /-- The last change has left the last value; without changes the value stays. -/
  ends : last = (changes.getLast?.map Prod.snd).getD first

private theorem chain_nil (a : α) : Chain a [] a := ⟨by simp, .nil, by simp, rfl⟩

/-- A chain goes on with a change of its last value. -/
private theorem Chain.concat {first last new : α} {changes : List (α × α)}
    (h : Chain first changes last) (other : last ≠ new) :
    Chain first (changes ++ [(last, new)]) new where
  starts change hmem := by
    rw [List.head?_append] at hmem
    cases hhead : changes.head? with
    | some change' =>
      rw [hhead] at hmem
      exact h.starts change (hhead ▸ hmem)
    | none =>
      obtain rfl := List.head?_eq_none_iff.mp hhead
      cases hmem
      exact h.ends
  linked := by
    refine List.isChain_append.mpr ⟨h.linked, .singleton _, fun change hlast next hnext => ?_⟩
    cases hnext
    rw [h.ends, Option.mem_def.mp hlast]
    rfl
  changed := by
    rw [List.forall_mem_append, List.forall_mem_singleton]
    exact ⟨h.changed, other⟩
  ends := by
    rw [List.getLast?_concat]
    rfl

/-! ## The log of the events -/

/-- The log entry that is written with an event. -/
def entry : Event α → LogEntry
  | .visit node => .visit node
  | .outChanged node _ _ => .outChanged node

end Event

namespace Journal

/-- The changes of what leaves a node, in order, each with its old and its new value. -/
def changesOf (j : Journal α) (node : NodeId) : List (α × α) :=
  j.events.toList.filterMap (Event.changeOf? node)

/-- The tracing entries of the log. The others tell how a solve ended. -/
def traced (j : Journal α) : List LogEntry := j.log.toList.filter (·.level = .trace)

/-- A visit adds no change to those of a node. -/
@[simp] theorem changesOf_visit (j : Journal α) (node other : NodeId) :
    (j.visit node).changesOf other = j.changesOf other := by
  simp [changesOf, Event.changeOf?]

/-- A change is added to those of its node, with the value before and the value after. -/
@[simp] theorem changesOf_outChanged (j : Journal α) (node other : NodeId) (old new : α) :
    (j.outChanged node old new).changesOf other =
      j.changesOf other ++ if node = other then [(old, new)] else [] := by
  rw [changesOf, toList_events_outChanged, List.filterMap_append]
  by_cases h : node = other
  · simp [changesOf, Event.changeOf?, h]
  · simp [changesOf, Event.changeOf?, h]

/-- A visit adds its line to the log. -/
@[simp] theorem traced_visit (j : Journal α) (node : NodeId) :
    (j.visit node).traced = j.traced ++ [.visit node] := by
  simp [traced, visit, LogEntry.level]

/-- A change adds its line to the log. -/
@[simp] theorem traced_outChanged (j : Journal α) (node : NodeId) (old new : α) :
    (j.outChanged node old new).traced = j.traced ++ [.outChanged node] := by
  simp [traced, outChanged, LogEntry.level]

/-- A journal tells how the values that leave the nodes have come from `bottom`. -/
structure Tells (j : Journal α) (bottom : α) (values : NodeId → α) : Prop where
  /-- A change is told directly behind the visit of its node. -/
  behind : ∀ ⦃before node old new after⦄,
    j.events.toList = before ++ .outChanged node old new :: after →
      ∃ earlier, before = earlier ++ [.visit node]
  /-- The changes of a node lead from `bottom` to what leaves it. -/
  chain : ∀ node, Event.Chain bottom (j.changesOf node) (values node)
  /-- The log traces the events. -/
  traced : j.traced = j.events.toList.map Event.entry

private theorem tells_empty (bottom : α) : ({} : Journal α).Tells bottom fun _ => bottom where
  behind _ _ _ _ _ hsplit := by simp at hsplit
  chain _ := Event.chain_nil bottom
  traced := rfl

section Steps

variable {j : Journal α} {bottom : α} {values : NodeId → α} (h : j.Tells bottom values)
include h

/-- Only the events and the log tell. -/
private theorem Tells.poll : j.poll.Tells bottom values := ⟨h.behind, h.chain, h.traced⟩

/-- How a solve ended is not traced. -/
private theorem Tells.write {entry : LogEntry} (untraced : entry.level = .debug) :
    (j.write entry).Tells bottom values where
  behind := h.behind
  chain := h.chain
  traced := by
    refine Eq.trans ?_ h.traced
    simp [Journal.traced, Journal.write, untraced]

private theorem Tells.visit (node : NodeId) : (j.visit node).Tells bottom values where
  behind before other old new after hsplit := by
    rw [toList_events_visit] at hsplit
    rcases concat_eq_append_cons hsplit with ⟨-, -, hsame⟩ | ⟨more, -, hmore⟩
    · cases hsame
    · exact h.behind hmore
  chain other := by
    rw [changesOf_visit]
    exact h.chain other
  traced := by
    rw [traced_visit, toList_events_visit, List.map_append, h.traced]
    rfl

/-- A visit that changes what leaves its node adds a link to the chain of this node and to no
other. -/
private theorem Tells.visitChanged {node : NodeId} {new : α} (other : values node ≠ new) :
    ((j.visit node).outChanged node (values node) new).Tells bottom
      (Function.update values node new) where
  behind before n old new' after hsplit := by
    rw [toList_events_outChanged] at hsplit
    rcases concat_eq_append_cons hsplit with ⟨-, hbefore, hsame⟩ | ⟨more, -, hmore⟩
    · cases hsame
      rw [← hbefore, toList_events_visit]
      exact ⟨_, rfl⟩
    · exact (h.visit node).behind hmore
  chain n := by
    rw [changesOf_outChanged, changesOf_visit]
    by_cases hn : node = n
    · subst hn
      rw [if_pos rfl, Function.update_self]
      exact (h.chain node).concat other
    · rw [if_neg hn, List.append_nil, Function.update_of_ne (Ne.symm hn)]
      exact h.chain n
  traced := by
    rw [traced_outChanged, toList_events_outChanged, List.map_append, (h.visit node).traced]
    rfl

end Steps

end Journal

variable [FlowLattice α]
variable {p : Problem ι α τ} {options : SolveOptions} {signal : Option (Signal α)} {memory : τ}

/-! ## Every solve tells -/

namespace State

omit [FlowLattice α] in
private theorem tells_asked {s : State α τ} {bottom : α} {values : NodeId → α}
    (h : s.journal.Tells bottom values) : (s.asked signal).journal.Tells bottom values := by
  cases signal with
  | none => exact h
  | some _ => exact h.poll

/-- In every state that is reached the journal tells what leaves the nodes. -/
theorem Reached.tells {s : State α τ} (h : Reached p options signal memory s) :
    s.journal.Tells p.bottom (s.leaving p) := by
  induction h with
  | start =>
    have hbottom : (State.start p options.order memory).leaving p = fun _ => p.bottom :=
      funext fun _ => leaving_start p options.order memory
    rw [hbottom]
    exact Journal.tells_empty p.bottom
  | next before turn ih =>
    cases turn with
    | kept =>
      rw [leaving_arrived]
      exact (tells_asked ih).visit _
    | grown next _ changed =>
      rw [leaving_grown before.sized next]
      exact (tells_asked ih).visitChanged changed.symm

end State

namespace Problem

/-- A journal that a solve keeps tells some values. -/
theorem Keeps.tells {journal : Journal α} (h : p.Keeps options signal memory journal) :
    ∃ values, journal.Tells p.bottom values := by
  cases h with
  | during _ reached => exact ⟨_, reached.tells⟩
  | ended ends =>
    cases ends with
    | mismatch | empty => exact ⟨_, Journal.tells_empty p.bottom⟩
    | last _ _ reached turn =>
      cases turn with
      | settled => exact ⟨_, reached.tells.write rfl⟩
      | cancelled => exact ⟨_, (State.tells_asked reached.tells).write rfl⟩
      | refused => exact ⟨_, (State.tells_asked reached.tells).visit _⟩

/-! ## How a solve ended -/

section Ends

variable {run : Run α τ} (h : p.Ends options signal memory run)
include h

/-- The chains of a solve that ends with a solution end with the solution, and the counts are those of
its events. -/
theorem Ends.replays {solution : Solution α} (hok : run.outcome = .ok solution) :
    (∀ node < p.graph.nodeCount, ∃ last, solution.outs[node]? = some last ∧
      Event.Chain p.bottom (run.journal.changesOf node) last) ∧
    solution.summary = ⟨run.journal.visits, run.journal.changes⟩ ∧
    (p.graph.nodeCount ≠ 0 → run.journal.log.back? =
      some (.fixpoint p.graph.nodeCount run.journal.visits run.journal.changes)) := by
  refine ⟨?_, h.summary_eq hok, ?_⟩
  · intro node hlt
    cases h with
    | mismatch => cases hok
    | empty _ none => exact absurd hlt (by omega)
    | last _ _ reached turn =>
      cases turn with
      | settled =>
        cases hok
        have hsize := reached.sized.outs.symm ▸ hlt
        have hchain := reached.tells.chain node
        rw [State.leaving, Array.getD_eq_getD_getElem?, Array.getElem?_eq_getElem hsize] at hchain
        exact ⟨_, Array.getElem?_eq_getElem hsize, hchain⟩
      | cancelled | refused => cases hok
  · intro some
    cases h with
    | mismatch => cases hok
    | empty _ none => exact absurd none some
    | last _ _ reached turn =>
      cases turn with
      | settled =>
        have hcounts := reached.summary_eq
        simp only [State.settle, Journal.write, Array.back?_push, hcounts]
        rfl
      | cancelled | refused => cases hok

/-- The last log entry of a cancelled solve counts the visits, and the nodes of which a visit is
due. -/
theorem Ends.waiting_of_cancelled (hcancelled : run.outcome = .error .cancelled) :
    ∃ s : State α τ, State.Reached p options signal memory s ∧
      s.journal.events = run.journal.events ∧ s.worklist.pending.Nodup ∧
      (∀ node, node ∈ s.worklist.pending ↔
        node < p.graph.nodeCount ∧ Event.Due p.graph run.journal.events.toList node) ∧
      run.journal.log.back? = some (.cancelled run.journal.visits s.worklist.pending.length) ∧
      1 ≤ s.worklist.pending.length ∧ s.worklist.pending.length ≤ p.graph.nodeCount := by
  rcases h.of_error hcancelled with ⟨-, hfailure⟩ | ⟨-, s, stop, reached, hnext, -, -, hjournal⟩ |
    ⟨_, _, _, hfailure, -⟩
  · cases hfailure
  · have hevents : s.journal.events = run.journal.events := by
      rw [hjournal]
      rfl
    have hvisits : run.journal.visits = s.summary.visits := by
      rw [Journal.visits, ← hevents]
      exact reached.visits_eq
    have hsized := reached.sized
    have hlt : ∀ node ∈ s.worklist.pending, node < p.graph.nodeCount := fun node hmem =>
      hsized.queued ▸ hsized.marked.lt_size hmem
    refine ⟨s, reached, hevents, hsized.marked.nodup, fun node => ?_, ?_,
      List.length_pos_of_ne_nil hnext, ?_⟩
    · rw [← hevents]
      constructor
      · intro hmem
        exact ⟨hlt node hmem, (reached.history.mem_waiting_iff (hlt node hmem)).mp hmem⟩
      · intro hdue
        exact (reached.history.mem_waiting_iff hdue.1).mpr hdue.2
    · rw [hvisits, hjournal, Journal.write, Array.back?_push]
    · rw [← hsized.queued]
      exact hsized.marked.length_pending_le
  · cases hfailure

/-- A solve that fails for a value that does not grow ends with the visit that found out. -/
theorem Ends.back?_of_nonMonotone {node : NodeId}
    (hfails : run.outcome = .error (.nonMonotone node)) :
    run.journal.events.back? = some (.visit node) ∧
      run.journal.log.back? = some (.visit node) := by
  cases h with
  | mismatch | empty => cases hfails
  | last _ _ reached turn =>
    cases turn with
    | settled | cancelled => cases hfails
    | refused =>
      cases hfails
      exact ⟨Array.back?_push, Array.back?_push⟩

end Ends

/-- All records of a solve agree. At every moment, each change has been told directly behind the visit
of its node, and grows if growth is checked; the changes of a node form a chain from `bottom`; and the
log traces the events one by one.

If the solve ends with a solution, the chains end with what leaves the nodes, and the counts are those
of the events; the log ends with these counts if there is a node. If the signal stopped it, the log
ends with the number of visits and with the number of nodes that waited, the one whose turn it was
included, and a node waited if a visit of it was due. If a value did not grow, the events and the log
end with the visit that found out. -/
theorem solve?_replays [DecidableEq α] (p : Problem ι α τ) (options : SolveOptions)
    (signal : Option (Signal α)) (memory : τ) :
    (∀ journal, p.Keeps options signal memory journal →
      (∀ before node old new after,
        journal.events.toList = before ++ .outChanged node old new :: after →
          (∃ earlier, before = earlier ++ [.visit node]) ∧
            (options.checkMonotone = true → FlowLattice.leq old new = true)) ∧
      (∀ node, ∃ last, Event.Chain p.bottom (journal.changesOf node) last) ∧
      journal.traced = journal.events.toList.map Event.entry) ∧
    ∀ turns run, p.solve? options signal memory turns = some run →
      (∀ solution, run.outcome = .ok solution →
        (∀ node < p.graph.nodeCount, ∃ last, solution.outs[node]? = some last ∧
          Event.Chain p.bottom (run.journal.changesOf node) last) ∧
        solution.summary = ⟨run.journal.visits, run.journal.changes⟩ ∧
        (p.graph.nodeCount ≠ 0 → run.journal.log.back? =
          some (.fixpoint p.graph.nodeCount run.journal.visits run.journal.changes))) ∧
      (run.outcome = .error .cancelled → ∃ s : State α τ,
        State.Reached p options signal memory s ∧ s.journal.events = run.journal.events ∧
        s.worklist.pending.Nodup ∧
        (∀ node, node ∈ s.worklist.pending ↔
          node < p.graph.nodeCount ∧ Event.Due p.graph run.journal.events.toList node) ∧
        run.journal.log.back? =
          some (.cancelled run.journal.visits s.worklist.pending.length) ∧
        1 ≤ s.worklist.pending.length ∧ s.worklist.pending.length ≤ p.graph.nodeCount) ∧
      ∀ node, run.outcome = .error (.nonMonotone node) →
        run.journal.events.back? = some (.visit node) ∧
          run.journal.log.back? = some (.visit node) := by
  constructor
  · intro journal hkeeps
    obtain ⟨values, htells⟩ := hkeeps.tells
    refine ⟨fun before node old new after hsplit => ⟨htells.behind hsplit, fun checked => ?_⟩,
      fun node => ⟨values node, htells.chain node⟩, htells.traced⟩
    have hmem : .outChanged node old new ∈ journal.events.toList := by
      rw [hsplit]
      exact List.mem_append_right _ List.mem_cons_self
    exact hkeeps.grows_of_check checked _ hmem
  · intro turns run hr
    have hends := solve?_ends hr
    exact ⟨fun solution hok => hends.replays hok, hends.waiting_of_cancelled,
      fun node hfails => hends.back?_of_nonMonotone hfails⟩

/-- Unchecked, this loop lets the second node change to `9` and then to `2`, and both nodes wait after
its third visit. Checked, the loop fails in that visit. -/
theorem shrinkingLoop_replays :
    (∃ run solution, shrinkingLoop.solve? ⟨.reverse, false⟩ none () 9 = some run ∧
      run.outcome = .ok solution ∧
      (∃ last, solution.outs[1]? = some last ∧ Event.Chain 0 [(0, 9), (9, 2)] last) ∧
      solution.summary = ⟨5, 3⟩ ∧ run.journal.log.back? = some (.fixpoint 2 5 3)) ∧
    (∃ run s, shrinkingLoop.solve? ⟨.reverse, false⟩ (some (.after 3)) () 4 = some run ∧
      run.outcome = .error .cancelled ∧
      State.Reached shrinkingLoop ⟨.reverse, false⟩ (some (.after 3)) () s ∧
      s.worklist.pending.length = 2 ∧
      run.journal.log.back? = some (.cancelled 3 s.worklist.pending.length)) ∧
    ∃ run, shrinkingLoop.solve? ⟨.reverse, true⟩ none () 3 = some run ∧
      run.outcome = .error (.nonMonotone 1) ∧ run.journal.events.back? = some (.visit 1) := by
  refine ⟨?_, ?_, ?_⟩
  · have hmap : (shrinkingLoop.solve? ⟨.reverse, false⟩ none () 9).map (fun run =>
        (run.outcome, run.journal.changesOf 1, run.journal.visits, run.journal.changes)) =
        some (.ok ⟨#[2, 3], #[3, 2], ⟨5, 3⟩⟩, [(0, 9), (9, 2)], 5, 3) := rfl
    obtain ⟨run, hr, hrun⟩ := Option.map_eq_some_iff.mp hmap
    simp only [Prod.mk.injEq] at hrun
    obtain ⟨hok, hchanges, hvisits, hcount⟩ := hrun
    obtain ⟨hreplays, -, -⟩ := (solve?_replays shrinkingLoop ⟨.reverse, false⟩ none ()).2 9 run hr
    obtain ⟨hchains, hsummary, hlog⟩ := hreplays _ hok
    have hchain := hchains 1 (by decide)
    rw [hchanges] at hchain
    have hlast := hlog (by decide)
    rw [hvisits, hcount] at hsummary hlast
    exact ⟨run, _, hr, hok, hchain, hsummary, hlast⟩
  · have hmap : (shrinkingLoop.solve? ⟨.reverse, false⟩ (some (.after 3)) () 4).map (fun run =>
        (run.outcome, run.journal.visits, run.journal.log.back?)) =
        some (.error .cancelled, 3, some (.cancelled 3 2)) := rfl
    obtain ⟨run, hr, hrun⟩ := Option.map_eq_some_iff.mp hmap
    simp only [Prod.mk.injEq] at hrun
    obtain ⟨hfails, hvisits, hback⟩ := hrun
    obtain ⟨-, hcancelled, -⟩ :=
      (solve?_replays shrinkingLoop ⟨.reverse, false⟩ (some (.after 3)) ()).2 4 run hr
    obtain ⟨s, reached, -, -, -, hlog, -, -⟩ := hcancelled hfails
    rw [hvisits] at hlog
    have hlength : s.worklist.pending.length = 2 := by
      rw [hback] at hlog
      exact (LogEntry.cancelled.inj (Option.some.inj hlog)).2.symm
    exact ⟨run, s, hr, hfails, reached, hlength, hlog⟩
  · have hmap : (shrinkingLoop.solve? ⟨.reverse, true⟩ none () 3).map Run.outcome =
        some (.error (.nonMonotone 1)) := rfl
    obtain ⟨run, hr, hfails⟩ := Option.map_eq_some_iff.mp hmap
    obtain ⟨-, -, hfailed⟩ := (solve?_replays shrinkingLoop ⟨.reverse, true⟩ none ()).2 3 run hr
    exact ⟨run, hr, hfails, (hfailed 1 hfails).1⟩

end Problem

end ReachingWrites
