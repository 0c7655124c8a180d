import ReachingWrites.Proofs.Fixpoint.Effort
import ReachingWrites.Proofs.Fixpoint.Journal

/-!
# The check of growth

A solve may be told to fail when a value that leaves a node would become another one that is not
above it. This check has two effects, and both hold whatever the transfers answer.

Where values can grow only a bounded number of times, a checked solve ends: every change that the
check lets pass makes a value grow, so no law of the transfers is needed to bound the changes.

And the check does nothing but end the solve early. Side by side, a checked solve and an unchecked
one take the same turns as long as every change makes a value grow. If some change does not, the
checked solve fails in the visit of the first such change, and has told until then what the unchecked
one had told before the change.
-/

set_option autoImplicit false

namespace ReachingWrites

variable {ι α τ : Type} [FlowLattice α]

open FlowLattice (leq Ascent)

/-- If a change is told, it makes the value grow. -/
def Event.Grows : Event α → Prop
  | .visit _ => True
  | .outChanged _ old new => leq old new = true

variable {p : Problem ι α τ} {options : SolveOptions} {order : VisitOrder}
  {signal : Option (Signal α)} {memory : τ}

/-! ## A checked solve ends -/

namespace State

/-- What the check lets pass grows. -/
theorem grows_of_check (checked : options.checkMonotone = true) :
    Grows p options signal memory fun _ => True :=
  fun _ _ _ _ _ above => ⟨trivial, above checked⟩

end State

namespace Problem

/-- The visits and changes of any run, also of one that fails, are bounded by the height of a class
of values within which they grow. -/
theorem Ends.effort_le {V : α → Prop} (hgrows : State.Grows p options signal memory V)
    {height : Nat} (hheight : ∀ ⦃count : Nat⦄ ⦃a : α⦄, Ascent V p.bottom count a → count ≤ height)
    {run : Run α τ} (h : p.Ends options signal memory run) :
    run.journal.visits ≤ p.graph.nodeCount + height * p.graph.edgeCount ∧
      run.journal.changes ≤ height * p.graph.nodeCount := by
  cases h with
  | mismatch | empty => exact ⟨Nat.zero_le _, Nat.zero_le _⟩
  | @last _ s _ _ reached turn =>
    have hvisits := reached.visits_le hgrows hheight
    have hupdates := reached.updates_le hgrows hheight
    rw [reached.summary_eq] at hvisits hupdates
    dsimp only at hvisits hupdates
    cases turn with
    | settled => exact ⟨(Nat.le_add_right _ _).trans hvisits, hupdates⟩
    | cancelled =>
      have hsame : (s.asked signal).journal.visits = s.journal.visits := State.asked_visits s
      have hsame' : (s.asked signal).journal.changes = s.journal.changes := State.asked_changes s
      exact ⟨hsame.le.trans ((Nat.le_add_right _ _).trans hvisits), hsame'.le.trans hupdates⟩
    | @refused node rest next =>
      -- the visit that the check refuses had been waiting
      have hlength := State.length_pending next
      simp only [State.fail, State.arrived_journal, Journal.visits_visit, Journal.changes_visit,
        State.asked_visits, State.asked_changes]
      exact ⟨by omega, hupdates⟩

/-- Over values that grow at most `height` times from `bottom`, a checked solve ends, whatever its
transfers answer and remember. It ends, with a solution or with a failure, after at most one visit for
each node and `height` visits for each distinct edge, and after at most `height` changes of what
leaves a node. -/
theorem solve?_ends_of_check [DecidableEq α] (checked : options.checkMonotone = true) {height : Nat}
    (hheight : ∀ ⦃count : Nat⦄ ⦃a : α⦄, Ascent (fun _ => True) p.bottom count a → count ≤ height)
    (signal : Option (Signal α)) (memory : τ) :
    ∃ run, (∀ turns, p.graph.nodeCount + height * p.graph.edgeCount < turns →
        p.solve? options signal memory turns = some run) ∧
      run.journal.visits ≤ p.graph.nodeCount + height * p.graph.edgeCount ∧
      run.journal.changes ≤ height * p.graph.nodeCount ∧
      ∀ solution, run.outcome = .ok solution →
        solution.summary = ⟨run.journal.visits, run.journal.changes⟩ := by
  have hgrows : State.Grows p options signal memory fun _ => True := State.grows_of_check checked
  obtain ⟨run, hrun⟩ := exists_solve?_of_grows hgrows hheight (Nat.lt_succ_self _)
  have hends := solve?_ends hrun
  obtain ⟨hvisits, hchanges⟩ := hends.effort_le hgrows hheight
  exact ⟨run, fun turns hlt => solve?_mono hrun hlt, hvisits, hchanges,
    fun solution hok => hends.summary_eq hok⟩

/-- The transfers of this loop answer by a count of the calls: they climb at first, and then fall. -/
def waveringLoop : Problem Instr (Fin 3) Nat where
  graph := ⟨#[⟨[], [1, 1]⟩, ⟨[], [0, 7]⟩]⟩
  predecessors := ⟨#[[1], [0]]⟩
  bottom := 0
  transfer calls _ _ := ([1, 1, 2].getD calls 0, calls + 1)

/-- The wavering loop on three values in a row: with the check it ends within the bounds, at its second
node. -/
theorem waveringLoop_ends : FlowLattice.Lawful (Fin 3) ∧
    (∀ ⦃count : Nat⦄ ⦃a : Fin 3⦄, Ascent (fun _ => True) waveringLoop.bottom count a → count ≤ 2) ∧
    ∃ run, (∀ turns, 2 + 2 * 2 < turns →
        waveringLoop.solve? ⟨.forward, true⟩ none 0 turns = some run) ∧
      run.outcome = .error (.nonMonotone 1) ∧ run.journal.visits ≤ 2 + 2 * 2 ∧
      run.journal.changes ≤ 2 * 2 := by
  have hheight : ∀ ⦃count : Nat⦄ ⦃a : Fin 3⦄,
      Ascent (fun _ => True) waveringLoop.bottom count a → count ≤ 2 := by
    intro count a hascent
    exact (FlowLattice.rankedOn_fin 2).ascent_le trivial hascent
  have hedges : waveringLoop.graph.edgeCount = 2 := by decide
  have hchecked : (⟨.forward, true⟩ : SolveOptions).checkMonotone = true := rfl
  obtain ⟨run, hrun, hvisits, hchanges, -⟩ := solve?_ends_of_check hchecked hheight none 0
  rw [hedges] at hrun hvisits
  refine ⟨FlowLattice.lawful_fin 3, hheight, run, hrun, ?_, hvisits, hchanges⟩
  have houtcome : (waveringLoop.solve? ⟨.forward, true⟩ none 0 7).map Run.outcome =
      some (.error (.nonMonotone 1)) := by
    decide +kernel
  rw [hrun 7 (by decide)] at houtcome
  exact Option.some.inj houtcome

end Problem

/-! ## The check only ends a solve early -/

namespace State

/-- What a checked solve tells grows. -/
theorem Reached.grows_events (checked : options.checkMonotone = true) {s : State α τ}
    (h : Reached p options signal memory s) : ∀ event ∈ s.journal.events.toList, event.Grows := by
  induction h with
  | start =>
    intro event hevent
    cases hevent
  | next _ turn ih =>
    cases turn with
    | kept =>
      simp only [arrived_journal, Journal.toList_events_visit, asked_events, List.forall_mem_append,
        List.forall_mem_singleton]
      exact ⟨ih, trivial⟩
    | grown next goesOn changed above =>
      simp only [grown_journal, arrived_journal, Journal.toList_events_outChanged,
        Journal.toList_events_visit, asked_events, List.forall_mem_append,
        List.forall_mem_singleton]
      exact ⟨⟨ih, trivial⟩, above checked⟩

/-- A turn without the check is a turn with it, unless it changes what leaves a node to a value that
is not above it. Such a turn the check turns into a failure. -/
theorem Takes.check {s : State α τ} {turn : Turn α τ}
    (h : s.Takes p ⟨order, false⟩ signal turn) :
    s.Takes p ⟨order, true⟩ signal turn ∨
      ∃ node rest, turn = .next (s.grown p signal node rest) ∧
        leq (s.leaving p node) (s.answer p node).1 = false ∧
        s.Takes p ⟨order, true⟩ signal
          (.done ((s.arrived p signal node rest).fail (.nonMonotone node))) := by
  cases h with
  | settled empty => exact .inl (.settled empty)
  | cancelled next watched stops => exact .inl (.cancelled next watched stops)
  | kept next goesOn same => exact .inl (.kept next goesOn same)
  | refused _ _ checked => cases checked
  | @grown node rest next goesOn changed =>
    cases habove : leq (s.leaving p node) (s.answer p node).1 with
    | true => exact .inl (.grown next goesOn changed fun _ => habove)
    | false => exact .inr ⟨node, rest, rfl, habove, .refused next goesOn rfl changed habove⟩

/-- Both with the check and without it, the start leads to this solve. Its next turn visits `node`:
without the check the turn changes what leaves the node to a value that is not above it, and with the
check it fails. -/
structure Stumbles (p : Problem ι α τ) (order : VisitOrder) (signal : Option (Signal α))
    (memory : τ) (s : State α τ) (node : NodeId) (rest : List NodeId) : Prop where
  /-- A solve without the check comes here. -/
  unchecked : Reached p ⟨order, false⟩ signal memory s
  /-- A solve with the check comes here. -/
  checked : Reached p ⟨order, true⟩ signal memory s
  /-- Without the check, the solve goes on. -/
  goesOn : s.Takes p ⟨order, false⟩ signal (.next (s.grown p signal node rest))
  /-- With the check, the solve fails. -/
  fails : s.Takes p ⟨order, true⟩ signal
    (.done ((s.arrived p signal node rest).fail (.nonMonotone node)))
  /-- What would leave the node is not above what left it. -/
  notAbove : leq (s.leaving p node) (s.answer p node).1 = false

/-- Where a solve without the check comes, a solve with the check comes too, unless it has stumbled
before. -/
theorem Reached.check {s : State α τ} (h : Reached p ⟨order, false⟩ signal memory s) :
    Reached p ⟨order, true⟩ signal memory s ∨
      ∃ s' node rest, Stumbles p order signal memory s' node rest := by
  induction h with
  | start =>
    left
    exact .start
  | @next s _ before turn ih =>
    rcases ih with hchecked | hstumbles
    · rcases turn.check with hsame | ⟨node, rest, hgrown, hnot, hfails⟩
      · exact .inl (hchecked.next hsame)
      · rw [hgrown] at turn
        exact .inr ⟨s, node, rest, before, hchecked, turn, hfails, hnot⟩
    · exact .inr hstumbles

end State

namespace Problem

/-- A journal tells of growth only if the solves between turns do: the visit that ends a solve tells of
no change. -/
theorem Keeps.grows {journal : Journal α} (h : p.Keeps options signal memory journal)
    (hgrows : ∀ s, State.Reached p options signal memory s →
      ∀ event ∈ s.journal.events.toList, event.Grows) :
    ∀ event ∈ journal.events.toList, event.Grows := by
  obtain ⟨s, reached, hsame | ⟨node, -, -, hmore⟩⟩ := h.events
  · rw [hsame]
    exact hgrows s reached
  · rw [hmore, List.forall_mem_append, List.forall_mem_singleton]
    exact ⟨hgrows s reached, trivial⟩

/-- What a checked solve tells grows, at its end too. -/
theorem Keeps.grows_of_check (checked : options.checkMonotone = true) {journal : Journal α}
    (h : p.Keeps options signal memory journal) :
    ∀ event ∈ journal.events.toList, event.Grows :=
  h.grows fun _ reached => reached.grows_events checked

section Never

variable (never : ¬∃ s node rest, State.Stumbles p order signal memory s node rest)
include never

/-- A solve that never stumbles tells of growth only. -/
theorem Keeps.grows_of_never {journal : Journal α}
    (h : p.Keeps ⟨order, false⟩ signal memory journal) :
    ∀ event ∈ journal.events.toList, event.Grows := by
  refine h.grows fun s reached => ?_
  have hchecked := reached.check.resolve_right never
  exact hchecked.grows_events rfl

/-- A solve that never stumbles is the same with the check and without it. -/
theorem Posed.solve?_eq_of_never [DecidableEq α] (posed : p.Posed) (turns : Nat) :
    p.solve? ⟨order, true⟩ signal memory turns = p.solve? ⟨order, false⟩ signal memory turns := by
  rw [posed.solve?_eq_run?, posed.solve?_eq_run?]
  have hstart : State.Reached p ⟨order, false⟩ signal memory (.start p order memory) := .start
  refine hstart.run?_congr (fun s reached => ?_) turns
  have turn : s.Takes p ⟨order, false⟩ signal (s.step p ⟨order, false⟩ signal) := State.step_takes s
  rcases turn.check with hsame | ⟨node, rest, hgrown, hnot, hfails⟩
  · exact hsame.step_eq
  · rw [hgrown] at turn
    have hchecked := reached.check.resolve_right never
    exact absurd ⟨s, node, rest, reached, hchecked, turn, hfails, hnot⟩ never

end Never

/-- Checked or not, a solve with the same transfers and the same signal is the same if every change of
the unchecked one makes a value grow. Otherwise the checked solve fails at the node of the first
change that does not. Its journal then is the one that the unchecked solve has just before that
change: it ends with the visit of the node. -/
theorem solve?_check [DecidableEq α] (p : Problem ι α τ) (order : VisitOrder)
    (signal : Option (Signal α)) (memory : τ) :
    ((∀ journal, p.Keeps ⟨order, false⟩ signal memory journal →
        ∀ event ∈ journal.events.toList, event.Grows) ∧
      ∀ turns, p.solve? ⟨order, true⟩ signal memory turns =
        p.solve? ⟨order, false⟩ signal memory turns) ∨
    ∃ (run : Run α τ) (before : List (Event α)) (node : NodeId) (old new : α),
      (∀ turns, run.journal.visits ≤ turns →
        p.solve? ⟨order, true⟩ signal memory turns = some run) ∧
      run.outcome = .error (.nonMonotone node) ∧
      run.journal.events.toList = before ++ [.visit node] ∧
      (∀ event ∈ before, event.Grows) ∧ leq old new = false ∧
      p.Keeps ⟨order, false⟩ signal memory (run.journal.outChanged node old new) ∧
      ∀ journal, p.Keeps ⟨order, false⟩ signal memory journal →
        run.journal.visits ≤ journal.visits →
          (run.journal.outChanged node old new).events.toList <+: journal.events.toList := by
  by_cases posed : p.Posed
  · by_cases hstumbles : ∃ s node rest, State.Stumbles p order signal memory s node rest
    · obtain ⟨s, node, rest, h⟩ := hstumbles
      have hafter : State.Reached p ⟨order, false⟩ signal memory (s.grown p signal node rest) :=
        h.unchecked.next h.goesOn
      right
      refine ⟨(s.arrived p signal node rest).fail (.nonMonotone node), s.journal.events.toList, node,
        s.leaving p node, (s.answer p node).1, ?_, rfl, ?_, h.checked.grows_events rfl, h.notAbove,
        ?_, ?_⟩
      · intro turns hle
        rw [posed.solve?_eq_some_iff]
        refine ⟨s, h.checked, h.fails, Nat.lt_of_succ_le ?_⟩
        simpa [State.fail, h.checked.visits_eq] using hle
      · simp [State.fail]
      · exact .during posed hafter
      · intro journal hkeeps hle
        have hvisits : (s.grown p signal node rest).journal.visits ≤ journal.visits := by
          simpa [State.fail] using hle
        have hfirst := hkeeps.firstVisits_eq hafter hvisits
        have hprefix := Event.firstVisits_prefix (s.grown p signal node rest).journal.visits
          journal.events.toList
        rw [hfirst] at hprefix
        exact hprefix
    · exact .inl ⟨fun _ h => h.grows_of_never hstumbles, posed.solve?_eq_of_never hstumbles⟩
  · left
    refine ⟨?_, fun turns => solve?_of_not_posed posed _ _ _⟩
    intro journal hkeeps event hevent
    rw [hkeeps.eq_empty posed] at hevent
    cases hevent

/-- Checked, this loop fails at the change that the unchecked solve makes when what leaves the second
node shrinks. -/
theorem shrinkingLoop_check : ∃ (run : Run Nat Unit) (old new : Nat),
    shrinkingLoop.solve? ⟨.reverse, true⟩ none () 3 = some run ∧
      run.outcome = .error (.nonMonotone 1) ∧ new < old ∧
      shrinkingLoop.Keeps ⟨.reverse, false⟩ none () (run.journal.outChanged 1 old new) := by
  have hmap : (shrinkingLoop.solve? ⟨.reverse, true⟩ none () 3).map Run.outcome =
      some (.error (.nonMonotone 1)) := rfl
  obtain ⟨run, hr, hfails⟩ := Option.map_eq_some_iff.mp hmap
  rcases solve?_check shrinkingLoop .reverse none () with ⟨-, hsame⟩ | h
  · have hmap' : (shrinkingLoop.solve? ⟨.reverse, false⟩ none () 9).map Run.outcome =
        some (.ok ⟨#[2, 3], #[3, 2], ⟨5, 3⟩⟩) := rfl
    rw [← hsame, solve?_mono hr (by decide), Option.map_some, hfails] at hmap'
    cases hmap'
  · obtain ⟨run', _, node, old, new, hr', hfails', -, -, hnot, hkeeps, -⟩ := h
    obtain rfl := solve?_unique hr (hr' _ (Nat.le_refl _))
    rw [hfails] at hfails'
    cases hfails'
    exact ⟨run, old, new, hr, hfails, Nat.lt_of_not_le (of_decide_eq_false hnot), hkeeps⟩

end Problem

end ReachingWrites
