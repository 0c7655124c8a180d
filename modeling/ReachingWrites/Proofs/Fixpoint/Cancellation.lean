import ReachingWrites.Proofs.Fixpoint.Least
import ReachingWrites.Proofs.Fixpoint.Journal

/-!
# A signal cuts a solve short

A signal is asked before each visit, and before nothing else. So a solve with a signal that lets some
questions pass goes side by side with the solve without a signal, and differs from it only in the
count of the questions. When the signal asks to stop, the solve ends there: what it has told by then is
what the other one told in as many visits. If the other one has ended by then, the signal has never
been asked the question to which it would have said so, and both end alike.

The solve without a signal need not end, nor need its transfers be monotone.

A solve that succeeds has let all questions pass. So it has come where the solve without a signal
comes, and two solves that succeed under different signals have one solution.
-/

set_option autoImplicit false

namespace ReachingWrites

variable {ι α τ : Type}

/-! ## The same with a signal that lets all pass -/

/-- The same journal, had a signal been asked before each visit. -/
def Journal.watched (j : Journal α) : Journal α := { j with polls := j.visits }

/-- The same solve, had a signal been asked before each visit. -/
def State.watched (s : State α τ) : State α τ := { s with journal := s.journal.watched }

/-- The same run, had a signal been asked before each visit. -/
def Run.watched (run : Run α τ) : Run α τ := { run with journal := run.journal.watched }

/-- The same turn, had a signal been asked before each visit. -/
def Turn.watched : Turn α τ → Turn α τ
  | .next s => .next s.watched
  | .done run => .done run.watched

private theorem Journal.watched_visit (j : Journal α) (node : NodeId) :
    j.watched.poll.visit node = (j.visit node).watched := by
  calc j.watched.poll.visit node
      = { j.visit node with polls := j.visits + 1 } := rfl
    _ = (j.visit node).watched := by
      rw [← j.visits_visit node]
      rfl

private theorem Journal.watched_outChanged (j : Journal α) (node : NodeId) (old new : α) :
    j.watched.outChanged node old new = (j.outChanged node old new).watched := by
  calc j.watched.outChanged node old new
      = { j.outChanged node old new with polls := j.visits } := rfl
    _ = (j.outChanged node old new).watched := by
      rw [← j.visits_outChanged node old new]
      rfl

variable [FlowLattice α]
variable {p : Problem ι α τ} {options : SolveOptions} {signal : Option (Signal α)} {stop : Signal α}
  {memory : τ} {count : Nat}

namespace State

section Turn

variable (s : State α τ) (node : NodeId) (rest : List NodeId)

private theorem watched_arrived :
    s.watched.arrived p (some stop) node rest = (s.arrived p none node rest).watched := by
  calc s.watched.arrived p (some stop) node rest
      = { s.arrived p none node rest with journal := s.journal.watched.poll.visit node } := rfl
    _ = (s.arrived p none node rest).watched := by
      rw [Journal.watched_visit]
      rfl

private theorem watched_grown :
    s.watched.grown p (some stop) node rest = (s.grown p none node rest).watched := by
  calc s.watched.grown p (some stop) node rest
      = { s.grown p none node rest with
          journal := (s.journal.watched.poll.visit node).outChanged node (s.leaving p node)
            (s.answer p node).1 } := rfl
    _ = (s.grown p none node rest).watched := by
      rw [Journal.watched_visit, Journal.watched_outChanged]
      rfl

end Turn

/-- A turn without a signal is a turn with one that lets it pass, once the question is counted. -/
private theorem Takes.watched {s : State α τ} {turn : Turn α τ} (h : s.Takes p options none turn)
    (passes : s.worklist.pending ≠ [] → stop s.watched.journal = false) :
    s.watched.Takes p options (some stop) turn.watched := by
  cases h with
  | settled empty => exact .settled empty
  | cancelled _ watched => cases watched
  | @kept node rest next _ same =>
    have hpasses := passes (next ▸ List.cons_ne_nil _ _)
    rw [Turn.watched, ← watched_arrived]
    exact .kept next hpasses same
  | @refused node rest next _ checked changed notAbove =>
    have hpasses := passes (next ▸ List.cons_ne_nil _ _)
    have hrun : ((s.arrived p none node rest).fail (.nonMonotone node)).watched =
        (s.watched.arrived p (some stop) node rest).fail (.nonMonotone node) := by
      rw [watched_arrived]
      rfl
    rw [Turn.watched, hrun]
    exact .refused next hpasses checked changed notAbove
  | @grown node rest next _ changed above =>
    have hpasses := passes (next ▸ List.cons_ne_nil _ _)
    rw [Turn.watched, ← watched_grown]
    exact .grown next hpasses changed above

/-- A solve with a signal has asked it before each visit. -/
theorem Reached.polls_eq {s : State α τ} (h : Reached p options (some stop) memory s) :
    s.journal.polls = s.journal.visits := by
  induction h with
  | start => rfl
  | next _ turn ih =>
    cases turn with
    | kept =>
      rw [arrived_journal, Journal.visits_visit, asked_visits, ← ih]
      rfl
    | grown =>
      rw [grown_journal, Journal.visits_outChanged, arrived_journal, Journal.visits_visit,
        asked_visits, ← ih]
      rfl

/-- Without a signal, a solve that has a node to visit ends in the visit of that node only. -/
theorem Takes.visits_done {s : State α τ} {run : Run α τ}
    (turn : s.Takes p options none (.done run)) (next : s.worklist.pending ≠ []) :
    run.journal.visits = s.journal.visits + 1 := by
  cases turn with
  | settled empty => exact absurd empty next
  | cancelled _ watched => cases watched
  | refused => simp [fail]

end State

/-! ## Signals that stop after some questions -/

/-- In a solve, the signal lets `count` questions pass and asks to stop at the next one, if it comes to
that. -/
structure Problem.StopsAfter (p : Problem ι α τ) (options : SolveOptions) (stop : Signal α)
    (memory : τ) (count : Nat) : Prop where
  /-- The first questions pass. -/
  passes {s : State α τ} : State.Reached p options (some stop) memory s →
    s.worklist.pending ≠ [] → s.journal.polls < count → stop s.journal = false
  /-- At the next one the signal asks to stop. -/
  stops {s : State α τ} : State.Reached p options (some stop) memory s →
    s.worklist.pending ≠ [] → s.journal.polls = count → stop s.journal = true

namespace Problem

private theorem stopsAfter_after (p : Problem ι α τ) (options : SolveOptions) (memory : τ)
    (count : Nat) : p.StopsAfter options (.after count) memory count where
  passes _ _ hlt := decide_eq_false (Nat.not_le_of_lt hlt)
  stops _ _ heq := decide_eq_true heq.ge

/-- A flag that an observer sets in the visit of that number is seen before the next visit. -/
theorem stopsAfter_onVisit (p : Problem ι α τ) (options : SolveOptions) (memory : τ)
    (positive : 0 < count) : p.StopsAfter options (.onVisit count) memory count where
  passes reached _ hlt := by
    rw [reached.polls_eq] at hlt
    exact decide_eq_false fun h => Nat.not_le_of_lt hlt h.2
  stops reached _ heq := by
    rw [reached.polls_eq] at heq
    exact decide_eq_true ⟨positive, heq.ge⟩

/-- As long as the signal lets the solve pass, it comes where the solve without a signal comes. -/
theorem StopsAfter.reached (hstop : p.StopsAfter options stop memory count) {s : State α τ}
    (h : State.Reached p options none memory s) (hle : s.journal.visits ≤ count) :
    State.Reached p options (some stop) memory s.watched := by
  induction h with
  | start => exact .start
  | @next s _ _ turn ih =>
    have hmore := turn.journal_visits_next
    have hreached := ih (by omega)
    have hpolls : s.watched.journal.polls < count := by
      show s.journal.visits < count
      omega
    exact hreached.next (turn.watched fun hnext => hstop.passes hreached hnext hpolls)

variable [DecidableEq α]

/-! ## The end comes before the signal -/

/-- A solve that ends by itself before the signal asks to stop ends in the same way with the signal. -/
theorem StopsAfter.solve?_eq (hstop : p.StopsAfter options stop memory count) {turns : Nat}
    {run : Run α τ} (hr : p.solve? options none memory turns = some run)
    (hle : run.journal.visits ≤ count) :
    p.solve? options (some stop) memory turns = some run.watched := by
  by_cases posed : p.Posed
  · obtain ⟨s, reached, turn, hvisits⟩ := posed.solve?_eq_some_iff.mp hr
    have hbefore : s.journal.visits ≤ run.journal.visits := by
      by_cases hnext : s.worklist.pending = []
      · obtain rfl := Turn.done.inj ((State.Takes.settled hnext).unique turn)
        exact Nat.le_refl _
      · rw [turn.visits_done hnext]
        exact Nat.le_succ _
    have hreached := hstop.reached reached (hbefore.trans hle)
    refine posed.solve?_eq_some_iff.mpr ⟨s.watched, hreached, turn.watched fun hnext => ?_, hvisits⟩
    have hpolls : s.watched.journal.polls < count := by
      show s.journal.visits < count
      have hmore := turn.visits_done hnext
      omega
    exact hstop.passes hreached hnext hpolls
  · -- where nothing is visited, nothing is asked
    have hnone : ∃ run, p.solve? options none memory turns = some run ∧ run.journal = {} :=
      exists_solve?_of_not_posed posed
    obtain ⟨run', hr', hjournal⟩ := hnone
    obtain rfl := solve?_unique hr hr'
    have hsame : run.watched = run := by
      rw [Run.watched, hjournal]
      cases run
      cases hjournal
      rfl
    rw [hsame, solve?_of_not_posed posed options none turns]
    exact hr

/-! ## The signal comes before the end -/

/-- Without a signal, a solve that does not end within `count` visits comes to a solve with just so
many and a node to visit. -/
theorem Posed.exists_reached (posed : p.Posed)
    (hlong : ∀ turns run, p.solve? options none memory turns = some run →
      count < run.journal.visits) :
    ∃ s, State.Reached p options none memory s ∧ s.journal.visits = count ∧
      s.worklist.pending ≠ [] := by
  have hends : ∀ ⦃s run⦄, State.Reached p options none memory s →
      s.Takes p options none (.done run) → count < run.journal.visits :=
    fun s run reached turn => hlong (s.summary.visits + 1) run
      (posed.solve?_eq_some_iff.mpr ⟨s, reached, turn, Nat.lt_succ_self _⟩)
  have hnext : ∀ ⦃s⦄, State.Reached p options none memory s → s.journal.visits ≤ count →
      s.worklist.pending ≠ [] := by
    intro s reached hle empty
    exact Nat.not_lt_of_le hle (hends reached (.settled empty))
  have hrow : ∀ visits ≤ count, ∃ s, State.Reached p options none memory s ∧
      s.journal.visits = visits := by
    intro visits hle
    induction visits with
    | zero => exact ⟨_, .start, rfl⟩
    | succ visits ih =>
      obtain ⟨s, reached, rfl⟩ := ih (Nat.le_of_succ_le hle)
      have turn : s.Takes p options none (s.step p options none) := State.step_takes s
      cases hstep : s.step p options none with
      | done run =>
        rw [hstep] at turn
        have hmore := turn.visits_done (hnext reached (Nat.le_of_succ_le hle))
        have hlate := hends reached turn
        omega
      | next s' =>
        rw [hstep] at turn
        exact ⟨s', reached.next turn, turn.journal_visits_next⟩
  obtain ⟨s, reached, rfl⟩ := hrow count (Nat.le_refl _)
  exact ⟨s, reached, rfl, hnext reached (Nat.le_refl _)⟩

/-- A solve that does not end by itself before the signal asks to stop ends there. -/
theorem StopsAfter.exists_cancelled (hstop : p.StopsAfter options stop memory count)
    (hlong : ∀ turns run, p.solve? options none memory turns = some run →
      count < run.journal.visits) :
    ∃ s run, State.Reached p options none memory s ∧ p.Posed ∧ s.journal.visits = count ∧
      (∀ turns, count < turns → p.solve? options (some stop) memory turns = some run) ∧
      run = (s.watched.asked (some stop)).cancel s.worklist.pending.length := by
  by_cases posed : p.Posed
  · obtain ⟨s, reached, rfl, hnext⟩ := posed.exists_reached hlong
    have hreached := hstop.reached reached (Nat.le_refl _)
    obtain ⟨node, rest, hpending⟩ := List.exists_cons_of_ne_nil hnext
    refine ⟨s, _, reached, posed, rfl, fun turns hlt => ?_, rfl⟩
    rw [reached.visits_eq] at hlt
    exact posed.solve?_eq_some_iff.mpr ⟨s.watched, hreached,
      .cancelled hpending rfl (hstop.stops hreached hnext rfl), hlt⟩
  · have hnone : ∃ run, p.solve? options none memory 0 = some run ∧ run.journal = {} :=
      exists_solve?_of_not_posed posed
    obtain ⟨run, hr, hjournal⟩ := hnone
    have hlate := hlong 0 run hr
    rw [hjournal] at hlate
    cases hlate

/-- A solve whose signal lets `count` questions pass and asks to stop at the next one is the solve
without a signal, cut after `count` visits. If the latter ends within that many visits, the former
ends in the same way and has asked once before each visit. Otherwise it is cancelled after just so
many visits and one question more, with the journal that the other one has then, and has told what
the other one told in its first `count` visits. Such a signal is one that counts the questions, and a
flag that an observer sets in the visit of that number. Where nothing is visited, no signal is
asked. -/
theorem solve?_cut (p : Problem ι α τ) (options : SolveOptions) (memory : τ) (count : Nat) :
    (∀ stop, p.StopsAfter options stop memory count →
      (∀ turns run, p.solve? options none memory turns = some run → run.journal.visits ≤ count →
        p.solve? options (some stop) memory turns =
          some { run with journal := { run.journal with polls := run.journal.visits } }) ∧
      ((∀ turns run, p.solve? options none memory turns = some run →
          count < run.journal.visits) →
        ∃ run, (∀ turns, count < turns → p.solve? options (some stop) memory turns = some run) ∧
          run.outcome = .error .cancelled ∧ run.journal.visits = count ∧
          run.journal.polls = count + 1 ∧
          (∃ journal pending, p.Keeps options none memory journal ∧ journal.visits = count ∧
            run.journal =
              { journal.write (.cancelled count pending) with polls := count + 1 }) ∧
          ∀ journal, p.Keeps options none memory journal → count ≤ journal.visits →
            run.journal.events.toList = Event.firstVisits count journal.events.toList)) ∧
    p.StopsAfter options (.after count) memory count ∧
    (0 < count → p.StopsAfter options (.onVisit count) memory count) ∧
    ∀ signal turns,
      (p.predecessors.size ≠ p.graph.nodeCount →
        p.solve? options signal memory turns = some ⟨.error
          (.predecessorMismatch p.graph.nodeCount p.predecessors.size), {}, memory⟩) ∧
      (p.predecessors.size = p.graph.nodeCount → p.graph.nodeCount = 0 →
        p.solve? options signal memory turns = some ⟨.ok ⟨#[], #[], {}⟩, {}, memory⟩) := by
  refine ⟨?_, stopsAfter_after p options memory count, stopsAfter_onVisit p options memory,
    fun _ _ => ⟨solve?_of_differ, solve?_of_none⟩⟩
  intro stop hstop
  refine ⟨fun turns run => hstop.solve?_eq, fun hlong => ?_⟩
  obtain ⟨s, run, reached, posed, rfl, hr, rfl⟩ := hstop.exists_cancelled hlong
  refine ⟨_, hr, rfl, rfl, rfl, ?_, ?_⟩
  · refine ⟨s.journal, s.worklist.pending.length, .during posed reached, rfl, ?_⟩
    calc ((s.watched.asked (some stop)).cancel s.worklist.pending.length).journal
        = s.watched.journal.poll.write
            (.cancelled s.summary.visits s.worklist.pending.length) := rfl
      _ = _ := by
        rw [← reached.visits_eq]
        rfl
  · intro journal hkeeps hle
    exact (hkeeps.firstVisits_eq reached hle).symm

/-- A flag set in the third of ten visits cuts this solve there. One set in the last visit comes too
late to be seen. -/
theorem climbingLoop_cut :
    (∃ run, (∀ turns, 3 < turns →
        (climbingLoop [0, 1]).solve? {} (some (.onVisit 3)) () turns = some run) ∧
      run.outcome = .error .cancelled ∧ run.journal.visits = 3 ∧ run.journal.polls = 4) ∧
    ∃ run, (climbingLoop [0, 1]).solve? {} (some (.onVisit 10)) () 11 = some run ∧
      run.outcome = .ok ⟨#[7, 7], #[7, 7], ⟨10, 8⟩⟩ ∧ run.journal.polls = 10 := by
  have hmap : ((climbingLoop [0, 1]).solve? {} none () 11).map
      (fun run => (run.outcome, run.journal.visits)) =
      some (.ok ⟨#[7, 7], #[7, 7], ⟨10, 8⟩⟩, 10) := rfl
  obtain ⟨run, hr, hrun⟩ := Option.map_eq_some_iff.mp hmap
  obtain ⟨hok, hvisits⟩ := Prod.mk.inj hrun
  have hlong : ∀ turns run', (climbingLoop [0, 1]).solve? {} none () turns = some run' →
      3 < run'.journal.visits := by
    intro turns run' hr'
    obtain rfl := solve?_unique hr hr'
    omega
  obtain ⟨hcut, -, hflag, -⟩ := solve?_cut (climbingLoop [0, 1]) {} () 3
  obtain ⟨hcut', -, hflag', -⟩ := solve?_cut (climbingLoop [0, 1]) {} () 10
  refine ⟨?_, ?_⟩
  · obtain ⟨run', hr', hfails, hvisits', hpolls, -⟩ := (hcut _ (hflag (by decide))).2 hlong
    exact ⟨run', hr', hfails, hvisits', hpolls⟩
  · have hr' := (hcut' _ (hflag' (by decide))).1 11 run hr hvisits.le
    exact ⟨_, hr', hok, hvisits⟩

end Problem

/-! ## A solve that succeeds -/

/-- The same journal, had no signal been asked. -/
def Journal.unwatched (j : Journal α) : Journal α := { j with polls := 0 }

/-- The same solve, had no signal been asked. -/
def State.unwatched (s : State α τ) : State α τ := { s with journal := s.journal.unwatched }

namespace State

private theorem unwatched_arrived (s : State α τ) (node : NodeId) (rest : List NodeId) :
    (s.arrived p signal node rest).unwatched = s.unwatched.arrived p none node rest := by
  cases signal <;> rfl

private theorem unwatched_grown (s : State α τ) (node : NodeId) (rest : List NodeId) :
    (s.grown p signal node rest).unwatched = s.unwatched.grown p none node rest := by
  cases signal <;> rfl

/-- A solve comes where it would have come without its signal. -/
theorem Reached.unwatched {s : State α τ} (h : Reached p options signal memory s) :
    Reached p options none memory s.unwatched := by
  induction h with
  | start => exact .start
  | next _ turn ih =>
    cases turn with
    | kept next _ same =>
      rw [unwatched_arrived]
      exact ih.next (.kept next rfl same)
    | grown next _ changed above =>
      rw [unwatched_grown]
      exact ih.next (.grown next rfl changed above)

end State

/-- Solves that succeed agree, whatever their signals. -/
theorem Problem.Ends.ok_unique [DecidableEq α] {signal' : Option (Signal α)} {run run' : Run α τ}
    (h : p.Ends options signal memory run) (h' : p.Ends options signal' memory run')
    {solution solution' : Solution α} (hok : run.outcome = .ok solution)
    (hok' : run'.outcome = .ok solution') : solution = solution' := by
  cases h with
  | mismatch => cases hok
  | empty _ none =>
    cases h' with
    | mismatch => cases hok'
    | empty => exact Except.ok.inj (hok.symm.trans hok')
    | last _ some => exact absurd none some
  | last _ some reached turn =>
    cases h' with
    | mismatch => cases hok'
    | empty _ none => exact absurd none some
    | last _ _ reached' turn' =>
      cases turn with
      | cancelled => cases hok
      | refused => cases hok
      | settled empty =>
        cases turn' with
        | cancelled => cases hok'
        | refused => cases hok'
        | settled empty' =>
          -- without their signals, both have come to the one solve with no node left to visit
          have hone := reached.unwatched.eq_of_empty empty reached'.unwatched empty'
          cases hok
          cases hok'
          exact congrArg (fun s => (⟨s.ins, s.outs, s.summary⟩ : Solution α)) hone

end ReachingWrites
