import ReachingWrites.Proofs.Fixpoint.Turn

/-!
# A solve takes one course

What a turn does is settled by the solve that takes it. So the solves that a start leads to stand in
one row, with one for each number of visits, and the run of a solve is the turn that ends the row.
A problem has a run only where the row ends. `Problem.Posed.solve?_eq_some_iff` says how many turns
that takes: one more than the visits before the last turn. More turns change nothing.

With this, a fact about a run can be proved of the row of solves, one turn at a time, and two runs
can be compared by going through their rows side by side.
-/

set_option autoImplicit false

namespace ReachingWrites

variable {ι α τ : Type} [FlowLattice α] [DecidableEq α]
variable {p : Problem ι α τ} {options : SolveOptions} {signal : Option (Signal α)} {memory : τ}

namespace State

/-! ## One turn -/

/-- A solve takes no other turn than its step. -/
theorem Takes.step_eq {s : State α τ} {turn : Turn α τ} (h : s.Takes p options signal turn) :
    s.step p options signal = turn := by
  cases h with
  | settled empty => exact step_of_empty empty
  | cancelled next watched stops =>
    subst watched
    exact step_of_stops next stops
  | kept next goesOn same => rw [step_of_goesOn next goesOn, if_pos same]
  | @refused node _ next goesOn checked changed notAbove =>
    have hbad : (options.checkMonotone &&
        !FlowLattice.leq (s.leaving p node) (s.answer p node).1) = true := by
      rw [checked, notAbove]
      rfl
    rw [step_of_goesOn next goesOn, if_neg changed, if_pos hbad]
  | @grown node _ next goesOn changed above =>
    have hgood : ¬(options.checkMonotone &&
        !FlowLattice.leq (s.leaving p node) (s.answer p node).1) = true := by
      rw [Bool.and_eq_true, Bool.not_eq_true']
      intro hbad
      rw [above hbad.1] at hbad
      cases hbad.2
    rw [step_of_goesOn next goesOn, if_neg changed, if_neg hgood]

/-- A turn leads to one solve or one run. -/
theorem Takes.unique {s : State α τ} {turn turn' : Turn α τ} (h : s.Takes p options signal turn)
    (h' : s.Takes p options signal turn') : turn = turn' :=
  h.step_eq.symm.trans h'.step_eq

/-! ## The row of solves -/

omit [FlowLattice α] [DecidableEq α] in
/-- A solve starts without visits. -/
@[simp] theorem visits_start (p : Problem ι α τ) (order : VisitOrder) (memory : τ) :
    (start p order memory).summary.visits = 0 := rfl

/-- There is one solve for each number of visits. -/
theorem Reached.eq_of_visits {s s' : State α τ} (h : Reached p options signal memory s)
    (h' : Reached p options signal memory s') (hvisits : s.summary.visits = s'.summary.visits) :
    s = s' := by
  induction h generalizing s' with
  | start =>
    cases h' with
    | start => rfl
    | next _ turn =>
      rw [visits_start, turn.visits_next] at hvisits
      cases hvisits
  | next _ turn ih =>
    rw [turn.visits_next] at hvisits
    cases h' with
    | start => cases hvisits
    | next before' turn' =>
      rw [turn'.visits_next] at hvisits
      obtain rfl := ih before' (Nat.succ.inj hvisits)
      exact Turn.next.inj (turn.unique turn')

/-- What holds of a solve and of all that follow it holds of all with as many visits. -/
theorem Reached.of_visits_le {motive : State α τ → Prop} {s : State α τ}
    (h : Reached p options signal memory s) (here : motive s)
    (onward : ∀ ⦃t t' : State α τ⦄, Reached p options signal memory t →
      t.Takes p options signal (.next t') → motive t → motive t')
    {s' : State α τ} (h' : Reached p options signal memory s')
    (hle : s.summary.visits ≤ s'.summary.visits) : motive s' := by
  induction h' with
  | start =>
    obtain rfl := h.eq_of_visits .start (Nat.le_zero.mp hle)
    exact here
  | @next t t' before turn ih =>
    have hone := turn.visits_next
    rcases Nat.lt_or_ge t.summary.visits s.summary.visits with hlt | hle
    · obtain rfl := h.eq_of_visits (.next before turn) (by omega)
      exact here
    · exact onward before turn (ih hle)

/-- There is one solve with no node left to visit. -/
theorem Reached.eq_of_empty {s s' : State α τ} (h : Reached p options signal memory s)
    (empty : s.worklist.pending = []) (h' : Reached p options signal memory s')
    (empty' : s'.worklist.pending = []) : s = s' := by
  have hstays : ∀ {t t' : State α τ}, Reached p options signal memory t →
      t.worklist.pending = [] → Reached p options signal memory t' →
      t.summary.visits ≤ t'.summary.visits → t = t' := by
    intro t t' reached hempty reached' hle
    refine reached.of_visits_le rfl ?_ reached' hle
    rintro _ _ - turn rfl
    cases (Takes.settled hempty).unique turn
  rcases Nat.le_total s.summary.visits s'.summary.visits with hle | hle
  · exact hstays h empty h' hle
  · exact (hstays h' empty' h hle).symm

/-! ## The turns of a run -/

/-- Going on from a solve that the start leads to is going on from the start, with a turn more for
each visit. -/
theorem Reached.run?_eq {s : State α τ} (h : Reached p options signal memory s) (turns : Nat) :
    run? p options signal (s.summary.visits + turns) (.start p options.order memory) =
      run? p options signal turns s := by
  induction h generalizing turns with
  | start => rw [visits_start, Nat.zero_add]
  | @next s s' _ turn ih =>
    calc run? p options signal (s'.summary.visits + turns) (.start p options.order memory)
        = run? p options signal (s.summary.visits + (turns + 1))
            (.start p options.order memory) := by
          rw [turn.visits_next, Nat.add_assoc, Nat.add_comm 1]
      _ = run? p options signal (turns + 1) s := ih (turns + 1)
      _ = run? p options signal turns s' := by rw [run?, turn.step_eq]

/-- Where another way to solve steps alike on all solves that a start leads to, it makes the same
runs. -/
theorem Reached.run?_congr {options' : SolveOptions} {signal' : Option (Signal α)}
    (alike : ∀ ⦃t : State α τ⦄, Reached p options signal memory t →
      t.step p options' signal' = t.step p options signal) {s : State α τ}
    (h : Reached p options signal memory s) (turns : Nat) :
    run? p options' signal' turns s = run? p options signal turns s := by
  induction turns generalizing s with
  | zero => rfl
  | succ turns ih =>
    rw [run?, run?, alike h]
    have turn : s.Takes p options signal (s.step p options signal) := step_takes s
    cases hstep : s.step p options signal with
    | done run => rfl
    | next s' =>
      rw [hstep] at turn
      exact ih (h.next turn)

end State

namespace Problem

variable {run : Run α τ} {turns : Nat}

/-- Predecessor lists that do not match the graph are refused before anything is done. -/
theorem solve?_of_differ (differ : p.predecessors.size ≠ p.graph.nodeCount) :
    p.solve? options signal memory turns =
      some ⟨.error (.predecessorMismatch p.graph.nodeCount p.predecessors.size), {}, memory⟩ := by
  rw [solve?, if_pos differ]

/-- A graph without nodes is solved at once by empty tables. -/
theorem solve?_of_none (agree : p.predecessors.size = p.graph.nodeCount)
    (none : p.graph.nodeCount = 0) :
    p.solve? options signal memory turns = some ⟨.ok ⟨#[], #[], {}⟩, {}, memory⟩ := by
  rw [solve?, if_neg (not_not_intro agree), if_pos none]

omit [FlowLattice α] [DecidableEq α] in
/-- There are nodes to visit, and predecessor lists for all of them. -/
structure Posed (p : Problem ι α τ) : Prop where
  /-- There are as many predecessor lists as nodes. -/
  agree : p.predecessors.size = p.graph.nodeCount
  /-- There is a node. -/
  nonempty : p.graph.nodeCount ≠ 0

/-- Where there is nothing to visit, neither the options nor the signal nor the turns matter. -/
theorem solve?_of_not_posed (h : ¬p.Posed) (options' : SolveOptions) (signal' : Option (Signal α))
    (turns' : Nat) :
    p.solve? options signal memory turns = p.solve? options' signal' memory turns' := by
  by_cases agree : p.predecessors.size = p.graph.nodeCount
  · by_cases none : p.graph.nodeCount = 0
    · rw [solve?_of_none agree none, solve?_of_none agree none]
    · exact absurd ⟨agree, none⟩ h
  · rw [solve?_of_differ agree, solve?_of_differ agree]

/-- Where there is nothing to visit, the run leaves nothing behind. -/
theorem exists_solve?_of_not_posed (h : ¬p.Posed) :
    ∃ run, p.solve? options signal memory turns = some run ∧ run.journal = {} := by
  by_cases agree : p.predecessors.size = p.graph.nodeCount
  · by_cases none : p.graph.nodeCount = 0
    · exact ⟨_, solve?_of_none agree none, rfl⟩
    · exact absurd ⟨agree, none⟩ h
  · exact ⟨_, solve?_of_differ agree, rfl⟩

section Posed

variable (posed : p.Posed)
include posed

/-- A problem that is well posed is solved by turns from the start. -/
theorem Posed.solve?_eq_run? : p.solve? options signal memory turns =
    State.run? p options signal turns (.start p options.order memory) := by
  rw [solve?, if_neg (not_not_intro posed.agree), if_neg posed.nonempty]

/-- A run is the turn that ends a solve, and it takes a turn more than there were visits before. -/
theorem Posed.solve?_eq_some_iff : p.solve? options signal memory turns = some run ↔
    ∃ s, State.Reached p options signal memory s ∧ s.Takes p options signal (.done run) ∧
      s.summary.visits < turns := by
  rw [posed.solve?_eq_run?]
  constructor
  · intro hr
    obtain ⟨s, reached, turn, hvisits⟩ := State.Reached.start.of_run? hr
    rw [State.visits_start, Nat.zero_add] at hvisits
    exact ⟨s, reached, turn, hvisits⟩
  · intro h
    obtain ⟨s, reached, turn, hvisits⟩ := h
    obtain ⟨spare, rfl⟩ : ∃ spare, turns = s.summary.visits + (spare + 1) :=
      ⟨turns - s.summary.visits - 1, by omega⟩
    rw [reached.run?_eq, State.run?, turn.step_eq]

end Posed

/-- More turns change nothing. -/
theorem solve?_mono (hr : p.solve? options signal memory turns = some run) {more : Nat}
    (hle : turns ≤ more) : p.solve? options signal memory more = some run := by
  by_cases posed : p.Posed
  · rw [posed.solve?_eq_some_iff] at hr ⊢
    obtain ⟨s, reached, turn, hvisits⟩ := hr
    exact ⟨s, reached, turn, hvisits.trans_le hle⟩
  · rw [solve?_of_not_posed posed options signal turns]
    exact hr

/-- Two numbers of turns that suffice give one run. -/
theorem solve?_unique (hr : p.solve? options signal memory turns = some run) {turns' : Nat}
    {run' : Run α τ} (hr' : p.solve? options signal memory turns' = some run') : run = run' := by
  have hmore := solve?_mono hr (Nat.le_max_left turns turns')
  have hmore' := solve?_mono hr' (Nat.le_max_right turns turns')
  exact Option.some.inj (hmore.symm.trans hmore')

end Problem

end ReachingWrites
