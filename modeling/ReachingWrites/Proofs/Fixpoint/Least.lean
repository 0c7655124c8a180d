import ReachingWrites.Proofs.Fixpoint.Equations

/-!
# The least solution

Where the values have the laws of a join semilattice and the transfers are monotone and do not go
below `bottom` at `bottom`, a run that ends with a solution ends with the least one. Nothing in that
depends on the order of the visits, so all runs agree that reach a solution of the same equations,
however they were watched, checked or stopped, and in whatever order the edges were listed. With more
edges the least solution can only rise, for it is closed under the equations of fewer edges.

Two invariants carry this. What leaves a node is always below what its transfer would make of what
enters the node now: values rise, and no check of their growth ever fails. And what leaves a node is
always below what any values leave there that are closed under the equations.
-/

set_option autoImplicit false

namespace ReachingWrites

variable {ι α τ : Type} [FlowLattice α]

open FlowLattice (leq LawfulOn Lawful)

namespace Problem

/-- Values that are closed under the equations of a problem: what enters a node is above `bottom` and
above what leaves its predecessors, and what leaves a node is above its transfer of what enters. -/
structure IsPreSolution (p : Problem ι α τ) (f : NodeId → α → α) (ins outs : NodeId → α) : Prop where
  /-- What enters a node is above `bottom`. -/
  bottom_le : ∀ node < p.graph.nodeCount, leq p.bottom (ins node) = true
  /-- What enters a node is above what leaves its predecessors. -/
  outs_le : ∀ node < p.graph.nodeCount, ∀ q ∈ p.predecessors.of node, leq (outs q) (ins node) = true
  /-- What leaves a node is above its transfer of what enters it. -/
  transfer_le : ∀ node < p.graph.nodeCount, leq (f node (ins node)) (outs node) = true

/-- On the values of the class `V`, which `bottom` belongs to and which no transfer leaves, the
transfers of the nodes are monotone, and none of them goes below `bottom` at `bottom`. -/
structure MonotoneOn (p : Problem ι α τ) (f : NodeId → α → α) (V : α → Prop) : Prop where
  /-- `bottom` is in the class. -/
  mem_bottom : V p.bottom
  /-- What a transfer makes of a value of the class is in the class. -/
  mem {node : NodeId} {a : α} : node < p.graph.nodeCount → V a → V (f node a)
  /-- A transfer keeps the order. -/
  mono {node : NodeId} {a b : α} : node < p.graph.nodeCount → V a → V b → leq a b = true →
    leq (f node a) (f node b) = true
  /-- A transfer of `bottom` is above `bottom`. -/
  bottom_le {node : NodeId} : node < p.graph.nodeCount → leq p.bottom (f node p.bottom) = true

/-- The transfers of the nodes are monotone, and none of them goes below `bottom` at `bottom`. -/
abbrev Monotone (p : Problem ι α τ) (f : NodeId → α → α) : Prop := p.MonotoneOn f fun _ => True

/-! ## What enters a node is a least upper bound -/

section Entering

variable {p : Problem ι α τ} {V : α → Prop} (hV : LawfulOn V) (hbottom : V p.bottom)
  {outs : NodeId → α} {node : NodeId} (houts : ∀ q ∈ p.predecessors.of node, V (outs q))
include hV hbottom houts

/-- What enters a node is a value of the class. -/
theorem mem_entering : V (p.entering outs node) :=
  hV.mem_joinAll hbottom (List.forall_mem_map.mpr houts)

private theorem bottom_le_entering : leq p.bottom (p.entering outs node) = true :=
  hV.le_joinAll hbottom (List.forall_mem_map.mpr houts)

private theorem le_entering {q : NodeId} (hq : q ∈ p.predecessors.of node) :
    leq (outs q) (p.entering outs node) = true :=
  hV.le_joinAll_of_mem hbottom (List.forall_mem_map.mpr houts) (List.mem_map_of_mem hq)

private theorem entering_le {a : α} (ha : V a) (hle : leq p.bottom a = true)
    (hles : ∀ q ∈ p.predecessors.of node, leq (outs q) a = true) :
    leq (p.entering outs node) a = true :=
  hV.joinAll_le hbottom (List.forall_mem_map.mpr houts) ha hle (List.forall_mem_map.mpr hles)

/-- What enters a node grows with what leaves its predecessors. -/
private theorem entering_mono {outs' : NodeId → α} (houts' : ∀ q ∈ p.predecessors.of node, V (outs' q))
    (hle : ∀ q ∈ p.predecessors.of node, leq (outs q) (outs' q) = true) :
    leq (p.entering outs node) (p.entering outs' node) = true := by
  have hmem := mem_entering hV hbottom houts'
  refine entering_le hV hbottom houts hmem (bottom_le_entering hV hbottom houts') fun q hq => ?_
  exact hV.trans (houts q hq) (houts' q hq) hmem (hle q hq) (le_entering hV hbottom houts' hq)

end Entering

end Problem

section Rising

variable {p : Problem ι α τ} {options : SolveOptions} {signal : Option (Signal α)} {memory : τ}
  {f : NodeId → α → α} {V : α → Prop} (hp : Predecessors.ofGraph p.graph = .ok p.predecessors)
  (hf : p.Answers f) (hV : LawfulOn V) (hmono : p.MonotoneOn f V)

namespace State

/-! ## Values rise -/

/-- What leaves the nodes is in the class `V`, and at each node below what the transfer makes of what
enters the node now. -/
structure Rising (s : State α τ) (p : Problem ι α τ) (f : NodeId → α → α) (V : α → Prop) : Prop where
  /-- What leaves a node is in the class. -/
  mem : ∀ node < p.graph.nodeCount, V (s.leaving p node)
  /-- What leaves a node is below what would leave it after a visit. -/
  le : ∀ node < p.graph.nodeCount,
    leq (s.leaving p node) (f node (p.entering (s.leaving p) node)) = true

include hp in
/-- What leaves the predecessors of a node are values of the class. -/
theorem Rising.mem_of {s : State α τ} (h : s.Rising p f V) {node : NodeId} :
    ∀ q ∈ p.predecessors.of node, V (s.leaving p q) :=
  fun q hq => h.mem q (Predecessors.lt_of_mem_of hp hq)

include hV hmono in
private theorem rising_start (order : VisitOrder) (memory : τ) :
    (start p order memory).Rising p f V where
  mem node _ := by
    rw [leaving_start]
    exact hmono.mem_bottom
  le node hlt := by
    have houts : ∀ q ∈ p.predecessors.of node, V ((start p order memory).leaving p q) :=
      fun q _ => by
        rw [leaving_start]
        exact hmono.mem_bottom
    have henters := Problem.mem_entering hV hmono.mem_bottom houts
    rw [leaving_start]
    exact hV.trans hmono.mem_bottom (hmono.mem hlt hmono.mem_bottom) (hmono.mem hlt henters)
      (hmono.bottom_le hlt)
      (hmono.mono hlt hmono.mem_bottom henters
        (Problem.bottom_le_entering hV hmono.mem_bottom houts))

include hp hf hV hmono in
/-- A change lets what leaves the node rise to what its transfer makes of what enters it, and then
nothing that enters a node becomes less. -/
private theorem Rising.grown {s : State α τ} (h : s.Rising p f V) (hs : s.Sized p) {node : NodeId}
    {rest : List NodeId} (next : s.worklist.pending = node :: rest) :
    (s.grown p signal node rest).Rising p f V := by
  have hentering : ∀ n, V (p.entering (s.leaving p) n) := fun n =>
    Problem.mem_entering hV hmono.mem_bottom (h.mem_of hp)
  have hnew : (s.grown p signal node rest).leaving p node =
      f node (p.entering (s.leaving p) node) := by
    rw [leaving_grown hs next, answer_eq hp hf hs node, Function.update_self]
  have hold : ∀ n, n ≠ node → (s.grown p signal node rest).leaving p n = s.leaving p n := by
    intro n hne
    rw [leaving_grown hs next, Function.update_of_ne hne]
  have hrises : ∀ n < p.graph.nodeCount, V ((s.grown p signal node rest).leaving p n) ∧
      leq (s.leaving p n) ((s.grown p signal node rest).leaving p n) = true := by
    intro n hlt
    by_cases hne : n = node
    · subst hne
      rw [hnew]
      exact ⟨hmono.mem hlt (hentering n), h.le n hlt⟩
    · rw [hold n hne]
      exact ⟨h.mem n hlt, hV.refl (h.mem n hlt)⟩
  refine ⟨fun n hlt => (hrises n hlt).1, fun n hlt => ?_⟩
  have hinto : ∀ q ∈ p.predecessors.of n, V ((s.grown p signal node rest).leaving p q) ∧
      leq (s.leaving p q) ((s.grown p signal node rest).leaving p q) = true :=
    fun q hq => hrises q (Predecessors.lt_of_mem_of hp hq)
  have hentering' := Problem.mem_entering hV hmono.mem_bottom fun q hq => (hinto q hq).1
  have hmore : leq (f n (p.entering (s.leaving p) n))
      (f n (p.entering ((s.grown p signal node rest).leaving p) n)) = true :=
    hmono.mono hlt (hentering n) hentering'
      (Problem.entering_mono hV hmono.mem_bottom (h.mem_of hp) (fun q hq => (hinto q hq).1)
        fun q hq => (hinto q hq).2)
  by_cases hne : n = node
  · subst hne
    rwa [hnew]
  · rw [hold n hne]
    exact hV.trans (h.mem n hlt) (hmono.mem hlt (hentering n)) (hmono.mem hlt hentering')
      (h.le n hlt) hmore

include hp hf hV hmono in
/-- Throughout a solve, values rise. -/
theorem Reached.rising {s : State α τ} (h : Reached p options signal memory s) :
    s.Rising p f V := by
  induction h with
  | start => exact rising_start hV hmono options.order memory
  | @next s _ before turn ih =>
    cases turn with
    | kept =>
      refine ⟨?_, ?_⟩
      · simpa only [leaving_arrived] using ih.mem
      · simpa only [leaving_arrived] using ih.le
    | grown next => exact ih.grown hp hf hV hmono before.sized next

include hp hf hV hmono in
/-- What a visit makes leave its node is above what has left it until then. -/
theorem Reached.leq_answer {s : State α τ} (h : Reached p options signal memory s) {node : NodeId}
    {rest : List NodeId} (next : s.worklist.pending = node :: rest) :
    leq (s.leaving p node) (s.answer p node).1 = true := by
  rw [answer_eq hp hf h.sized]
  exact (h.rising hp hf hV hmono).le node (h.sized.lt next)

/-! ## Values stay below those that are closed under the equations -/

include hp hf hV hmono in
private theorem Reached.leaving_le {s : State α τ} (h : Reached p options signal memory s)
    {ins outs : NodeId → α} (hin : ∀ node < p.graph.nodeCount, V (ins node))
    (hout : ∀ node < p.graph.nodeCount, V (outs node)) (hpre : p.IsPreSolution f ins outs) :
    ∀ node < p.graph.nodeCount, leq (s.leaving p node) (outs node) = true := by
  induction h with
  | start =>
    intro node hlt
    have hbottom := hmono.mem_bottom
    have hfirst := hmono.mono hlt hbottom (hin node hlt) (hpre.bottom_le node hlt)
    rw [leaving_start]
    exact hV.trans hbottom (hmono.mem hlt (hin node hlt)) (hout node hlt)
      (hV.trans hbottom (hmono.mem hlt hbottom) (hmono.mem hlt (hin node hlt))
        (hmono.bottom_le hlt) hfirst)
      (hpre.transfer_le node hlt)
  | @next s _ before turn ih =>
    cases turn with
    | kept => simpa only [leaving_arrived] using ih
    | @grown node rest next =>
      intro n hlt
      rw [leaving_grown before.sized next, answer_eq hp hf before.sized]
      by_cases hne : n = node
      · subst hne
        have hmem : ∀ q ∈ p.predecessors.of n, V (s.leaving p q) :=
          (before.rising hp hf hV hmono).mem_of hp
        have henters := Problem.mem_entering hV hmono.mem_bottom hmem
        have hle : leq (p.entering (s.leaving p) n) (ins n) = true :=
          Problem.entering_le hV hmono.mem_bottom hmem (hin n hlt) (hpre.bottom_le n hlt)
            fun q hq =>
              have hq' := Predecessors.lt_of_mem_of hp hq
              hV.trans (hmem q hq) (hout q hq') (hin n hlt) (ih q hq') (hpre.outs_le n hlt q hq)
        rw [Function.update_self]
        exact hV.trans (hmono.mem hlt henters) (hmono.mem hlt (hin n hlt)) (hout n hlt)
          (hmono.mono hlt henters (hin n hlt) hle) (hpre.transfer_le n hlt)
      · rw [Function.update_of_ne hne]
        exact ih n hlt

end State

/-! ## The least solution -/

namespace Problem

/-- A solution that is below all values of the class `V` that are closed under the equations. -/
structure IsLeast (p : Problem ι α τ) (f : NodeId → α → α) (V : α → Prop) (s : Solution α) :
    Prop where
  /-- It is a solution. -/
  solves : s.Solves p f
  /-- What it lets enter a node is in the class. -/
  mem_ins : ∀ node < p.graph.nodeCount, V (s.ins.getD node p.bottom)
  /-- What it lets leave a node is in the class. -/
  mem_outs : ∀ node < p.graph.nodeCount, V (s.outs.getD node p.bottom)
  /-- It is below all others. -/
  le : ∀ ins outs : NodeId → α, (∀ node < p.graph.nodeCount, V (ins node) ∧ V (outs node)) →
    p.IsPreSolution f ins outs → ∀ node < p.graph.nodeCount,
      leq (s.ins.getD node p.bottom) (ins node) = true ∧
        leq (s.outs.getD node p.bottom) (outs node) = true

variable {run : Run α τ}

include hp hf hV hmono in
/-- No run fails for values that do not grow. -/
theorem Ends.ne_nonMonotone (h : p.Ends options signal memory run) (node : NodeId) :
    run.outcome ≠ .error (.nonMonotone node) := by
  intro hfails
  rcases h.of_error hfails with ⟨-, hfailure⟩ | ⟨hfailure, -⟩ | ⟨s, m, rest, -, reached, next, hnot⟩
  · cases hfailure
  · cases hfailure
  · rw [reached.leq_answer hp hf hV hmono next] at hnot
    cases hnot

include hp hf hV hmono in
/-- A run that ends with a solution ends with the least one. -/
theorem Ends.isLeast (h : p.Ends options signal memory run) {solution : Solution α}
    (hok : run.outcome = .ok solution) : p.IsLeast f V solution := by
  rcases h.of_ok hok with ⟨none, rfl⟩ | ⟨s, reached, empty, rfl⟩
  · exact ⟨h.solves hp hf hok, by simp [none], by simp [none], by simp [none]⟩
  · have hsolves := h.solves hp hf hok
    have hrising := reached.rising hp hf hV hmono
    have henters : ∀ node < p.graph.nodeCount,
        s.ins.getD node p.bottom = p.entering (s.leaving p) node := hsolves.equations.enters
    refine ⟨hsolves, ?_, hrising.mem, ?_⟩
    · intro node hlt
      rw [henters node hlt]
      exact mem_entering hV hmono.mem_bottom (hrising.mem_of hp)
    · intro ins outs hmem hpre node hlt
      have hleaving := reached.leaving_le hp hf hV hmono (fun n hn => (hmem n hn).1)
        (fun n hn => (hmem n hn).2) hpre
      refine ⟨?_, hleaving node hlt⟩
      rw [henters node hlt]
      refine entering_le hV hmono.mem_bottom (hrising.mem_of hp) (hmem node hlt).1
        (hpre.bottom_le node hlt) fun q hq => ?_
      have hq' := Predecessors.lt_of_mem_of hp hq
      exact hV.trans (hrising.mem q hq') (hmem q hq').2 (hmem node hlt).1 (hleaving q hq')
        (hpre.outs_le node hlt q hq)

end Problem

end Rising

/-! ## One result for all runs -/

namespace Problem

section Alike

variable {ι' τ' : Type} {p : Problem ι α τ} {p' : Problem ι' α τ'} {f : NodeId → α → α} {V : α → Prop}

/-- Two problems start from the same value and have edges between the same nodes. The order in which
the edges are listed may differ, and how often. -/
structure Alike (p : Problem ι α τ) (p' : Problem ι' α τ') : Prop where
  /-- The value everything starts from is the same. -/
  bottom : p'.bottom = p.bottom
  /-- The nodes are the same. -/
  nodeCount : p'.graph.nodeCount = p.graph.nodeCount
  /-- The edges are the same. -/
  mem_successors : ∀ source target,
    target ∈ p'.graph.successors source ↔ target ∈ p.graph.successors source

/-- Two problems start from the same value and have the same nodes, and every edge of the first one is
an edge of the second. -/
structure Within (p : Problem ι α τ) (p' : Problem ι' α τ') : Prop where
  /-- The value everything starts from is the same. -/
  bottom : p'.bottom = p.bottom
  /-- The nodes are the same. -/
  nodeCount : p'.graph.nodeCount = p.graph.nodeCount
  /-- The second problem has all edges of the first one. -/
  mem_successors : ∀ source target,
    target ∈ p.graph.successors source → target ∈ p'.graph.successors source

omit [FlowLattice α] in
/-- Problems are alike both ways. -/
theorem Alike.symm (h : p.Alike p') : p'.Alike p :=
  ⟨h.bottom.symm, h.nodeCount.symm, fun source target => (h.mem_successors source target).symm⟩

omit [FlowLattice α] in
/-- Of two problems that are alike each is within the other. -/
theorem Alike.within (h : p.Alike p') : p.Within p' :=
  ⟨h.bottom, h.nodeCount, fun source target => (h.mem_successors source target).mpr⟩

omit [FlowLattice α] in
/-- Two problems of which each is within the other are alike. -/
theorem Within.alike (h : p.Within p') (h' : p'.Within p) : p.Alike p' :=
  ⟨h.bottom, h.nodeCount, fun source target =>
    ⟨h'.mem_successors source target, h.mem_successors source target⟩⟩

/-- Monotone transfers are so for every problem with the same nodes and the same start. -/
theorem MonotoneOn.of_within (hmono : p.MonotoneOn f V) (h : p.Within p') : p'.MonotoneOn f V where
  mem_bottom := by rw [h.bottom]; exact hmono.mem_bottom
  mem hlt := hmono.mem (h.nodeCount ▸ hlt)
  mono hlt := hmono.mono (h.nodeCount ▸ hlt)
  bottom_le hlt := by rw [h.bottom]; exact hmono.bottom_le (h.nodeCount ▸ hlt)

/-- Monotone transfers of a problem are monotone transfers of one that is alike. -/
theorem MonotoneOn.of_alike (hmono : p.MonotoneOn f V) (h : p.Alike p') : p'.MonotoneOn f V :=
  hmono.of_within h.within

variable (hp : Predecessors.ofGraph p.graph = .ok p.predecessors)
  (hp' : Predecessors.ofGraph p'.graph = .ok p'.predecessors)

include hp hp' in
/-- Values that are closed under the equations are closed under those of a problem with fewer edges, in
whatever order the edges are listed. -/
theorem IsPreSolution.of_within {ins outs : NodeId → α} (hpre : p'.IsPreSolution f ins outs)
    (h : p.Within p') : p.IsPreSolution f ins outs where
  bottom_le node hlt := by
    rw [← h.bottom]
    exact hpre.bottom_le node (h.nodeCount.symm ▸ hlt)
  outs_le node hlt q hq := by
    refine hpre.outs_le node (h.nodeCount.symm ▸ hlt) q ?_
    rw [Predecessors.mem_of_ofGraph hp']
    exact h.mem_successors q node ((Predecessors.mem_of_ofGraph hp).mp hq)
  transfer_le node hlt := hpre.transfer_le node (h.nodeCount.symm ▸ hlt)

include hp in
/-- The values of the least solution are closed under the equations. -/
theorem IsLeast.isPreSolution (hV : LawfulOn V) (hmono : p.MonotoneOn f V) {s : Solution α}
    (hs : p.IsLeast f V s) :
    p.IsPreSolution f (s.ins.getD · p.bottom) (s.outs.getD · p.bottom) := by
  have houts : ∀ node, ∀ q ∈ p.predecessors.of node, V (s.outs.getD q p.bottom) :=
    fun _ q hq => hs.mem_outs q (Predecessors.lt_of_mem_of hp hq)
  refine ⟨?_, ?_, ?_⟩
  · intro node hlt
    rw [hs.solves.equations.enters node hlt]
    exact bottom_le_entering hV hmono.mem_bottom (houts node)
  · intro node hlt q hq
    rw [hs.solves.equations.enters node hlt]
    exact le_entering hV hmono.mem_bottom (houts node) hq
  · intro node hlt
    rw [hs.solves.equations.leaves node hlt]
    exact hV.refl (hmono.mem hlt (hs.mem_ins node hlt))

include hp hp' in
/-- The least solution is below that of any problem with more edges. -/
theorem IsLeast.le_of_within (hV : LawfulOn V) (hmono : p.MonotoneOn f V) (h : p.Within p')
    {s s' : Solution α} (hs : p.IsLeast f V s) (hs' : p'.IsLeast f V s') {node : NodeId}
    (hlt : node < p.graph.nodeCount) :
    leq (s.ins.getD node p.bottom) (s'.ins.getD node p.bottom) = true ∧
      leq (s.outs.getD node p.bottom) (s'.outs.getD node p.bottom) = true := by
  have hpre : p.IsPreSolution f (s'.ins.getD · p.bottom) (s'.outs.getD · p.bottom) := by
    rw [← h.bottom]
    exact (hs'.isPreSolution hp' hV (hmono.of_within h)).of_within hp hp' h
  refine hs.le _ _ (fun n hn => ?_) hpre node hlt
  rw [← h.nodeCount] at hn
  rw [← h.bottom]
  exact ⟨hs'.mem_ins n hn, hs'.mem_outs n hn⟩

omit [FlowLattice α] in
private theorem eq_of_getD_eq {as bs : Array α} (bottom : α) (hsize : as.size = bs.size)
    (h : ∀ i < as.size, as.getD i bottom = bs.getD i bottom) : as = bs := by
  refine Array.ext hsize fun i ha hb => ?_
  have hi := h i ha
  rwa [Array.getD_eq_getD_getElem?, Array.getElem?_eq_getElem ha, Array.getD_eq_getD_getElem?,
    Array.getElem?_eq_getElem hb] at hi

include hp hp' in
/-- Problems with the same edges have the same least solution. -/
theorem IsLeast.eq_of_alike (hV : LawfulOn V) (hmono : p.MonotoneOn f V) (h : p.Alike p')
    {s s' : Solution α} (hs : p.IsLeast f V s) (hs' : p'.IsLeast f V s') :
    s'.ins = s.ins ∧ s'.outs = s.outs := by
  have hins : s'.ins.size = p.graph.nodeCount := hs'.solves.size_ins.trans h.nodeCount
  have houts : s'.outs.size = p.graph.nodeCount := hs'.solves.size_outs.trans h.nodeCount
  have hbelow {node : NodeId} (hlt : node < p.graph.nodeCount) :=
    hs.le_of_within hp hp' hV hmono h.within hs' hlt
  have habove {node : NodeId} (hlt : node < p.graph.nodeCount) :=
    hs'.le_of_within hp' hp hV (hmono.of_alike h) h.symm.within hs (h.nodeCount.symm ▸ hlt)
  have hmem {node : NodeId} (hlt : node < p.graph.nodeCount) :
      V (s'.ins.getD node p.bottom) ∧ V (s'.outs.getD node p.bottom) := by
    rw [← h.nodeCount] at hlt
    rw [← h.bottom]
    exact ⟨hs'.mem_ins node hlt, hs'.mem_outs node hlt⟩
  rw [h.bottom] at habove
  constructor
  · refine eq_of_getD_eq p.bottom (hins.trans hs.solves.size_ins.symm) fun node hi => ?_
    have hlt : node < p.graph.nodeCount := hins ▸ hi
    exact hV.antisymm (hmem hlt).1 (hs.mem_ins node hlt) (habove hlt).1 (hbelow hlt).1
  · refine eq_of_getD_eq p.bottom (houts.trans hs.solves.size_outs.symm) fun node hi => ?_
    have hlt : node < p.graph.nodeCount := houts ▸ hi
    exact hV.antisymm (hmem hlt).2 (hs.mem_outs node hlt) (habove hlt).2 (hbelow hlt).2

end Alike

section Solve

variable [DecidableEq α] {p : Problem ι α τ} {f : NodeId → α → α} {options : SolveOptions}
  {signal : Option (Signal α)} {memory : τ} {turns : Nat} {run : Run α τ}

/-- Over values with the laws of a join semilattice, a solve with monotone transfers never fails for
values that do not grow. If it ends with a solution, this is the least of all values that are closed
under the equations; and whoever solves the same equations, in whatever order, with or without the
check of growth, however watched, and however the edges are listed, ends with the same values. -/
theorem solve?_least (hlaws : Lawful α) (hp : Predecessors.ofGraph p.graph = .ok p.predecessors)
    (hf : p.Answers f) (hmono : p.Monotone f)
    (hr : p.solve? options signal memory turns = some run) :
    (∀ node, run.outcome ≠ .error (.nonMonotone node)) ∧
      ∀ solution, run.outcome = .ok solution →
        solution.Solves p f ∧
        (∀ ins outs : NodeId → α, p.IsPreSolution f ins outs → ∀ node < p.graph.nodeCount,
          leq (solution.ins.getD node p.bottom) (ins node) = true ∧
            leq (solution.outs.getD node p.bottom) (outs node) = true) ∧
        ∀ (ι' τ' : Type) (p' : Problem ι' α τ') (options' : SolveOptions)
          (signal' : Option (Signal α)) (memory' : τ') (turns' : Nat) (run' : Run α τ')
          (solution' : Solution α), p.Alike p' →
          Predecessors.ofGraph p'.graph = .ok p'.predecessors → p'.Answers f →
          p'.solve? options' signal' memory' turns' = some run' →
          run'.outcome = .ok solution' →
            solution'.ins = solution.ins ∧ solution'.outs = solution.outs := by
  have hends := solve?_ends hr
  refine ⟨hends.ne_nonMonotone hp hf hlaws hmono, ?_⟩
  intro solution hok
  have hleast := hends.isLeast hp hf hlaws hmono hok
  refine ⟨hleast.solves, fun ins outs => hleast.le ins outs fun _ _ => ⟨trivial, trivial⟩, ?_⟩
  intro ι' τ' p' options' signal' memory' turns' run' solution' halike hp' hf' hr' hok'
  have hleast' := (solve?_ends hr').isLeast hp' hf' hlaws (hmono.of_alike halike) hok'
  exact hleast.eq_of_alike hp hp' hlaws hmono halike hleast'

end Solve

/-- The first node adds two as long as it does not come above `7`; the others change nothing. -/
def climb (node : NodeId) (value : Nat) : Nat := if node = 0 then min (value + 2) 7 else value

/-- Two nodes in a loop that values climb, where the second node leads to those given. -/
def climbingLoop (successors : List NodeId) : Problem Instr Nat Unit :=
  .stateless ⟨#[⟨[], [1]⟩, ⟨[], successors⟩]⟩ ⟨#[[1], [0, 1]]⟩ 0 climb

/-- The transfers of the loop are monotone, whatever its edges are. -/
theorem monotone_climbingLoop (successors : List NodeId) :
    (climbingLoop successors).Monotone climb where
  mem_bottom := trivial
  mem _ _ := trivial
  mono {node a b} _ _ _ hle := by
    have hle : a ≤ b := of_decide_eq_true hle
    refine decide_eq_true ?_
    unfold climb
    split <;> omega
  bottom_le _ := decide_eq_true (Nat.zero_le _)

/-- Two solves whose edges are listed differently and whose visits are not even as many. -/
theorem climbingLoop_least : ∃ (run run' : Run Nat Unit) (solution solution' : Solution Nat),
    (climbingLoop [0, 1]).solve? ⟨.forward, true⟩ none () 11 = some run ∧
      run.outcome = .ok solution ∧ solution.summary = ⟨10, 8⟩ ∧
      (climbingLoop [1, 0, 1]).solve? ⟨.reverse, false⟩ none () 15 = some run' ∧
      run'.outcome = .ok solution' ∧ solution'.summary = ⟨14, 8⟩ ∧
      (∀ node, run.outcome ≠ .error (.nonMonotone node)) ∧
      solution.Solves (climbingLoop [0, 1]) climb ∧
      solution'.ins = solution.ins ∧ solution'.outs = solution.outs := by
  have hmap : ((climbingLoop [0, 1]).solve? ⟨.forward, true⟩ none () 11).map Run.outcome =
      some (.ok ⟨#[7, 7], #[7, 7], ⟨10, 8⟩⟩) := rfl
  have hmap' : ((climbingLoop [1, 0, 1]).solve? ⟨.reverse, false⟩ none () 15).map Run.outcome =
      some (.ok ⟨#[7, 7], #[7, 7], ⟨14, 8⟩⟩) := rfl
  obtain ⟨run, hr, hok⟩ := Option.map_eq_some_iff.mp hmap
  obtain ⟨run', hr', hok'⟩ := Option.map_eq_some_iff.mp hmap'
  have halike : (climbingLoop [0, 1]).Alike (climbingLoop [1, 0, 1]) :=
    ⟨rfl, rfl, fun source target => by
      match source with
      | 0 => exact Iff.rfl
      | 1 => simp [climbingLoop, stateless, FlowGraph.successors]; tauto
      | _ + 2 => exact Iff.rfl⟩
  obtain ⟨hgrows, hleast⟩ := solve?_least FlowLattice.lawful_nat (by decide +kernel)
    (fun _ _ _ => rfl) (monotone_climbingLoop [0, 1]) hr
  obtain ⟨hsolves, -, hsame⟩ := hleast _ hok
  exact ⟨run, run', _, _, hr, hok, rfl, hr', hok', rfl, hgrows, hsolves,
    hsame _ _ _ _ _ _ _ _ _ halike (by decide +kernel) (fun _ _ _ => rfl) hr' hok'⟩

end Problem

end ReachingWrites
