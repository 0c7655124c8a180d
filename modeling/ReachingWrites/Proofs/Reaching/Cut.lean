import ReachingWrites.Proofs.FlowGraph.Cut
import ReachingWrites.Proofs.Reaching.Positions
import ReachingWrites.Proofs.Reaching.Preparation

/-!
# Straight-line code in one block or in two

The sets that are reported do not depend on how straight-line code is cut into blocks. When a node is
cut in two, its entry stays where it is and its exit moves to the new node; the new node's entry is a
place between two instructions that had no set before. At all entries and exits of the graph, the same
positions are found after the cut as before it.

The writes of the later instructions are writes of the new node now, so they are numbered last, and
those of the earlier ones have fewer instructions after them. `CutWrite` says for each write what has
become of it. Going along the paths of the one graph, one never leaves what the other graph can follow.
-/

set_option autoImplicit false

namespace ReachingWrites

variable {ι ρ F : Type}

namespace FlowGraph

/-- What becomes of a write, and of the instructions after it, when a node is cut. -/
inductive CutWrite (g : FlowGraph ι) (b : NodeId) (k : Nat) (w : StaticWrite F) :
    List ι → StaticWrite F → List ι → Prop where
  /-- A write of another node stays as it is. -/
  | other {after : List ι} (lt : w.node < g.nodeCount) (ne : w.node ≠ b) :
      CutWrite g b k w after w after
  /-- A write before the cut no longer has the instructions behind it after it. -/
  | first {after : List ι} (node : w.node = b) :
      CutWrite g b k w (after ++ (g.instructions b).drop k) w after
  /-- A write behind the cut is one of the new node. -/
  | second {after : List ι} (node : w.node = b) :
      CutWrite g b k w after { w with node := g.nodeCount } after

section Cut

variable {g : FlowGraph ι} {b : NodeId} {k : Nat}

section Write

variable {w w' : StaticWrite F} {after after' : List ι} (h : g.CutWrite b k w after w' after')
include h

private theorem CutWrite.field_eq : w'.field = w.field := by
  cases h <;> rfl

private theorem CutWrite.position_eq : w'.position = w.position := by
  cases h <;> rfl

end Write

variable [Instruction ι ρ] {resolve : ρ → Option F}

private theorem clear_cut_of_ne {field : F} {n : NodeId} (hn : n < g.nodeCount) (hne : n ≠ b) :
    (g.cut b k).Clear resolve field n ↔ g.Clear resolve field n := by
  rw [Clear, Clear, instructions_cut_of_ne hn hne]

private theorem clear_cut_last {field : F} : (g.cut b k).Clear resolve field g.nodeCount ↔
    ∀ x ∈ (g.instructions b).drop k, ¬ Instruction.Writes resolve field x := by
  rw [Clear, instructions_cut_last]

/-- A node writes a field if one of its halves does. -/
theorem clear_cut_iff {field : F} (hb : b < g.nodeCount) : g.Clear resolve field b ↔
    (g.cut b k).Clear resolve field b ∧ (g.cut b k).Clear resolve field g.nodeCount := by
  rw [Clear, Clear, Clear, instructions_cut_self hb, instructions_cut_last, ← List.forall_mem_append,
    List.take_append_drop]

/-! ## The writes -/

/-- A write behind the cut stands in the new node. -/
theorem standsBefore_cut_last {w : StaticWrite F} (before : List ι) {after : List ι} {x : ι}
    (hdrop : (g.instructions b).drop k = before ++ x :: after)
    (hx : Instruction.position x = w.position ∧ Instruction.Writes resolve w.field x) :
    (g.cut b k).StandsBefore resolve { w with node := g.nodeCount } after := by
  refine ⟨before, x, ?_, hx⟩
  rw [instructions_cut_last, hdrop]

/-- Every write is found after a cut. -/
theorem StandsBefore.exists_cut (hb : b < g.nodeCount) {w : StaticWrite F} {after : List ι}
    (h : g.StandsBefore resolve w after) :
    ∃ w' after', g.CutWrite b k w after w' after' ∧ (g.cut b k).StandsBefore resolve w' after' := by
  obtain ⟨before, x, hsplit, hx⟩ := h
  by_cases hnode : w.node = b
  · have hhalves := hsplit
    rw [hnode, ← List.take_append_drop k (g.instructions b), List.append_eq_append_iff] at hhalves
    rcases hhalves with ⟨skipped, -, hdrop⟩ | ⟨kept, htake, hrest⟩
    · exact ⟨_, after, .second hnode, standsBefore_cut_last skipped hdrop hx⟩
    · cases kept with
      | nil => exact ⟨_, after, .second hnode, standsBefore_cut_last [] hrest.symm hx⟩
      | cons y kept =>
        obtain ⟨rfl, rfl⟩ := List.cons.inj hrest
        refine ⟨w, kept, .first hnode, before, x, ?_, hx⟩
        rw [hnode, instructions_cut_self hb, htake]
  · have hlt : w.node < g.nodeCount := lt_nodeCount_of_mem_instructions
      (hsplit ▸ List.mem_append_right _ List.mem_cons_self)
    refine ⟨w, after, .other hlt hnode, before, x, ?_, hx⟩
    rw [instructions_cut_of_ne hlt hnode, hsplit]

/-- Every write that is found after a cut was there before. -/
theorem StandsBefore.exists_of_cut (hb : b < g.nodeCount) {w' : StaticWrite F} {after' : List ι}
    (h : (g.cut b k).StandsBefore resolve w' after') :
    ∃ w after, g.CutWrite b k w after w' after' ∧ g.StandsBefore resolve w after := by
  obtain ⟨before, x, hsplit, hx⟩ := h
  have hlt : w'.node < g.nodeCount + 1 := by
    rw [← nodeCount_cut g b k]
    exact lt_nodeCount_of_mem_instructions (hsplit ▸ List.mem_append_right _ List.mem_cons_self)
  obtain ⟨node, position, field⟩ := w'
  by_cases hlast : node = g.nodeCount
  · subst hlast
    rw [instructions_cut_last] at hsplit
    refine ⟨⟨b, position, field⟩, after', .second rfl, (g.instructions b).take k ++ before, x, ?_, hx⟩
    rw [List.append_assoc, ← hsplit, List.take_append_drop]
  · by_cases hnode : node = b
    · subst hnode
      rw [instructions_cut_self hb] at hsplit
      refine ⟨⟨node, position, field⟩, _, .first rfl, before, x, ?_, hx⟩
      rw [← List.cons_append, ← List.append_assoc, ← hsplit, List.take_append_drop]
    · have hold : node < g.nodeCount := Nat.lt_of_le_of_ne (Nat.le_of_lt_succ hlt) hlast
      rw [instructions_cut_of_ne hold hnode] at hsplit
      exact ⟨_, after', .other hold hnode, before, x, hsplit, hx⟩

/-- A write has come to the cut in its node: it stands before it and is not overwritten up to there, or
it enters the node and is not overwritten up to there. -/
def ReachesCut (g : FlowGraph ι) (resolve : ρ → Option F) (b : NodeId) (k : Nat)
    (w : StaticWrite F) (after : List ι) (w' : StaticWrite F) (after' : List ι) : Prop :=
  (w'.node = b ∧ ∀ x ∈ after', ¬ Instruction.Writes resolve w'.field x) ∨
    (g.ReachesEntry resolve w after b ∧ (g.cut b k).Clear resolve w'.field b)

/-! ## From the graph to the cut graph -/

section Reaching

variable {w w' : StaticWrite F} {after after' : List ι} (h : g.CutWrite b k w after w' after')
  (hb : b < g.nodeCount)
include h hb

/-- A write that is not overwritten in its own node leaves it. -/
theorem CutWrite.leaves (hafter : ∀ x ∈ after, ¬ Instruction.Writes resolve w.field x) :
    (g.cut b k).ReachesExit resolve w' after' (g.cutExit b w.node) := by
  cases h with
  | other _ ne => exact .inl ⟨cutExit_of_ne ne, hafter⟩
  | @first after node =>
    rw [List.forall_mem_append] at hafter
    have hnext : g.nodeCount ∈ (g.cut b k).successors w.node := by
      rw [node, successors_cut_self hb]
      exact List.mem_singleton.mpr rfl
    rw [node, cutExit_self]
    exact .inr ⟨⟨hafter.1, [], .edge hnext, by simp⟩, clear_cut_last.mpr hafter.2⟩
  | second node =>
    rw [node, cutExit_self]
    exact .inl ⟨rfl, hafter⟩

/-- A write that enters a node leaves it if the node does not write its field. -/
theorem CutWrite.passes {n : NodeId} (hn : n < g.nodeCount)
    (henters : (g.cut b k).ReachesEntry resolve w' after' n) (hclear : g.Clear resolve w.field n) :
    (g.cut b k).ReachesExit resolve w' after' (g.cutExit b n) := by
  rw [← h.field_eq] at hclear
  by_cases hnb : n = b
  · subst hnb
    obtain ⟨hfirst, hsecond⟩ := (clear_cut_iff (k := k) hb).mp hclear
    have hnext : g.nodeCount ∈ (g.cut n k).successors n := by
      rw [successors_cut_self hb]
      exact List.mem_singleton.mpr rfl
    have hmiddle : (g.cut n k).ReachesExit resolve w' after' n := .inr ⟨henters, hfirst⟩
    rw [cutExit_self]
    exact .inr ⟨hmiddle.reachesEntry hnext, hsecond⟩
  · rw [cutExit_of_ne hnb]
    exact .inr ⟨henters, (clear_cut_of_ne hn hnb).mpr hclear⟩

private theorem CutWrite.reachesEntry {n : NodeId} (hreaches : g.ReachesEntry resolve w after n) :
    (g.cut b k).ReachesEntry resolve w' after' n := by
  obtain ⟨hafter, hpath⟩ := hreaches
  have hnext {m n : NodeId} (hn : n ∈ g.successors m) :
      n ∈ (g.cut b k).successors (g.cutExit b m) := by
    rwa [successors_cutExit (lt_nodeCount_of_mem_successors hn)]
  refine hpath.induction (P := (g.cut b k).ReachesEntry resolve w' after') ?_ ?_
  · intro n hn
    exact (h.leaves hb hafter).reachesEntry (hnext hn)
  · intro m henters hclear n hn
    have hm := lt_nodeCount_of_mem_successors hn
    exact (h.passes hb hm henters hclear).reachesEntry (hnext hn)

private theorem CutWrite.reachesExit {n : NodeId} (hn : n < g.nodeCount)
    (hreaches : g.ReachesExit resolve w after n) :
    (g.cut b k).ReachesExit resolve w' after' (g.cutExit b n) := by
  rcases hreaches with ⟨rfl, hafter⟩ | ⟨henters, hclear⟩
  · exact h.leaves hb hafter
  · exact h.passes hb hn (h.reachesEntry hb henters) hclear

/-! ## From the cut graph to the graph -/

/-- A write that has come to the cut leaves the node if it is not overwritten behind it. -/
theorem CutWrite.leaves_of_reachesCut (hcut : g.ReachesCut resolve b k w after w' after')
    (hclear : (g.cut b k).Clear resolve w'.field g.nodeCount) : g.ReachesExit resolve w after b := by
  rcases hcut with ⟨hnode, hafter⟩ | ⟨henters, hfirst⟩
  · cases h with
    | other _ ne => exact absurd hnode ne
    | first node => exact .inl ⟨node.symm, List.forall_mem_append.mpr ⟨hafter, clear_cut_last.mp hclear⟩⟩
    | second => exact absurd hnode (Nat.ne_of_gt hb)
  · refine .inr ⟨henters, ?_⟩
    rw [← h.field_eq]
    exact (clear_cut_iff hb).mpr ⟨hfirst, hclear⟩

/-- What enters an old node of the cut graph enters it in the graph, and what enters the new node has
come to the cut. -/
theorem CutWrite.of_reachesEntry (hinside : ∀ m, ∀ n ∈ g.successors m, n < g.nodeCount) {n : NodeId}
    (hreaches : (g.cut b k).ReachesEntry resolve w' after' n) :
    (n < g.nodeCount ∧ g.ReachesEntry resolve w after n) ∨
      (n = g.nodeCount ∧ g.ReachesCut resolve b k w after w' after') := by
  obtain ⟨hafter, hpath⟩ := hreaches
  refine hpath.induction (P := fun n => (n < g.nodeCount ∧ g.ReachesEntry resolve w after n) ∨
    (n = g.nodeCount ∧ g.ReachesCut resolve b k w after w' after')) ?_ ?_
  · intro n hn
    cases h with
    | other lt ne =>
      rw [successors_cut_of_ne lt ne] at hn
      exact .inl ⟨hinside _ n hn, hafter, [], .edge hn, by simp⟩
    | first node =>
      rw [node, successors_cut_self hb, List.mem_singleton] at hn
      exact .inr ⟨hn, .inl ⟨node, hafter⟩⟩
    | second node =>
      rw [successors_cut_last, ← node] at hn
      exact .inl ⟨hinside _ n hn, hafter, [], .edge hn, by simp⟩
  · intro m hm hclear n hn
    rcases hm with ⟨hlt, henters⟩ | ⟨rfl, hcut⟩
    · by_cases hmb : m = b
      · subst hmb
        rw [successors_cut_self hb, List.mem_singleton] at hn
        exact .inr ⟨hn, .inr ⟨henters, hclear⟩⟩
      · rw [successors_cut_of_ne hlt hmb] at hn
        rw [clear_cut_of_ne hlt hmb, h.field_eq] at hclear
        have hleaves : g.ReachesExit resolve w after m := .inr ⟨henters, hclear⟩
        exact .inl ⟨hinside m n hn, hleaves.reachesEntry hn⟩
    · rw [successors_cut_last] at hn
      exact .inl ⟨hinside b n hn, (h.leaves_of_reachesCut hb hcut hclear).reachesEntry hn⟩

/-- A write reaches the entry of a node exactly if, after the cut, what has become of it does. -/
theorem CutWrite.reachesEntry_iff (hinside : ∀ m, ∀ n ∈ g.successors m, n < g.nodeCount)
    {n : NodeId} (hn : n < g.nodeCount) :
    (g.cut b k).ReachesEntry resolve w' after' n ↔ g.ReachesEntry resolve w after n := by
  constructor
  · intro hreaches
    rcases h.of_reachesEntry hb hinside hreaches with ⟨-, henters⟩ | ⟨hlast, -⟩
    · exact henters
    · exact absurd hlast (Nat.ne_of_lt hn)
  · exact h.reachesEntry hb

/-- A write reaches the exit of a node exactly if, after the cut, what has become of it reaches where
the node is left. -/
theorem CutWrite.reachesExit_iff (hinside : ∀ m, ∀ n ∈ g.successors m, n < g.nodeCount)
    {n : NodeId} (hn : n < g.nodeCount) :
    (g.cut b k).ReachesExit resolve w' after' (g.cutExit b n) ↔ g.ReachesExit resolve w after n := by
  constructor
  · intro hreaches
    by_cases hnb : n = b
    · subst hnb
      rw [cutExit_self] at hreaches
      rcases hreaches with ⟨hnode, hafter⟩ | ⟨henters, hclear⟩
      · cases h with
        | other lt => exact absurd hnode (Nat.ne_of_gt lt)
        | first node => exact absurd (hnode.trans node) (Nat.ne_of_gt hb)
        | second node => exact .inl ⟨node.symm, hafter⟩
      · rcases h.of_reachesEntry hb hinside henters with ⟨hlt, -⟩ | ⟨-, hcut⟩
        · exact absurd hlt (Nat.lt_irrefl _)
        · exact h.leaves_of_reachesCut hb hcut hclear
    · rw [cutExit_of_ne hnb] at hreaches
      rcases hreaches with ⟨hnode, hafter⟩ | ⟨henters, hclear⟩
      · cases h with
        | other => exact .inl ⟨hnode, hafter⟩
        | first node => exact absurd (hnode.trans node) hnb
        | second => exact absurd hnode (Nat.ne_of_lt hn)
      · rw [clear_cut_of_ne hn hnb, h.field_eq] at hclear
        exact .inr ⟨(h.reachesEntry_iff hb hinside hn).mp henters, hclear⟩
  · exact h.reachesExit hb hn

end Reaching

end Cut

end FlowGraph

/-! ## The sets after a cut -/

section Sets

variable [Instruction ι ρ] [DecidableEq F] {g : FlowGraph ι} {resolve : ρ → Option F}

/-- The analysis of a graph can be made ready after a cut if it can before. -/
theorem Analysis.exists_prepare_cut [Describe ρ] {a : Analysis ι F} (h : prepare resolve g = .ok a)
    {b : NodeId} (hb : b < g.nodeCount) (k : Nat) :
    ∃ a', prepare resolve (g.cut b k) = .ok a' := by
  obtain ⟨-, hnumberable⟩ := exists_prepare_iff.mp ⟨a, h⟩
  refine exists_prepare_iff.mpr ⟨?_, hnumberable.of_perm (FlowGraph.allInstructions_cut_perm hb)⟩
  intro (source, target) hmem
  have hinside : ∀ m, ∀ n ∈ g.successors m, n < g.nodeCount := fun _ _ =>
    (prepared_of_prepare h).lt_of_mem_successors
  rw [FlowGraph.nodeCount_cut]
  exact FlowGraph.lt_of_mem_successors_cut hb hinside (FlowGraph.mem_edges.mp hmem)

/-- Sets that collect the same writes before and after a cut have the same positions. -/
theorem FactSet.Collects.mem_positions_cut {s s' : FactSet F} {b : NodeId} {k : Nat}
    {P P' : StaticWrite F → List ι → Prop} (h : s.Collects resolve g P)
    (h' : s'.Collects resolve (g.cut b k) P') (hb : b < g.nodeCount)
    (hsame : ∀ {w after w' after'}, g.CutWrite b k w after w' after' → (P' w' after' ↔ P w after))
    (p : Position) : p ∈ s'.positions ↔ p ∈ s.positions :=
  h.mem_positions_iff h' (fun hstands => hstands.exists_cut hb) (fun hstands => hstands.exists_of_cut hb)
    (fun hcut => ⟨hcut.position_eq, hsame hcut⟩) p

/-- A graph that has sets has them too when a node is cut in two, unless the signal asks to stop. The
same positions enter every node, and the same positions leave it; those that left the node that is cut
leave the new one. -/
theorem analyze?_cut [Describe ρ] {signal : Option (Signal BitSet)} {report : Report F}
    (h : analyze? resolve g signal = some report) {r : ReachingSets F} (hok : report.outcome = .ok r)
    {b : NodeId} (hb : b < g.nodeCount) (k : Nat) {signal' : Option (Signal BitSet)}
    (hnever : ∀ stop ∈ signal', ∀ journal, stop journal = false) :
    ∃ report' r', analyze? resolve (g.cut b k) signal' = some report' ∧ report'.outcome = .ok r' ∧
      ∀ n < g.nodeCount, ∃ entry exit entry' exit',
        r.inFacts? n = some entry ∧ r.outFacts? n = some exit ∧
        r'.inFacts? n = some entry' ∧ r'.outFacts? (g.cutExit b n) = some exit' ∧
        (∀ p, p ∈ entry'.positions ↔ p ∈ entry.positions) ∧
        ∀ p, p ∈ exit'.positions ↔ p ∈ exit.positions := by
  obtain ⟨a, solved, ha, hsolved, hr⟩ := analyze?_eq_ok h hok
  obtain ⟨a', ha'⟩ := Analysis.exists_prepare_cut ha hb k
  obtain ⟨report', solved', r', hreport', hok', hsolved', hr'⟩ := exists_analyze? ha' hnever
  have hprepared := Analysis.prepared_of_prepare ha
  have hprepared' := Analysis.prepared_of_prepare ha'
  have hinside : ∀ m, ∀ n ∈ g.successors m, n < g.nodeCount := fun _ _ =>
    hprepared.lt_of_mem_successors
  refine ⟨report', r', hreport', hok', fun n hn => ?_⟩
  have hlt : n < (g.cut b k).nodeCount := by
    rw [FlowGraph.nodeCount_cut]
    exact Nat.lt_succ_of_lt hn
  have hexitLt : g.cutExit b n < (g.cut b k).nodeCount := by
    rw [FlowGraph.nodeCount_cut]
    exact FlowGraph.cutExit_lt hn
  obtain ⟨entry, exit, hentry, hexit, -, -, hin, hout⟩ := hprepared.exists_facts hsolved hr hn
  obtain ⟨entry', -, hentry', -, -, -, hin', -⟩ := hprepared'.exists_facts hsolved' hr' hlt
  obtain ⟨-, exit', -, hexit', -, -, -, hout'⟩ := hprepared'.exists_facts hsolved' hr' hexitLt
  exact ⟨entry, exit, entry', exit', hentry, hexit, hentry', hexit',
    hin.mem_positions_cut hin' hb fun hcut => hcut.reachesEntry_iff hb hinside hn,
    hout.mem_positions_cut hout' hb fun hcut => hcut.reachesExit_iff hb hinside hn⟩

end Sets

/-- A node that leads to itself, cut between its two writes: the new node leads to the old one, and what
leaves it is what left the old one. -/
theorem writingLoop_cut :
    (FlowGraph.writingLoop.cut 1 1).blocks.toList.map Block.successors = [[1], [2], [1, 1]] ∧
    ∃ report r exit, analyze? FieldRef.byName (FlowGraph.writingLoop.cut 1 1) none = some report ∧
      report.outcome = .ok r ∧ r.outFacts? 2 = some exit ∧
        ∀ p, p ∈ exit.positions ↔ p = ⟨1⟩ ∨ p = ⟨2⟩ := by
  have hrun : (((analyze? FieldRef.byName .writingLoop none).bind fun report =>
      report.outcome.toOption).bind fun r => (r.outFacts? 1).map FactSet.positions) =
        some [⟨1⟩, ⟨2⟩] := by
    decide +kernel
  obtain ⟨r, hr, hpositions⟩ := Option.bind_eq_some_iff.mp hrun
  obtain ⟨report, hreport, hok⟩ := Option.bind_eq_some_iff.mp hr
  obtain ⟨exit, hexit, hpositions⟩ := Option.map_eq_some_iff.mp hpositions
  have hnever : ∀ stop ∈ (none : Option (Signal BitSet)), ∀ journal, stop journal = false := nofun
  obtain ⟨report', r', hreport', hok', hsets⟩ :=
    analyze?_cut hreport (toOption_eq_some.mp hok) (b := 1) (by decide) 1 hnever
  obtain ⟨-, exit₁, -, exit', -, hexit₁, -, hexit', -, hsame⟩ := hsets 1 (by decide)
  obtain rfl := Option.some.inj (hexit.symm.trans hexit₁)
  refine ⟨rfl, report', r', exit', hreport', hok', hexit', fun p => ?_⟩
  rw [hsame, hpositions]
  simp

end ReachingWrites
