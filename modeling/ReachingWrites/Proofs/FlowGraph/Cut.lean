import ReachingWrites.Proofs.FlowGraph.Edges

/-!
# Cutting a block

Straight-line code may stand in one block or in several that lead from one to the next. `cut` moves
the later instructions of a node to a new node, which is the last of the graph: the old node leads
there and nowhere else, and the new one leads where the old one led. Edges to the old node stay, so a
node that led to itself is led to by the new one.
-/

set_option autoImplicit false

namespace ReachingWrites

namespace FlowGraph

variable {ι : Type}

/-- The graph with a node cut after its first `k` instructions. -/
def cut (g : FlowGraph ι) (b : NodeId) (k : Nat) : FlowGraph ι where
  blocks := (g.blocks.modify b fun block =>
      { instructions := block.instructions.take k, successors := [g.nodeCount] }).push
    { instructions := (g.instructions b).drop k, successors := g.successors b }

/-- The node where the instructions of a node end after a cut. -/
def cutExit (g : FlowGraph ι) (b n : NodeId) : NodeId := if n = b then g.nodeCount else n

section Cut

variable {g : FlowGraph ι} {b : NodeId} {k : Nat}

/-- A cut makes one more node. -/
@[simp] theorem nodeCount_cut (g : FlowGraph ι) (b : NodeId) (k : Nat) :
    (g.cut b k).nodeCount = g.nodeCount + 1 := by
  simp [cut, nodeCount]

private theorem getElem?_blocks_cut (n : NodeId) : (g.cut b k).blocks[n]? =
    if n = g.nodeCount then some ⟨(g.instructions b).drop k, g.successors b⟩
    else if b = n then g.blocks[n]?.map fun block => ⟨block.instructions.take k, [g.nodeCount]⟩
    else g.blocks[n]? := by
  rw [cut, Array.getElem?_push, Array.size_modify, Array.getElem?_modify]
  rfl

/-- The new node has the instructions behind the cut. -/
theorem instructions_cut_last (g : FlowGraph ι) (b : NodeId) (k : Nat) :
    (g.cut b k).instructions g.nodeCount = (g.instructions b).drop k := by
  rw [instructions, getElem?_blocks_cut, if_pos rfl]

/-- The new node has the successors of the node that is cut. -/
theorem successors_cut_last (g : FlowGraph ι) (b : NodeId) (k : Nat) :
    (g.cut b k).successors g.nodeCount = g.successors b := by
  rw [successors, getElem?_blocks_cut, if_pos rfl]

section Old

variable (hb : b < g.nodeCount)
include hb

/-- The node that is cut keeps the instructions before the cut. -/
theorem instructions_cut_self : (g.cut b k).instructions b = (g.instructions b).take k := by
  have hblock : g.blocks[b]? = some g.blocks[b] := Array.getElem?_eq_getElem hb
  simp only [instructions, getElem?_blocks_cut, if_neg (Nat.ne_of_lt hb), hblock, if_true,
    Option.map_some]

/-- The node that is cut has the new node as its one successor. -/
theorem successors_cut_self : (g.cut b k).successors b = [g.nodeCount] := by
  have hblock : g.blocks[b]? = some g.blocks[b] := Array.getElem?_eq_getElem hb
  simp only [successors, getElem?_blocks_cut, if_neg (Nat.ne_of_lt hb), hblock, if_true,
    Option.map_some]

end Old

section Other

variable {n : NodeId} (hn : n < g.nodeCount) (hne : n ≠ b)
include hn hne

/-- The instructions of other nodes stay as they are. -/
theorem instructions_cut_of_ne : (g.cut b k).instructions n = g.instructions n := by
  rw [instructions, getElem?_blocks_cut, if_neg (Nat.ne_of_lt hn), if_neg (Ne.symm hne)]
  rfl

/-- The successors of other nodes stay as they are. -/
theorem successors_cut_of_ne : (g.cut b k).successors n = g.successors n := by
  rw [successors, getElem?_blocks_cut, if_neg (Nat.ne_of_lt hn), if_neg (Ne.symm hne)]
  rfl

end Other

/-! ## Where the instructions of a node end -/

/-- The instructions of the node that is cut end at the new node. -/
theorem cutExit_self (g : FlowGraph ι) (b : NodeId) : g.cutExit b b = g.nodeCount := if_pos rfl

/-- The instructions of other nodes end where they did. -/
theorem cutExit_of_ne {n : NodeId} (hne : n ≠ b) : g.cutExit b n = n := if_neg hne

/-- Where the instructions of a node end is in the graph after the cut. -/
theorem cutExit_lt {n : NodeId} (hn : n < g.nodeCount) : g.cutExit b n < g.nodeCount + 1 := by
  unfold cutExit
  split
  · exact Nat.lt_succ_self _
  · exact Nat.lt_succ_of_lt hn

/-- After a cut, the old edges leave where the instructions end. -/
theorem successors_cutExit {n : NodeId} (hn : n < g.nodeCount) :
    (g.cut b k).successors (g.cutExit b n) = g.successors n := by
  by_cases hnb : n = b
  · rw [hnb, cutExit_self, successors_cut_last]
  · rw [cutExit_of_ne hnb, successors_cut_of_ne hn hnb]

/-! ## Edges and instructions -/

/-- Where no edge leaves the graph, none does after a cut. -/
theorem lt_of_mem_successors_cut (hb : b < g.nodeCount)
    (hinside : ∀ m, ∀ n ∈ g.successors m, n < g.nodeCount) {m n : NodeId}
    (hn : n ∈ (g.cut b k).successors m) : n < g.nodeCount + 1 := by
  have hm := lt_nodeCount_of_mem_successors hn
  rw [nodeCount_cut] at hm
  by_cases hlast : m = g.nodeCount
  · rw [hlast, successors_cut_last] at hn
    exact Nat.lt_succ_of_lt (hinside b n hn)
  · by_cases hmb : m = b
    · rw [hmb, successors_cut_self hb, List.mem_singleton] at hn
      exact hn ▸ Nat.lt_succ_self _
    · rw [successors_cut_of_ne (Nat.lt_of_le_of_ne (Nat.le_of_lt_succ hm) hlast) hmb] at hn
      exact Nat.lt_succ_of_lt (hinside m n hn)

/-- A cut moves instructions and neither drops nor repeats one. -/
theorem allInstructions_cut_perm (hb : b < g.nodeCount) :
    (g.cut b k).allInstructions.Perm g.allInstructions := by
  obtain ⟨first, rest, hnodes⟩ := List.append_of_mem (List.mem_range.mpr hb)
  have hdistinct : (List.range g.nodeCount).Nodup := List.nodup_range
  rw [hnodes, List.nodup_append, List.nodup_cons] at hdistinct
  obtain ⟨-, ⟨hrest, -⟩, hfirst⟩ := hdistinct
  have hlt {n : NodeId} (hn : n ∈ first ++ b :: rest) : n < g.nodeCount := by
    rwa [← hnodes, List.mem_range] at hn
  have hsame (nodes : List NodeId) (hnodes : ∀ n ∈ nodes, n < g.nodeCount ∧ n ≠ b) :
      nodes.flatMap (g.cut b k).instructions = nodes.flatMap g.instructions :=
    List.flatMap_congr fun n hn => instructions_cut_of_ne (hnodes n hn).1 (hnodes n hn).2
  have hbefore := hsame first fun n hn =>
    ⟨hlt (List.mem_append_left _ hn), fun heq => hfirst n hn b List.mem_cons_self heq⟩
  have hafter := hsame rest fun n hn =>
    ⟨hlt (List.mem_append_right _ (List.mem_cons_of_mem b hn)), fun heq => hrest (heq ▸ hn)⟩
  have hcut : (g.cut b k).allInstructions = first.flatMap g.instructions ++
      ((g.instructions b).take k ++ (rest.flatMap g.instructions ++ (g.instructions b).drop k)) := by
    rw [allInstructions, nodes, nodeCount_cut, List.range_succ, hnodes, List.flatMap_append,
      List.flatMap_append, List.flatMap_cons, List.flatMap_singleton, hbefore, hafter,
      instructions_cut_self hb, instructions_cut_last, List.append_assoc, List.append_assoc]
  have hall : g.allInstructions = first.flatMap g.instructions ++
      ((g.instructions b).take k ++ ((g.instructions b).drop k ++ rest.flatMap g.instructions)) := by
    rw [allInstructions, nodes, hnodes, List.flatMap_append, List.flatMap_cons,
      ← List.append_assoc ((g.instructions b).take k), List.take_append_drop]
  rw [hcut, hall]
  exact (List.perm_append_comm.append_left _).append_left _

end Cut

end FlowGraph

end ReachingWrites
