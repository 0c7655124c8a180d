import Mathlib.Data.Finset.Card
import Mathlib.Data.List.Nodup
import ReachingWrites.Fixpoint.Worklist
import ReachingWrites.Proofs.Repeats

/-!
# A worklist holds a node once

The queue and the row of marks of a worklist are two views of the nodes that wait. They agree at
every moment of a solve: no node stands in the queue twice, and a node stands there exactly when its
mark is set. `Marked` says so, and every operation keeps it. From it follows what a node gains by
being put in, and how much longer the queue can become when the successors of a node are put in.
-/

set_option autoImplicit false

namespace ReachingWrites

namespace Worklist

/-- The queue and the marks agree, and the queue holds a node at most once. -/
structure Marked (w : Worklist) : Prop where
  /-- No node waits twice. -/
  nodup : w.pending.Nodup
  /-- A node waits exactly when it is marked. -/
  mem_iff : ∀ node, node ∈ w.pending ↔ w.queued[node]? = some true

/-- A node that waits is a node of the graph. -/
theorem Marked.lt_size {w : Worklist} (h : w.Marked) {node : NodeId} (hm : node ∈ w.pending) :
    node < w.queued.size := by
  obtain ⟨hlt, -⟩ := Array.getElem?_eq_some_iff.mp ((h.mem_iff node).mp hm)
  exact hlt

/-- No more nodes wait than the graph has. -/
theorem Marked.length_pending_le {w : Worklist} (h : w.Marked) :
    w.pending.length ≤ w.queued.size := by
  rw [← List.toFinset_card_of_nodup h.nodup, ← Finset.card_range w.queued.size]
  refine Finset.card_le_card fun node hm => ?_
  rw [List.mem_toFinset] at hm
  exact Finset.mem_range.mpr (h.lt_size hm)

/-! ## The start -/

/-- Either order is an order of all nodes. -/
theorem mem_arrange {order : VisitOrder} {count node : Nat} :
    node ∈ order.arrange count ↔ node < count := by
  cases order <;> simp [VisitOrder.arrange]

/-- No node comes twice in an order of visits. -/
theorem nodup_arrange (order : VisitOrder) (count : Nat) : (order.arrange count).Nodup := by
  cases order with
  | forward => exact List.nodup_range
  | reverse => exact List.nodup_reverse.mpr List.nodup_range

/-- An order of visits has as many nodes as the graph. -/
theorem length_arrange (order : VisitOrder) (count : Nat) :
    (order.arrange count).length = count := by
  cases order <;> simp [VisitOrder.arrange]

/-- Queue and marks agree at the start, when all nodes wait. -/
theorem marked_seed (order : VisitOrder) (count : Nat) : (seed order count).Marked where
  nodup := nodup_arrange order count
  mem_iff node := by
    rw [seed, mem_arrange, Array.getElem?_replicate]
    simp

/-! ## Taking out -/

/-- Taking out the first node unmarks it and leaves the others as they are. -/
theorem Marked.tail {w : Worklist} (h : w.Marked) {node : NodeId} {rest : List NodeId}
    (hp : w.pending = node :: rest) :
    (⟨rest, w.queued.setIfInBounds node false⟩ : Worklist).Marked := by
  have hnodup := h.nodup
  rw [hp, List.nodup_cons] at hnodup
  refine ⟨hnodup.2, ?_⟩
  intro other
  have hother := h.mem_iff other
  rw [hp, List.mem_cons] at hother
  rw [Array.getElem?_setIfInBounds]
  by_cases hne : node = other
  · subst hne
    rw [if_pos rfl]
    constructor
    · intro hm
      exact absurd hm hnodup.1
    · intro hm
      split at hm <;> cases hm
  · rw [if_neg hne, ← hother]
    exact ⟨Or.inr, fun hm => hm.resolve_left fun he => hne he.symm⟩

/-! ## Putting in -/

private theorem push_of_free {w : Worklist} {node : NodeId} (h : w.queued[node]? = some false) :
    w.push node = ⟨w.pending ++ [node], w.queued.setIfInBounds node true⟩ := by
  rw [push, h]

private theorem push_of_not_free {w : Worklist} {node : NodeId} (h : w.queued[node]? ≠ some false) :
    w.push node = w := by
  unfold push
  split
  next hf => exact absurd hf h
  next => rfl

/-- Putting a node in keeps the size of the table of marks. -/
@[simp] theorem size_queued_push (w : Worklist) (node : NodeId) :
    (w.push node).queued.size = w.queued.size := by
  unfold push
  split
  · exact Array.size_setIfInBounds
  · rfl

/-- Putting nodes in keeps the size of the table of marks. -/
@[simp] theorem size_queued_pushAll (w : Worklist) (nodes : List NodeId) :
    (w.pushAll nodes).queued.size = w.queued.size := by
  induction nodes generalizing w with
  | nil => rfl
  | cons node nodes ih => exact (ih (w.push node)).trans (size_queued_push w node)

/-- Nodes that are named again among those put in make no difference, not even in the order in which
the nodes come to wait. -/
theorem pushAll_eraseDups (w : Worklist) (nodes : List NodeId) :
    w.pushAll nodes.eraseDups = w.pushAll nodes := by
  -- what is not free stays so
  refine foldl_eraseDups (fun w node => w.queued[node]? ≠ some false) ?_ ?_ push_of_not_free nodes w
  · intro w node
    by_cases hf : w.queued[node]? = some false
    · obtain ⟨hlt, -⟩ := Array.getElem?_eq_some_iff.mp hf
      rw [push_of_free hf, Array.getElem?_setIfInBounds, if_pos rfl, if_pos hlt]
      simp
    · rwa [push_of_not_free hf]
  · intro w node other hnot
    by_cases hf : w.queued[other]? = some false
    · rw [push_of_free hf, Array.getElem?_setIfInBounds]
      by_cases hne : other = node
      · exact absurd (hne ▸ hf) hnot
      · rwa [if_neg hne]
    · rwa [push_of_not_free hf]

/-- A node that is put in waits afterwards if it is a node of the graph, and all that waited wait
still. -/
theorem Marked.mem_push {w : Worklist} (h : w.Marked) {node other : NodeId} :
    other ∈ (w.push node).pending ↔
      other ∈ w.pending ∨ (other = node ∧ other < w.queued.size) := by
  by_cases hf : w.queued[node]? = some false
  · obtain ⟨hlt, -⟩ := Array.getElem?_eq_some_iff.mp hf
    rw [push_of_free hf, List.mem_append, List.mem_singleton]
    exact or_congr_right ⟨fun he => ⟨he, he ▸ hlt⟩, And.left⟩
  · rw [push_of_not_free hf]
    refine ⟨Or.inl, ?_⟩
    intro hm
    rcases hm with hm | ⟨he, hlt⟩
    · exact hm
    subst he
    -- a node of the graph that is not free is marked
    rw [h.mem_iff, Array.getElem?_eq_getElem hlt]
    rw [Array.getElem?_eq_getElem hlt] at hf
    cases hq : w.queued[other] with
    | true => rfl
    | false => rw [hq] at hf; exact absurd rfl hf

/-- Queue and marks still agree when a node has been put in. -/
theorem Marked.push {w : Worklist} (h : w.Marked) (node : NodeId) : (w.push node).Marked := by
  by_cases hf : w.queued[node]? = some false
  · obtain ⟨hlt, -⟩ := Array.getElem?_eq_some_iff.mp hf
    have hnot : node ∉ w.pending := by
      rw [h.mem_iff, hf]
      simp
    rw [push_of_free hf]
    refine ⟨?_, ?_⟩
    · exact List.nodup_append.mpr ⟨h.nodup, List.nodup_singleton node, fun a ha b hb he => by
        rw [List.mem_singleton] at hb
        exact hnot (hb ▸ he ▸ ha)⟩
    · intro other
      rw [List.mem_append, List.mem_singleton, h.mem_iff, Array.getElem?_setIfInBounds]
      by_cases hne : node = other
      · subst hne
        simp [hlt]
      · rw [if_neg hne]
        exact ⟨fun hm => hm.resolve_right fun he => hne he.symm, Or.inl⟩
  · rw [push_of_not_free hf]
    exact h

/-- Queue and marks still agree when nodes have been put in. -/
theorem Marked.pushAll {w : Worklist} (h : w.Marked) (nodes : List NodeId) :
    (w.pushAll nodes).Marked := by
  induction nodes generalizing w with
  | nil => exact h
  | cons node nodes ih => exact ih (h.push node)

/-- When nodes have been put in, those wait that did before, and of the new ones those in the graph. -/
theorem Marked.mem_pushAll {w : Worklist} (h : w.Marked) {nodes : List NodeId} {other : NodeId} :
    other ∈ (w.pushAll nodes).pending ↔
      other ∈ w.pending ∨ (other ∈ nodes ∧ other < w.queued.size) := by
  induction nodes generalizing w with
  | nil => simp [Worklist.pushAll]
  | cons node nodes ih =>
    have hrest := ih (h.push node)
    rw [h.mem_push, size_queued_push] at hrest
    rw [List.mem_cons]
    refine hrest.trans ?_
    tauto

/-- Putting nodes in that all wait already changes nothing. -/
theorem Marked.pushAll_of_forall_mem {w : Worklist} (h : w.Marked) {nodes : List NodeId}
    (wait : ∀ node ∈ nodes, node ∈ w.pending) : w.pushAll nodes = w := by
  induction nodes with
  | nil => rfl
  | cons node nodes ih =>
    have hmarked := (h.mem_iff node).mp (wait node List.mem_cons_self)
    have hnot : w.queued[node]? ≠ some false := by
      rw [hmarked]
      simp
    calc w.pushAll (node :: nodes)
        = (w.push node).pushAll nodes := rfl
      _ = w.pushAll nodes := by rw [push_of_not_free hnot]
      _ = w := ih fun other hmem => wait other (List.mem_cons_of_mem node hmem)

/-- A node that is put in waits behind all that waited. -/
theorem prefix_push (w : Worklist) (node : NodeId) : w.pending <+: (w.push node).pending := by
  unfold push
  split
  · exact List.prefix_append _ _
  · exact List.prefix_rfl

/-- Nodes that are put in wait behind those that did before. -/
theorem prefix_pushAll (w : Worklist) (nodes : List NodeId) :
    w.pending <+: (w.pushAll nodes).pending := by
  induction nodes generalizing w with
  | nil => exact List.prefix_rfl
  | cons node nodes ih => exact (prefix_push w node).trans (ih (w.push node))

/-- Putting nodes in makes the queue longer by no more than the number of distinct nodes of the
graph among them. -/
theorem Marked.length_pushAll_le {w : Worklist} (h : w.Marked) (nodes : List NodeId) :
    (w.pushAll nodes).pending.length ≤
      w.pending.length + (nodes.toFinset.filter (· < w.queued.size)).card := by
  rw [← List.toFinset_card_of_nodup (h.pushAll nodes).nodup, ← List.toFinset_card_of_nodup h.nodup]
  refine le_trans (Finset.card_le_card fun other hm => ?_) (Finset.card_union_le _ _)
  rw [List.mem_toFinset, h.mem_pushAll] at hm
  rw [Finset.mem_union, Finset.mem_filter, List.mem_toFinset, List.mem_toFinset]
  exact hm

/-- Putting nodes in never makes the queue shorter. -/
theorem Marked.length_le_pushAll {w : Worklist} (h : w.Marked) (nodes : List NodeId) :
    w.pending.length ≤ (w.pushAll nodes).pending.length := by
  rw [← List.toFinset_card_of_nodup (h.pushAll nodes).nodup, ← List.toFinset_card_of_nodup h.nodup]
  refine Finset.card_le_card fun other hm => ?_
  rw [List.mem_toFinset] at hm ⊢
  exact h.mem_pushAll.mpr (.inl hm)

end Worklist

end ReachingWrites
