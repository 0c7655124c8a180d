import Mathlib.Data.List.Induction
import ReachingWrites.Proofs.Facts.Numbering
import ReachingWrites.Proofs.Transfer.Basic
import ReachingWrites.Transfer.Blocks

/-!
# What a block does to a set of facts

The transfers of the blocks are made in one pass over all writes, each of which goes to the transfer
of its node. `Facts.Folds` says what the transfer of one node has become when some of the writes
have been passed: it kills the facts of the fields that these write in the node, and it generates
those of them that no later one in the node takes away again, and as long as none was in the node it
is the identity. Each write keeps this, of the node or of another one, and so it holds at the end.

So a fact leaves a block for one of two reasons. It is a write of the block with no other of its
field after it, or it has entered the block and the block does not write its field.
-/

set_option autoImplicit false

namespace ReachingWrites

variable {F : Type}

/-! ## The writes of a node -/

namespace StaticWrite

/-- One of the writes is in the node and has the field. -/
def WrittenIn (writes : List (StaticWrite F)) (n : NodeId) (field : F) : Prop :=
  ∃ w ∈ writes, w.node = n ∧ w.field = field

/-- The write stands at place `i` among the writes and is in the node, and no later one in the node
has its field. -/
structure Survives (w : StaticWrite F) (writes : List (StaticWrite F)) (n : NodeId) (i : Nat) :
    Prop where
  getElem? : writes[i]? = some w
  node : w.node = n
  later : ∀ other ∈ writes.drop (i + 1), other.node = n → other.field ≠ w.field

variable {w x : StaticWrite F} {done : List (StaticWrite F)} {n : NodeId} {i : Nat}

/-- A field is written in a longer row if it was before or if the last write is of it. -/
theorem writtenIn_concat {field : F} : WrittenIn (done ++ [x]) n field ↔
    WrittenIn done n field ∨ (x.node = n ∧ x.field = field) := by
  simp only [WrittenIn, List.mem_append, List.mem_singleton, or_and_right, exists_or,
    exists_eq_left]

private theorem not_writtenIn {writes : List (StaticWrite F)} {field : F} :
    ¬ WrittenIn writes n field ↔ ∀ other ∈ writes, other.node = n → other.field ≠ field := by
  simp only [WrittenIn, not_exists, not_and, ne_eq]

/-- One more write takes away those of its field in its node, and survives itself. -/
theorem survives_concat : w.Survives (done ++ [x]) n i ↔
    (w.Survives done n i ∧ (x.node = n → x.field ≠ w.field)) ∨
      (i = done.length ∧ x = w ∧ x.node = n) := by
  constructor
  · intro h
    have hi := (List.getElem?_eq_some_iff.mp h.getElem?).1
    rw [List.length_append, List.length_singleton] at hi
    rcases Nat.lt_or_eq_of_le (Nat.le_of_lt_succ hi) with hlt | rfl
    · have hat := h.getElem?
      have hlater := h.later
      rw [List.getElem?_append_left hlt] at hat
      rw [List.drop_append_of_le_length hlt, List.forall_mem_append, List.forall_mem_singleton]
        at hlater
      exact .inl ⟨⟨hat, h.node, hlater.1⟩, hlater.2⟩
    · have hat := h.getElem?
      rw [List.getElem?_concat_length] at hat
      cases hat
      exact .inr ⟨rfl, rfl, h.node⟩
  · rintro (⟨h, hother⟩ | ⟨rfl, rfl, hnode⟩)
    · have hlt := (List.getElem?_eq_some_iff.mp h.getElem?).1
      refine ⟨(List.getElem?_append_left hlt).trans h.getElem?, h.node, ?_⟩
      rw [List.drop_append_of_le_length hlt, List.forall_mem_append, List.forall_mem_singleton]
      exact ⟨h.later, hother⟩
    · refine ⟨List.getElem?_concat_length, hnode, ?_⟩
      rw [List.drop_eq_nil_of_le (by simp)]
      exact List.forall_mem_nil _

/-- A write survives in its node if no later one there is of its field. -/
theorem survives_split {before after : List (StaticWrite F)} :
    w.Survives (before ++ w :: after) n before.length ↔
      w.node = n ∧ ∀ later ∈ after, later.node = n → later.field ≠ w.field := by
  have hdrop : (before ++ w :: after).drop (before.length + 1) = after := by
    rw [← List.drop_drop, List.drop_left, List.drop_one, List.tail_cons]
  constructor
  · intro h
    have hlater := h.later
    rw [hdrop] at hlater
    exact ⟨h.node, hlater⟩
  · rintro ⟨hnode, hlater⟩
    refine ⟨by simp, hnode, ?_⟩
    rwa [hdrop]

end StaticWrite

open StaticWrite (WrittenIn Survives writtenIn_concat survives_concat not_writtenIn survives_split)

variable [DecidableEq F] {f : Facts F}

/-! ## One write -/

namespace Facts

/-- The writes of a field are a set of the universe of the facts. -/
theorem Indexed.fits_writesOf (h : f.Indexed) (field : F) :
    ((f.writesOf? field).getD (BitSet.empty f.size)).Fits f.size := by
  cases hkill : f.writesOf? field with
  | none => exact BitSet.fits_empty f.size
  | some kill => exact h.fits field kill hkill

private theorem Indexed.over_transferOf (h : f.Indexed) (w : StaticWrite F) (k : Nat) :
    (f.transferOf w k).Over f.size :=
  .killGen (h.fits_writesOf w.field).over (BitSet.fits_ofIndices f.size [k]).over

/-- A write takes away the facts of its field. -/
theorem Indexed.kills_transferOf (h : f.Indexed) {w : StaticWrite F} {i k : Nat} :
    (f.transferOf w k).Kills i ↔ ∃ other, f.write? i = some other ∧ other.field = w.field :=
  h.mem_writesOf w.field i

/-- A write adds itself. -/
theorem gens_transferOf {w : StaticWrite F} {i k : Nat} (hk : k < f.size) :
    (f.transferOf w k).Gens i ↔ i = k := by
  have hmem : (f.transferOf w k).Gens i ↔ i ∈ BitSet.ofIndices f.size [k] := Iff.rfl
  rw [hmem, BitSet.mem_ofIndices, List.mem_singleton]
  exact and_iff_left_of_imp fun hik => hik ▸ hk

/-- What a transfer is when the writes `done` of a node have been let into it. -/
structure Folds (f : Facts F) (n : NodeId) (done : List (StaticWrite F)) (t : Transfer) : Prop where
  overFacts : t.Over f.size
  /-- It is the identity as long as no write was in the node. -/
  isIdentity : t.isIdentity = true ↔ ∀ w ∈ done, w.node ≠ n
  /-- It kills the facts of the fields that were written, wherever those facts are. -/
  kills : ∀ i, t.Kills i ↔ ∃ w, f.write? i = some w ∧ WrittenIn done n w.field
  /-- It generates the writes that survive. -/
  gens : ∀ i, t.Gens i ↔ ∃ w : StaticWrite F, w.Survives done n i

section Folds

variable {n : NodeId} {done : List (StaticWrite F)} {t : Transfer} {w : StaticWrite F}

omit [DecidableEq F] in
private theorem folds_nil (f : Facts F) (n : NodeId) : f.Folds n [] .identity where
  overFacts := .identity
  isIdentity := by simp [Transfer.isIdentity]
  kills i := by simp [Transfer.Kills, WrittenIn]
  gens i := by
    refine ⟨False.elim, ?_⟩
    rintro ⟨w, hw⟩
    exact absurd hw.getElem? (by simp)

omit [DecidableEq F] in
/-- A write of another node changes nothing. -/
private theorem Folds.pass (h : f.Folds n done t) (hnode : w.node ≠ n) : f.Folds n (done ++ [w]) t where
  overFacts := h.overFacts
  isIdentity := by
    rw [h.isIdentity, List.forall_mem_append, List.forall_mem_singleton]
    exact (and_iff_left hnode).symm
  kills i := by simp only [h.kills, writtenIn_concat, hnode, false_and, or_false]
  gens i := by
    simp only [h.gens, survives_concat, hnode, and_false, or_false, false_imp_iff, and_true]

/-- A write of the node takes away what its field has had so far, and adds itself. -/
private theorem Folds.enter (h : f.Folds n done t) (hindexed : f.Indexed)
    (hdone : done ++ [w] <+: f.writes.toList) (hnode : w.node = n) :
    f.Folds n (done ++ [w]) (t.andThen (f.transferOf w done.length)) := by
  have hnext := hindexed.over_transferOf w done.length
  have hwrite {i : Nat} {v : StaticWrite F} (hv : done[i]? = some v) : f.write? i = some v := by
    obtain ⟨after, hsplit⟩ := hdone
    rw [write?, ← Array.getElem?_toList, ← hsplit, List.append_assoc,
      List.getElem?_append_left (List.getElem?_eq_some_iff.mp hv).1, hv]
  have hlength : done.length < f.size := by
    have hle := hdone.length_le
    rwa [List.length_append, List.length_singleton, Array.length_toList] at hle
  refine ⟨h.overFacts.andThen hnext, ?_, fun i => ?_, fun i => ?_⟩
  · have hlast : (f.transferOf w done.length).isIdentity = false := rfl
    rw [Transfer.isIdentity_andThen, hlast, Bool.and_false]
    refine ⟨fun h => absurd h Bool.false_ne_true, fun hnone => absurd hnode (hnone w ?_)⟩
    exact List.mem_append_right _ List.mem_cons_self
  · rw [h.overFacts.kills_andThen hnext, h.kills, hindexed.kills_transferOf, ← exists_or]
    simp only [writtenIn_concat, hnode, true_and, ← and_or_left, eq_comm]
  · rw [h.overFacts.gens_andThen hnext, h.gens, hindexed.kills_transferOf, gens_transferOf hlength]
    constructor
    · rintro (⟨⟨v, hv⟩, hkept⟩ | rfl)
      · refine ⟨v, survives_concat.mpr (.inl ⟨hv, fun _ heq => hkept ?_⟩)⟩
        exact ⟨v, hwrite hv.getElem?, heq.symm⟩
      · exact ⟨w, survives_concat.mpr (.inr ⟨rfl, rfl, hnode⟩)⟩
    · rintro ⟨v, hv⟩
      rcases survives_concat.mp hv with ⟨hv, hother⟩ | ⟨rfl, -, -⟩
      · refine .inl ⟨⟨v, hv⟩, ?_⟩
        rintro ⟨v', hv', hfield⟩
        obtain rfl := Option.some.inj ((hwrite hv.getElem?).symm.trans hv')
        exact hother hnode hfield.symm
      · exact .inr rfl

omit [DecidableEq F] in
/-- The writes of a node make one transfer. -/
theorem Folds.unique {t' : Transfer} (h : f.Folds n done t) (h' : f.Folds n done t') : t = t' := by
  refine h.overFacts.ext h'.overFacts ?_ (fun i => ?_) fun i => ?_
  · rw [Bool.eq_iff_iff, h.isIdentity, h'.isIdentity]
  · rw [h.kills, h'.kills]
  · rw [h.gens, h'.gens]

omit [DecidableEq F] in
/-- When all writes have been passed, what is killed and generated are facts. -/
theorem Folds.fits (h : f.Folds n f.writes.toList t) : t.Fits f.size := by
  refine h.overFacts.fits (fun i hi => ?_) fun i hi => ?_
  · obtain ⟨w, hw, -⟩ := (h.kills i).mp hi
    exact (Array.getElem?_eq_some_iff.mp hw).1
  · obtain ⟨w, hw⟩ := (h.gens i).mp hi
    have hlt := (List.getElem?_eq_some_iff.mp hw.getElem?).1
    rwa [Array.length_toList] at hlt

end Folds

end Facts

/-! ## The pass over the writes -/

namespace BlockTransfers

private theorem of_append {t : BlockTransfers} {n : NodeId} (hn : n < t.perNode.size) (node : NodeId)
    (next : Transfer) :
    (t.append node next).of n = if node = n then (t.of n).andThen next else t.of n := by
  simp only [append, of, Array.getD_eq_getD_getElem?, Array.getElem?_modify]
  split
  · simp [hn]
  · rfl

private theorem size_append (t : BlockTransfers) (node : NodeId) (next : Transfer) :
    (t.append node next).perNode.size = t.perNode.size := Array.size_modify

private theorem of_identities (count : Nat) (n : NodeId) : (identities count).of n = .identity := by
  rw [of, identities, Array.getD_eq_getD_getElem?, Array.getElem?_replicate]
  split
  · rfl
  · rfl

/-- The transfers of the nodes when the pass has come past some of the writes. -/
def ofWrites (count : Nat) (f : Facts F) (done : List (StaticWrite F)) : BlockTransfers :=
  done.zipIdx.foldl (fun t (write, i) => t.append write.node (f.transferOf write i))
    (identities count)

private theorem ofFacts_eq (count : Nat) (f : Facts F) :
    ofFacts count f = ofWrites count f f.writes.toList := rfl

private theorem ofWrites_concat (count : Nat) (f : Facts F) (done : List (StaticWrite F))
    (w : StaticWrite F) : ofWrites count f (done ++ [w]) =
      (ofWrites count f done).append w.node (f.transferOf w done.length) := by
  rw [ofWrites, List.zipIdx_append, List.foldl_append, Nat.zero_add]
  rfl

private theorem size_ofWrites (count : Nat) (f : Facts F) (done : List (StaticWrite F)) :
    (ofWrites count f done).perNode.size = count := by
  induction done using List.reverseRecOn with
  | nil => exact Array.size_replicate
  | append_singleton done w ih => rw [ofWrites_concat, size_append, ih]

variable {count : Nat} {n : NodeId}

/-- The transfer of a node after some of the writes is what those writes fold to. -/
theorem folds_ofWrites (h : f.Indexed) (hn : n < count) {done : List (StaticWrite F)}
    (hdone : done <+: f.writes.toList) : f.Folds n done ((ofWrites count f done).of n) := by
  induction done using List.reverseRecOn with
  | nil =>
    have hstart : (ofWrites count f []).of n = .identity := of_identities count n
    rw [hstart]
    exact Facts.folds_nil f n
  | append_singleton done w ih =>
    have hbefore := ih ((List.prefix_append done [w]).trans hdone)
    rw [ofWrites_concat, of_append (by rwa [size_ofWrites])]
    split
    next hnode => exact hbefore.enter h hdone hnode
    next hnode => exact hbefore.pass hnode

/-- The transfer of a node is that of its writes. -/
theorem folds_ofFacts (h : f.Indexed) (hn : n < count) :
    f.Folds n f.writes.toList ((ofFacts count f).of n) :=
  folds_ofWrites h hn (List.prefix_refl _)

/-- A node out of range does nothing. -/
theorem of_ofFacts_of_le (hn : count ≤ n) : (ofFacts count f).of n = .identity := by
  have hsize : (ofFacts count f).perNode.size ≤ n := by rwa [ofFacts_eq, size_ofWrites]
  rw [of, Array.getD_eq_getD_getElem?, Array.getElem?_eq_none hsize, Option.getD_none]

/-- A fact leaves a node if it is a write of the node and no later one there writes its field, or if
it enters the node and no write there has its field. -/
theorem mem_apply_ofFacts (h : f.Indexed) (hn : n < count) {before after : List (StaticWrite F)}
    {w : StaticWrite F} (hsplit : f.writes.toList = before ++ w :: after) {s : BitSet}
    (hs : s.Over f.size) :
    before.length ∈ ((ofFacts count f).of n).apply s ↔
      (w.node = n ∧ ∀ later ∈ after, later.node = n → later.field ≠ w.field) ∨
        (before.length ∈ s ∧
          ∀ other ∈ f.writes.toList, other.node = n → other.field ≠ w.field) := by
  have hfolds := folds_ofFacts h hn
  have hat : f.writes.toList[before.length]? = some w := by
    rw [hsplit]
    simp
  have hkills : ((ofFacts count f).of n).Kills before.length ↔
      WrittenIn f.writes.toList n w.field := by
    rw [hfolds.kills, Facts.write?, ← Array.getElem?_toList, hat]
    simp
  have hgens : ((ofFacts count f).of n).Gens before.length ↔
      w.Survives f.writes.toList n before.length := by
    rw [hfolds.gens]
    refine ⟨?_, fun hw => ⟨w, hw⟩⟩
    rintro ⟨v, hv⟩
    obtain rfl := Option.some.inj (hat.symm.trans hv.getElem?)
    exact hv
  rw [hfolds.overFacts.mem_apply hs, hkills, not_writtenIn, hgens, hsplit, survives_split]
  exact or_comm

end BlockTransfers

end ReachingWrites
