import Mathlib.Algebra.Order.Floor.Div
import Mathlib.Data.Finset.Card
import ReachingWrites.Proofs.BitSet.Cursor

/-!
# Bit sets as finite sets

A bit set stands for the finite set of the indices that its cursor yields, and what an operation
does is what it does to this finite set. `Built` are the sets that the operations make, in any order
and from sets of any universes. Each of them has the words that its bound needs (`Built.over`), and
this is all that the rest asks for: the operations change the members that they should and no other,
say truly whether they did, and answer for the members. The finite set and the bound together are
the whole value.

The finite set is not always one of indices below the bound. A union brings over the members of the
other set as far as the words of the first one reach, and these count for every operation but
`contains`, which knows none of them.
-/

set_option autoImplicit false

namespace ReachingWrites

namespace BitSet

/-- The cursor of the set yields the index after some number of steps. -/
def Yields (s : BitSet) (i : Nat) : Prop := ∃ n, some i ∈ (s.cursor.steps n).1

/-- What a cursor over a set yields are its members. -/
theorem yields_iff {s : BitSet} {i : Nat} : s.Yields i ↔ i ∈ s := by
  rw [← mem_toList, toList, Cursor.toList_eq, List.mem_iff_getElem?]
  simp only [Yields, (s.cursor.steps_eq _).1, List.mem_map, List.mem_range]
  constructor
  · rintro ⟨n, k, -, hk⟩
    exact ⟨k, hk⟩
  · rintro ⟨k, hk⟩
    exact ⟨k + 1, k, Nat.lt_succ_self k, hk⟩

/-! ## The sets that operations make -/

/-- The sets that the operations make. The second set of an operation may have another bound. -/
inductive Built : BitSet → Prop where
  | empty (bound : Nat) : Built (empty bound)
  | ofIndices (bound : Nat) (indices : List Nat) : Built (ofIndices bound indices)
  | insert {s : BitSet} (hs : Built s) (i : Nat) : Built (s.insertNew i).1
  | erase {s : BitSet} (hs : Built s) (i : Nat) : Built (s.eraseOld i).1
  | union {s t : BitSet} (hs : Built s) (ht : Built t) : Built (s.unionGrown t).1
  | diff {s t : BitSet} (hs : Built s) (ht : Built t) : Built (s.diff t)

/-- No operation changes the bound or the number of words. -/
theorem Built.over {s : BitSet} (h : s.Built) : s.Over s.bound := by
  suffices hsome : ∃ n, s.Over n by
    obtain ⟨n, hs⟩ := hsome
    exact hs.bound.symm ▸ hs
  induction h with
  | empty bound => exact ⟨bound, over_empty bound⟩
  | ofIndices bound indices => exact ⟨bound, (fits_ofIndices bound indices).over⟩
  | insert _ i ih => exact ih.imp fun _ hs => hs.insert i
  | erase _ i ih => exact ih.imp fun _ hs => hs.erase i
  | @union _ t _ _ ih _ => exact ih.imp fun _ hs => hs.union t
  | @diff _ t _ _ ih _ => exact ih.imp fun _ hs => hs.diff t

/-! ## Operations that tell whether they changed something -/

/-- An operation on a set leads to a set of the same bound with certain members, and tells whether
this is another set. -/
structure Changes (s : BitSet) (result : BitSet × Bool) (members : Nat → Prop) : Prop where
  bound : result.1.bound = s.bound
  yields : ∀ j, result.1.Yields j ↔ members j
  told : result.2 = true ↔ result.1 ≠ s

private theorem changes_unionGrown (s t : BitSet) :
    s.Changes (s.unionGrown t) fun j =>
      s.Yields j ∨ (t.Yields j ∧ j < 64 * s.words.size) where
  bound := rfl
  yields j := by
    rw [yields_iff, yields_iff, yields_iff, Nat.mul_comm, ← Nat.div_lt_iff_lt_mul (by decide)]
    exact mem_union
  told := gains_eq_true

section Over

variable {n : Nat} {s t : BitSet} (hs : s.Over n)
include hs

private theorem Over.eq_iff (ht : t.Over n) : s = t ↔ ∀ i, i ∈ s ↔ i ∈ t := by
  constructor
  · rintro rfl i
    exact Iff.rfl
  · exact hs.ext ht

private theorem Over.contains_eq_true {i : Nat} : s.contains i = true ↔ i < n ∧ i ∈ s := by
  rw [contains, Bool.and_eq_true, decide_eq_true_iff, hs.bound]
  rfl

private theorem Over.changes_insertNew (i : Nat) :
    s.Changes (s.insertNew i) fun j => s.Yields j ∨ (j = i ∧ i < s.bound) where
  bound := (hs.insert i).bound.trans hs.bound.symm
  yields j := by
    rw [yields_iff, yields_iff, hs.bound]
    exact hs.mem_insert
  told := by
    have heq : s.insert i = s ↔ (i < n → i ∈ s) := by
      rw [(hs.insert i).eq_iff hs]
      constructor
      · intro h hi
        exact (h i).mp (hs.mem_insert.mpr (.inr ⟨rfl, hi⟩))
      · intro h j
        rw [hs.mem_insert, or_iff_left_of_imp]
        rintro ⟨rfl, hi⟩
        exact h hi
    rw [insertNew, admits, Bool.and_eq_true, decide_eq_true_iff, hs.bound, Bool.not_eq_true',
      ← Bool.not_eq_true, hs.contains_eq_true, ne_eq, heq]
    tauto

private theorem Over.changes_eraseOld (i : Nat) :
    s.Changes (s.eraseOld i) fun j => s.Yields j ∧ ¬ (j = i ∧ i < s.bound) where
  bound := (hs.erase i).bound.trans hs.bound.symm
  yields j := by
    rw [yields_iff, yields_iff, hs.bound]
    exact hs.mem_erase
  told := by
    have heq : s.erase i = s ↔ (i < n → i ∉ s) := by
      rw [(hs.erase i).eq_iff hs]
      constructor
      · intro h hi hmem
        exact (hs.mem_erase.mp ((h i).mpr hmem)).2 ⟨rfl, hi⟩
      · intro h j
        rw [hs.mem_erase, and_iff_left_of_imp]
        rintro hj ⟨rfl, hi⟩
        exact h hi hj
    rw [eraseOld, hs.contains_eq_true, ne_eq, heq]
    tauto

end Over

/-- A set counts its members. -/
theorem exists_members (s : BitSet) :
    ∃ members : Finset Nat, (∀ i, i ∈ members ↔ s.Yields i) ∧ s.count = members.card := by
  refine ⟨s.toList.toFinset, fun i => ?_, s.card_toFinset_toList.symm⟩
  rw [List.mem_toFinset, mem_toList, yields_iff]

/-! ## All operations -/

/-- The operations on a set, and on it with another set, are those on the finite sets that their
cursors yield. -/
structure Refines (s t : BitSet) : Prop where
  /-- There are as many words as the bound needs. -/
  size : s.words.size = s.bound ⌈/⌉ 64
  /-- The word of an index below the bound is there. -/
  inside : ∀ i < s.bound, i / 64 < s.words.size
  contains : ∀ i, s.contains i = true ↔ i < s.bound ∧ s.Yields i
  insert : ∀ i, s.Changes (s.insertNew i) fun j => s.Yields j ∨ (j = i ∧ i < s.bound)
  erase : ∀ i, s.Changes (s.eraseOld i) fun j => s.Yields j ∧ ¬ (j = i ∧ i < s.bound)
  union : s.Changes (s.unionGrown t) fun j =>
    s.Yields j ∨ (t.Yields j ∧ j < 64 * s.words.size)
  diff : (s.diff t).bound = s.bound ∧ ∀ j, (s.diff t).Yields j ↔ s.Yields j ∧ ¬ t.Yields j
  isSubset : s.isSubset t = true ↔ ∀ i, s.Yields i → t.Yields i
  count : ∃ members : Finset Nat, (∀ i, i ∈ members ↔ s.Yields i) ∧ s.count = members.card
  isEmpty : s.isEmpty = true ↔ ∀ i, ¬ s.Yields i
  /-- The bound and the finite set are the whole value. -/
  eq_iff : s = t ↔ s.bound = t.bound ∧ ∀ i, s.Yields i ↔ t.Yields i

/-- Whatever operations two sets come from and whatever their universes are, the operations on them
are those on finite sets. -/
theorem Built.refines {s t : BitSet} (hs : s.Built) (ht : t.Built) : s.Refines t where
  size := hs.over.size
  inside i hi := hs.over.div_lt_size hi
  contains i := by rw [hs.over.contains_eq_true, yields_iff]
  insert := hs.over.changes_insertNew
  erase := hs.over.changes_eraseOld
  union := s.changes_unionGrown t
  diff := ⟨rfl, fun j => by rw [yields_iff, yields_iff, yields_iff, mem_diff]⟩
  isSubset := by
    simp only [isSubset_eq_true, yields_iff]
  count := s.exists_members
  isEmpty := by simp only [isEmpty_eq_true, yields_iff]
  eq_iff := by
    simp only [yields_iff]
    constructor
    · rintro rfl
      exact ⟨rfl, fun _ => Iff.rfl⟩
    · rintro ⟨hbound, hmem⟩
      exact hs.over.ext (hbound ▸ ht.over) hmem

/-- A set of one index that has taken over a bit above its bound from a greater one, beside a set of
three words. -/
theorem strayBit_refines :
    let s := ((empty 1).unionGrown (ofIndices 130 [1, 64])).1
    let t := ((ofIndices 130 [0, 64, 129, 64]).eraseOld 0).1
    s.Built ∧ t.Built ∧ s.Refines t ∧ t.Refines s ∧ s.words = #[2] ∧ s.count = 1 ∧
      s.contains 1 = false ∧ (s.insertNew 1).2 = false ∧ (s.unionGrown t).2 = false ∧
        (t.unionGrown s).2 = true ∧ s.isSubset t = false := by
  intro s t
  have hs : s.Built := .union (.empty 1) (.ofIndices 130 [1, 64])
  have ht : t.Built := .erase (.ofIndices 130 [0, 64, 129, 64]) 0
  exact ⟨hs, ht, Built.refines hs ht, Built.refines ht hs, by decide, by decide, by decide,
    by decide, by decide, by decide, by decide⟩

end BitSet

end ReachingWrites
