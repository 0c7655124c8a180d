import Mathlib.Data.List.Dedup
import Mathlib.Data.List.Sort
import ReachingWrites.Proofs.BitSet.Cursor

/-!
# Going through a set, whole and in parts

How a cursor answers is a list: step by step it yields the elements of the list in their order, and
nothing from the end of the list on, however often it is asked. The cursor of a set answers with all
bits of the set in ascending order, the bits above its bound among them; and a cursor that has been
kept after some steps answers with the rest.

The list and the set determine each other. A set of given indices is gone through as these indices
in order, without repetitions and without those not below the bound. A set that has no bit above its
bound is the set of the indices that are yielded.
-/

set_option autoImplicit false

namespace ReachingWrites

namespace BitSet

/-- Whatever number of steps is taken, each yields what stands at its place in the list, and nothing
past the end of the list. -/
def Cursor.Answers (c : Cursor) (members : List Nat) : Prop :=
  ∀ n, (c.steps n).1 = (List.range n).map fun k => members[k]?

private theorem Cursor.answers_left (c : Cursor) : c.Answers c.left := fun n => (c.steps_eq n).1

private theorem Cursor.answers_steps (c : Cursor) (n : Nat) :
    (c.steps n).2.Answers (c.left.drop n) := by
  rw [← (c.steps_eq n).2]
  exact (c.steps n).2.answers_left

/-- A step that yields nothing leaves nothing. -/
theorem Cursor.left_next_of_none {c : Cursor} (h : c.next.1 = none) : c.next.2.left = [] := by
  rw [next_fst, List.head?_eq_none_iff] at h
  rw [left_next, h, List.tail_nil]

/-- The cursor of a set goes through its bits. -/
structure Iterates (s : BitSet) : Prop where
  answers : s.cursor.Answers s.toList
  ascending : s.toList.Pairwise (· < ·)
  /-- Every bit that is set is yielded, and nothing else. -/
  complete : ∀ i, i ∈ s.toList ↔
    ∃ k w b, s.words[k]? = some w ∧ w.hasBit b = true ∧ i = Word.bits * k + b
  length : s.toList.length = s.count
  /-- A cursor that has yielded nothing never yields anything again. -/
  fused : ∀ n, (s.cursor.steps n).2.next.1 = none → (s.cursor.steps n).2.next.2.Answers []
  /-- A cursor kept after some steps yields what had not been yielded then. -/
  resumes : ∀ n, (s.cursor.steps n).2.Answers (s.toList.drop n)

/-- A set has the bits of its words. -/
theorem mem_iff_exists_word {s : BitSet} {i : Nat} :
    i ∈ s ↔ ∃ k w b, s.words[k]? = some w ∧ w.hasBit b = true ∧ i = Word.bits * k + b := by
  constructor
  · intro hi
    have hlt := div_lt_of_mem hi
    rw [mem_iff, word_of_lt hlt] at hi
    exact ⟨_, _, _, Array.getElem?_eq_getElem hlt, hi, (Nat.div_add_mod i Word.bits).symm⟩
  · rintro ⟨k, w, b, hw, hb, rfl⟩
    obtain ⟨hk, rfl⟩ := Array.getElem?_eq_some_iff.mp hw
    rw [mem_word (Word.lt_bits_of_hasBit hb), word_of_lt hk]
    exact hb

/-- The cursor of any set goes through its bits, those above the bound included. -/
theorem iterates (s : BitSet) : s.Iterates where
  answers := by
    rw [toList, Cursor.toList_eq]
    exact s.cursor.answers_left
  ascending := s.pairwise_toList
  complete i := mem_toList.trans mem_iff_exists_word
  length := s.length_toList
  fused n h := by
    have hanswers := (s.cursor.steps n).2.next.2.answers_left
    rwa [Cursor.left_next_of_none h] at hanswers
  resumes n := by
    rw [toList, Cursor.toList_eq]
    exact s.cursor.answers_steps n

/-- The members of a set of given indices are these indices in order. -/
theorem toList_ofIndices (bound : Nat) (indices : List Nat) :
    (ofIndices bound indices).toList = (indices.filter (· < bound)).dedup.mergeSort := by
  have hperm := List.mergeSort_perm (indices.filter (· < bound)).dedup (· ≤ ·)
  have hsorted : (indices.filter (· < bound)).dedup.mergeSort.SortedLT :=
    List.sortedLT_iff_nodup_and_sortedLE.mpr
      ⟨hperm.nodup_iff.mpr (List.nodup_dedup _), List.sortedLE_mergeSort⟩
  apply (pairwise_toList _).eq_of_mem_iff hsorted.pairwise
  intro i
  rw [mem_toList, mem_ofIndices, hperm.mem_iff, List.mem_dedup, List.mem_filter, decide_eq_true_iff]

/-- A set is made again from what it yields, unless it has a bit above its bound. -/
theorem Over.ofIndices_toList {n : Nat} {s : BitSet} (hs : s.Over n) (hlt : ∀ i ∈ s.toList, i < n) :
    ofIndices n s.toList = s := by
  apply (fits_ofIndices n s.toList).over.ext hs
  intro i
  rw [mem_ofIndices, ← mem_toList]
  exact and_iff_left_of_imp (hlt i)

/-- Going through a set yields all its bits once, in ascending order and as many as the set counts,
then nothing for ever; and from a cursor that was kept on the way, the rest of them. What a set of
given indices yields is the indices below its bound, sorted and without repetitions; and a set with
the words that its bound needs and no bit above it is made again from what it yields. -/
theorem iterates_and_rebuilds :
    (∀ s : BitSet, s.Iterates) ∧
    (∀ bound indices,
      (ofIndices bound indices).toList = (indices.filter (· < bound)).dedup.mergeSort) ∧
    ∀ s : BitSet, s.Over s.bound → (∀ i ∈ s.toList, i < s.bound) →
      ofIndices s.bound s.toList = s :=
  ⟨iterates, toList_ofIndices, fun _ hs hlt => hs.ofIndices_toList hlt⟩

/-- The highest bit of a word, words without bits, and the lowest bit of the last word. -/
theorem scatteredBits_rebuilds :
    let s : BitSet := ⟨193, #[Word.single 63, 0, 0, 1]⟩
    s.Over s.bound ∧ s.toList = [63, 192] ∧ (∀ i ∈ s.toList, i < s.bound) ∧
      ofIndices s.bound s.toList = s ∧
        (ofIndices 193 [192, 500, 63, 192]).toList =
          ([192, 500, 63, 192].filter (· < 193)).dedup.mergeSort ∧
        (ofIndices 193 [192, 500, 63, 192]).toList = [63, 192] ∧
          (s.cursor.steps 3).1 = [some 63, some 192, none] ∧
            (s.cursor.steps 1).2.Answers [192] := by
  intro s
  have hs : s.Over s.bound := ⟨rfl, by decide⟩
  have hmembers : s.toList = [63, 192] := by decide
  have hlt : ∀ i ∈ s.toList, i < s.bound := by decide
  obtain ⟨hiterates, hindices, hrebuilds⟩ := iterates_and_rebuilds
  have hanswers := (hiterates s).answers 3
  have hresumes := (hiterates s).resumes 1
  rw [hmembers] at hanswers hresumes
  exact ⟨hs, hmembers, hlt, hrebuilds s hs hlt, hindices 193 _, by decide, hanswers, hresumes⟩

end BitSet

end ReachingWrites
