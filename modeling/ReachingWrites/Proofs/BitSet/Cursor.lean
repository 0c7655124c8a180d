import Mathlib.Data.Finset.Card
import ReachingWrites.BitSet.Cursor
import ReachingWrites.Proofs.BitSet.Members

/-!
# What a cursor yields

The members a cursor has not yet yielded are a list, `Cursor.left`: the bits of the rest of the
current word, then those of the words after it. A step yields the first of them and leaves the
others, so `n` steps yield `n` of them, in their order, and then nothing. The cursor of a set starts
with all its members, in ascending order.
-/

set_option autoImplicit false

namespace ReachingWrites

namespace Word

/-- The indices of a word's bits, where the lowest bit has the index `base`. -/
def indices (base : Nat) (w : Word) : List Nat := ((List.range bits).filter w.hasBit).map (base + ·)

private theorem indices_of_ne_zero {w : Word} (h : w ≠ 0) (base : Nat) :
    w.indices base = (base + w.lowest) :: w.dropLowest.indices base := by
  rw [indices, filter_hasBit h, List.map_cons, indices]

/-- The zero word stands for no index. -/
@[simp] theorem indices_zero (base : Nat) : indices base 0 = [] := by
  simp [indices]

/-- A word stands for as many indices as it has bits set. -/
@[simp] theorem length_indices (base : Nat) (w : Word) :
    (w.indices base).length = w.population := by
  rw [indices, List.length_map, population, List.countP_eq_length_filter]

private theorem mem_indices {base : Nat} {w : Word} {i : Nat} :
    i ∈ w.indices base ↔ base ≤ i ∧ w.hasBit (i - base) = true := by
  simp only [indices, List.mem_map, List.mem_filter, List.mem_range]
  constructor
  · intro h
    obtain ⟨b, ⟨-, hb⟩, rfl⟩ := h
    refine ⟨Nat.le_add_right base b, ?_⟩
    rwa [Nat.add_sub_cancel_left]
  · intro h
    exact ⟨i - base, ⟨lt_bits_of_hasBit h.2, h.2⟩, Nat.add_sub_cancel' h.1⟩

private theorem lt_of_mem_indices {base : Nat} {w : Word} {i : Nat} (h : i ∈ w.indices base) :
    i < base + bits := by
  obtain ⟨hle, hbit⟩ := mem_indices.mp h
  have hlt := lt_bits_of_hasBit hbit
  omega

private theorem pairwise_indices (base : Nat) (w : Word) : (w.indices base).Pairwise (· < ·) := by
  rw [indices, List.pairwise_map]
  exact (List.pairwise_lt_range.filter _).imp fun h => Nat.add_lt_add_left h base

/-- The indices of the bits of several words, one word after the other. -/
def allIndices (base : Nat) : List Word → List Nat
  | [] => []
  | w :: rest => w.indices base ++ allIndices (base + bits) rest

private theorem length_allIndices (base : Nat) (words : List Word) :
    (allIndices base words).length = populations words := by
  induction words generalizing base with
  | nil => rfl
  | cons w words ih => simp [allIndices, populations, ih]

private theorem le_of_mem_allIndices {base : Nat} {words : List Word} {i : Nat}
    (h : i ∈ allIndices base words) : base ≤ i := by
  induction words generalizing base with
  | nil => simp [allIndices] at h
  | cons w words ih =>
    rcases List.mem_append.mp h with hw | hrest
    · exact (mem_indices.mp hw).1
    · exact Nat.le_trans (Nat.le_add_right base bits) (ih hrest)

private theorem pairwise_allIndices (base : Nat) (words : List Word) :
    (allIndices base words).Pairwise (· < ·) := by
  induction words generalizing base with
  | nil => exact List.Pairwise.nil
  | cons w words ih =>
    refine List.pairwise_append.mpr ⟨pairwise_indices base w, ih _, fun i hi j hj => ?_⟩
    exact Nat.lt_of_lt_of_le (lt_of_mem_indices hi) (le_of_mem_allIndices hj)

private theorem mem_allIndices {base : Nat} {words : List Word} {i : Nat} :
    i ∈ allIndices base words ↔
      base ≤ i ∧ (words.getD ((i - base) / bits) 0).hasBit ((i - base) % bits) = true := by
  induction words generalizing base with
  | nil => simp [allIndices]
  | cons w words ih =>
    rw [allIndices, List.mem_append, mem_indices, ih]
    by_cases hlt : i - base < bits
    · -- the index is one of the first word's, and none of a later word's
      rw [Nat.div_eq_of_lt hlt, Nat.mod_eq_of_lt hlt, List.getD_cons_zero]
      refine or_iff_left fun h => ?_
      have hle := h.1
      omega
    · have hpred : i - base = (i - (base + bits)) + bits := by omega
      have hclear : w.hasBit (i - base) = false := by
        rw [← Bool.not_eq_true]
        exact fun h => hlt (lt_bits_of_hasBit h)
      have hdiv : (i - base) / bits = (i - (base + bits)) / bits + 1 := by
        rw [hpred, Nat.add_div_right _ (by decide)]
      have hmod : (i - base) % bits = (i - (base + bits)) % bits := by
        rw [hpred, Nat.add_mod_right]
      rw [hclear, hdiv, hmod, List.getD_cons_succ]
      have hiff : base + bits ≤ i ↔ base ≤ i := by
        have hpos : 0 < bits := by decide
        omega
      simp [hiff]

end Word

namespace BitSet

namespace Cursor

/-- The members that a cursor has not yet yielded. -/
def left (c : Cursor) : List Nat := Word.allIndices c.base (c.current :: c.rest)

private theorem advance_eq (current : Word) (base : Nat) (rest : List Word) :
    (advance current base rest).1 = (Word.allIndices base (current :: rest)).head? ∧
      (advance current base rest).2.left = (Word.allIndices base (current :: rest)).tail := by
  induction rest generalizing current base with
  | nil =>
    by_cases hzero : current = 0
    · simp [advance, hzero, left, Word.allIndices]
    · simp [advance, hzero, left, Word.allIndices, Word.indices_of_ne_zero hzero]
  | cons w rest ih =>
    by_cases hzero : current = 0
    · have hskip : Word.allIndices base (current :: w :: rest) =
          Word.allIndices (base + Word.bits) (w :: rest) := by
        rw [Word.allIndices, hzero, Word.indices_zero, List.nil_append]
      rw [advance, if_neg (not_not_intro hzero), hskip]
      exact ih w (base + Word.bits)
    · simp [advance, hzero, left, Word.allIndices, Word.indices_of_ne_zero hzero]

/-- A step yields the first of the members that are left. -/
theorem next_fst (c : Cursor) : c.next.1 = c.left.head? := (advance_eq c.current c.base c.rest).1

/-- What a step does not yield is left. -/
theorem left_next (c : Cursor) : c.next.2.left = c.left.tail :=
  (advance_eq c.current c.base c.rest).2

private theorem remaining_eq (c : Cursor) : c.remaining = c.left.length :=
  (Word.length_allIndices c.base (c.current :: c.rest)).symm

/-- Whatever number of steps is taken, each yields the member at its place among those that were
left, and nothing when they are all gone. -/
theorem steps_eq (c : Cursor) (n : Nat) :
    (c.steps n).1 = (List.range n).map (fun k => c.left[k]?) ∧
      (c.steps n).2.left = c.left.drop n := by
  induction n generalizing c with
  | zero => exact ⟨rfl, rfl⟩
  | succ n ih =>
    obtain ⟨hyields, hleaves⟩ := ih c.next.2
    rw [left_next] at hyields hleaves
    constructor
    · rw [steps, hyields, next_fst, List.range_succ_eq_map, List.map_cons, List.map_map,
        List.head?_eq_getElem?]
      simp only [Function.comp_def, List.getElem?_tail]
    · rw [steps, hleaves, List.drop_tail]

private theorem filterMap_steps (c : Cursor) (n : Nat) :
    (c.steps n).1.filterMap id = c.left.take n := by
  rw [(c.steps_eq n).1, List.filterMap_map, Function.id_comp]
  induction n with
  | zero => rfl
  | succ n ih =>
    rw [List.range_succ, List.filterMap_append, ih, List.take_add_one]
    cases hn : c.left[n]? with
    | none => rw [List.filterMap_cons_none hn]; rfl
    | some i => rw [List.filterMap_cons_some hn]; rfl

/-- A cursor yields exactly the members that are left. -/
theorem toList_eq (c : Cursor) : c.toList = c.left := by
  rw [toList, filterMap_steps, remaining_eq, List.take_length]

end Cursor

variable {s : BitSet}

private theorem left_cursor (s : BitSet) : s.cursor.left = Word.allIndices 0 s.words.toList := by
  rw [cursor]
  cases s.words.toList with
  | nil => simp [Cursor.left, Word.allIndices]
  | cons w rest => rfl

/-- The members of a set, gone through from its start. -/
theorem toList_eq (s : BitSet) : s.toList = Word.allIndices 0 s.words.toList := by
  rw [toList, Cursor.toList_eq, left_cursor]

/-- Going through a set yields its members. -/
@[simp] theorem mem_toList {i : Nat} : i ∈ s.toList ↔ i ∈ s := by
  rw [toList_eq, Word.mem_allIndices, mem_iff, word, Nat.sub_zero, and_iff_right (Nat.zero_le i)]
  simp [List.getD_eq_getElem?_getD]

/-- Going through a set yields as many members as it counts. -/
theorem length_toList (s : BitSet) : s.toList.length = s.count := by
  rw [toList_eq, Word.length_allIndices, count]

/-- Going through a set yields its members in ascending order, so none of them twice. -/
theorem pairwise_toList (s : BitSet) : s.toList.Pairwise (· < ·) := by
  rw [toList_eq]
  exact Word.pairwise_allIndices 0 _

/-- A set counts its members. -/
theorem card_toFinset_toList (s : BitSet) : s.toList.toFinset.card = s.count := by
  have hnodup : s.toList.Nodup := s.pairwise_toList.imp Nat.ne_of_lt
  rw [List.toFinset_card_of_nodup hnodup, length_toList]

end BitSet

end ReachingWrites
