import ReachingWrites.BitSet.Basic
import ReachingWrites.Proofs.BitSet.Word

/-!
# The members of a bit set

What the operations on bit sets do is said of their members. `Over n` are the sets with the bound
`n` and as many words as that bound needs. Every operation on one set leads from such sets to such
sets, whatever the other set is, and two of them with the same members are equal, down to their
words.

Sets of one universe are what an analysis works with: `Fits n` are the sets over `n` with no bit
above the bound. They stay among themselves as long as the other set is one of them too.
-/

set_option autoImplicit false

namespace ReachingWrites

namespace BitSet

/-- An index is a member if its bit is set in its word. -/
theorem mem_iff {s : BitSet} {i : Nat} :
    i ∈ s ↔ (s.word (i / Word.bits)).hasBit (i % Word.bits) = true := Iff.rfl

/-! ## Words -/

private theorem word_of_le {s : BitSet} {k : Nat} (h : s.words.size ≤ k) : s.word k = 0 := by
  rw [word, Array.getD_eq_getD_getElem?, Array.getElem?_eq_none h, Option.getD_none]

/-- A word that the set has is read from its place. -/
theorem word_of_lt {s : BitSet} {k : Nat} (h : k < s.words.size) : s.word k = s.words[k] := by
  rw [word, Array.getD_eq_getD_getElem?, Array.getElem?_eq_getElem h, Option.getD_some]

/-- Sets with the same bound and the same words are equal. -/
private theorem eq_of_word {s t : BitSet} (hbound : s.bound = t.bound)
    (hsize : s.words.size = t.words.size) (h : ∀ k, s.word k = t.word k) : s = t := by
  have hwords : s.words = t.words := by
    apply Array.ext hsize
    intro k hk hk'
    rw [← word_of_lt hk, ← word_of_lt hk']
    exact h k
  cases s
  cases t
  simp only at hwords hbound
  rw [hwords, hbound]

private theorem mem_zipIdx_words {s : BitSet} {w : Word} {k : Nat} :
    (w, k) ∈ s.words.toList.zipIdx ↔ k < s.words.size ∧ s.word k = w := by
  rw [List.mem_zipIdx_iff_getElem?, Array.getElem?_toList, Array.getElem?_eq_some_iff]
  constructor
  · rintro ⟨hk, hw⟩
    exact ⟨hk, (word_of_lt hk).trans hw⟩
  · rintro ⟨hk, hw⟩
    exact ⟨hk, (word_of_lt hk).symm.trans hw⟩

private theorem word_union (s t : BitSet) (k : Nat) :
    (s.union t).word k = if k < s.words.size then s.word k ||| t.word k else 0 := by
  simp only [word, union, Array.getD_eq_getD_getElem?, Array.getElem?_mapIdx]
  split
  · rename_i h
    simp [h]
  · rename_i h
    simp [h]

private theorem word_diff (s t : BitSet) (k : Nat) :
    (s.diff t).word k = s.word k &&& ~~~t.word k := by
  simp only [word, diff, Array.getD_eq_getD_getElem?, Array.getElem?_mapIdx]
  by_cases h : k < s.words.size
  · simp [h]
  · simp [h]

/-- A change of one word leaves the other words as they are. -/
private theorem word_modify (s : BitSet) {c : Nat} (h : c < s.words.size) (change : Word → Word)
    (k : Nat) : word { s with words := s.words.modify c change } k =
      if c = k then change (s.word k) else s.word k := by
  simp only [word, Array.getD_eq_getD_getElem?, Array.getElem?_modify]
  split
  · rename_i hk
    subst hk
    simp [h]
  · rfl

private theorem word_insert {s : BitSet} {i : Nat} (h : i < s.bound)
    (hwords : i / Word.bits < s.words.size) (k : Nat) : (s.insert i).word k =
      if i / Word.bits = k then s.word k ||| Word.single (i % Word.bits) else s.word k := by
  rw [insert, if_pos h]
  exact word_modify s hwords _ k

private theorem word_erase {s : BitSet} {i : Nat} (h : i < s.bound)
    (hwords : i / Word.bits < s.words.size) (k : Nat) : (s.erase i).word k =
      if i / Word.bits = k then s.word k &&& ~~~Word.single (i % Word.bits) else s.word k := by
  rw [erase, if_pos h]
  exact word_modify s hwords _ k

/-- The word of a member is one of the set's words. -/
theorem div_lt_of_mem {s : BitSet} {i : Nat} (h : i ∈ s) : i / Word.bits < s.words.size := by
  apply Nat.lt_of_not_le
  intro hle
  rw [mem_iff, word_of_le hle, Word.hasBit_zero] at h
  cases h

private theorem mod_bits_lt (i : Nat) : i % Word.bits < Word.bits := Nat.mod_lt i (by decide)

/-- Among the indices of one word, an index is told by its bit. -/
private theorem mod_eq_iff_of_div_eq {i j : Nat} (h : i / Word.bits = j / Word.bits) :
    j % Word.bits = i % Word.bits ↔ j = i := by
  constructor
  · intro hmod
    rw [← Nat.div_add_mod j Word.bits, hmod, ← h, Nat.div_add_mod]
  · intro heq
    rw [heq]

/-- The bit of a word is that of the index it stands for. -/
theorem mem_word {s : BitSet} {k b : Nat} (hb : b < Word.bits) :
    Word.bits * k + b ∈ s ↔ (s.word k).hasBit b = true := by
  have hdiv : (Word.bits * k + b) / Word.bits = k := by
    rw [Nat.mul_add_div (by decide), Nat.div_eq_of_lt hb, Nat.add_zero]
  have hmod : (Word.bits * k + b) % Word.bits = b := by
    rw [Nat.mul_add_mod, Nat.mod_eq_of_lt hb]
  rw [mem_iff, hdiv, hmod]

/-! ## Members -/

/-- The empty set has no members. -/
theorem notMem_empty (n i : Nat) : i ∉ empty n := by
  intro h
  rw [mem_iff, word, empty, Array.getD_eq_getD_getElem?, Array.getElem?_replicate] at h
  split at h
  · rw [Option.getD_some, Word.hasBit_zero] at h
    cases h
  · rw [Option.getD_none, Word.hasBit_zero] at h
    cases h

/-- A union has the members of both sets, of the second one only those that the first one has a word
for. -/
theorem mem_union {s t : BitSet} {i : Nat} :
    i ∈ s.union t ↔ i ∈ s ∨ (i ∈ t ∧ i / Word.bits < s.words.size) := by
  rw [mem_iff, word_union]
  split
  · rename_i h
    rw [Word.hasBit_or, Bool.or_eq_true, ← mem_iff, ← mem_iff]
    simp [h]
  · rename_i h
    rw [Word.hasBit_zero]
    have hs : i ∉ s := fun hm => h (div_lt_of_mem hm)
    simp [h, hs]

/-- A difference has the members of the first set that are not members of the second. -/
theorem mem_diff {s t : BitSet} {i : Nat} : i ∈ s.diff t ↔ i ∈ s ∧ i ∉ t := by
  rw [mem_iff, word_diff, Word.hasBit_and_not, Bool.and_eq_true, ← mem_iff, mem_iff (s := t)]
  simp

/-- The test for a subset is right for any two sets. -/
theorem isSubset_eq_true {s t : BitSet} : s.isSubset t = true ↔ ∀ i ∈ s, i ∈ t := by
  rw [isSubset, List.all_eq_true]
  constructor
  · intro h i hi
    have hzero := beq_iff_eq.mp (h _ (mem_zipIdx_words.mpr ⟨div_lt_of_mem hi, rfl⟩))
    have hbit := Word.eq_zero_iff.mp hzero (i % Word.bits)
    rw [Word.hasBit_and_not, mem_iff.mp hi, Bool.true_and, Bool.not_eq_false'] at hbit
    exact hbit
  · intro h e hmem
    obtain ⟨w, k⟩ := e
    obtain ⟨-, hword⟩ := mem_zipIdx_words.mp hmem
    rw [beq_iff_eq, ← hword]
    apply Word.eq_of_hasBit
    intro b hb
    rw [Word.hasBit_and_not, Word.hasBit_zero]
    have hsub := h (Word.bits * k + b)
    rw [mem_word hb, mem_word hb] at hsub
    cases hbit : (s.word k).hasBit b with
    | false => rfl
    | true => rw [hsub hbit]; rfl

/-- The test for emptiness is right for any set. -/
theorem isEmpty_eq_true {s : BitSet} : s.isEmpty = true ↔ ∀ i, i ∉ s := by
  rw [isEmpty, List.all_eq_true]
  constructor
  · intro h i hi
    have hlt := div_lt_of_mem hi
    have hzero := beq_iff_eq.mp (h _ (Array.getElem_mem_toList hlt))
    rw [mem_iff, word_of_lt hlt, hzero, Word.hasBit_zero] at hi
    cases hi
  · intro h w hw
    obtain ⟨k, hk, rfl⟩ := List.mem_iff_getElem.mp hw
    rw [Array.length_toList] at hk
    rw [beq_iff_eq, Array.getElem_toList, ← word_of_lt hk]
    apply Word.eq_of_hasBit
    intro b hb
    rw [Word.hasBit_zero, ← Bool.not_eq_true, ← mem_word hb]
    exact h _

/-- Some word gains a bit exactly when the union is another set. -/
theorem gains_eq_true {s t : BitSet} : s.gains t = true ↔ s.union t ≠ s := by
  rw [gains, List.any_eq_true]
  constructor
  · rintro ⟨⟨w, k⟩, hmem, hgain⟩ heq
    obtain ⟨hk, rfl⟩ := mem_zipIdx_words.mp hmem
    have hword := congrArg (word · k) heq
    simp only [word_union, if_pos hk] at hword
    exact bne_iff_ne.mp hgain hword
  · intro hne
    refine Classical.byContradiction fun hnone => hne (eq_of_word rfl Array.size_mapIdx fun k => ?_)
    rw [word_union]
    split
    · rename_i hk
      refine Classical.byContradiction fun hgain => hnone ⟨(s.word k, k), ?_, bne_iff_ne.mpr hgain⟩
      exact mem_zipIdx_words.mpr ⟨hk, rfl⟩
    · rename_i hk
      exact (word_of_le (Nat.le_of_not_lt hk)).symm

/-! ## Sets over a universe -/

/-- The set has the bound `n` and as many words as that bound needs. -/
structure Over (n : Nat) (s : BitSet) : Prop where
  bound : s.bound = n
  size : s.words.size = wordCount n

private theorem div_lt_wordCount {n i : Nat} (h : i < n) : i / Word.bits < wordCount n := by
  simp only [wordCount, Word.bits]
  omega

section Over

variable {n : Nat} {s t : BitSet}

/-- The empty set is over its universe. -/
theorem over_empty (n : Nat) : Over n (empty n) := ⟨rfl, Array.size_replicate⟩

/-- An insertion leads to a set over the same universe. -/
theorem Over.insert (hs : Over n s) (i : Nat) : Over n (s.insert i) := by
  rw [BitSet.insert]
  split
  · exact ⟨hs.bound, Array.size_modify.trans hs.size⟩
  · exact hs

/-- A removal leads to a set over the same universe. -/
theorem Over.erase (hs : Over n s) (i : Nat) : Over n (s.erase i) := by
  rw [BitSet.erase]
  split
  · exact ⟨hs.bound, Array.size_modify.trans hs.size⟩
  · exact hs

/-- A union is over the universe of its first set. -/
theorem Over.union (hs : Over n s) (t : BitSet) : Over n (s.union t) :=
  ⟨hs.bound, Array.size_mapIdx.trans hs.size⟩

/-- A difference is over the universe of its first set. -/
theorem Over.diff (hs : Over n s) (t : BitSet) : Over n (s.diff t) :=
  ⟨hs.bound, Array.size_mapIdx.trans hs.size⟩

/-- The word of an index below the bound is there. -/
theorem Over.div_lt_size (hs : Over n s) {i : Nat} (hi : i < n) : i / Word.bits < s.words.size := by
  rw [hs.size]
  exact div_lt_wordCount hi

/-- An insertion adds the index if it is below the bound, and nothing else. -/
theorem Over.mem_insert (hs : Over n s) {i j : Nat} :
    j ∈ s.insert i ↔ j ∈ s ∨ (j = i ∧ i < n) := by
  by_cases hi : i < n
  · rw [mem_iff, word_insert (hs.bound.symm ▸ hi) (hs.div_lt_size hi), and_iff_left hi]
    split
    · rename_i hword
      rw [Word.hasBit_or, Bool.or_eq_true, ← mem_iff, Word.hasBit_single (mod_bits_lt i),
        decide_eq_true_iff, mod_eq_iff_of_div_eq hword]
    · rename_i hword
      rw [← mem_iff]
      exact (or_iff_left fun heq => hword (by rw [heq])).symm
  · have hbound : ¬ i < s.bound := hs.bound.symm ▸ hi
    rw [BitSet.insert, if_neg hbound]
    exact (or_iff_left fun h => hi h.2).symm

/-- A removal takes the index away if it is below the bound, and nothing else. -/
theorem Over.mem_erase (hs : Over n s) {i j : Nat} :
    j ∈ s.erase i ↔ j ∈ s ∧ ¬ (j = i ∧ i < n) := by
  by_cases hi : i < n
  · rw [mem_iff, word_erase (hs.bound.symm ▸ hi) (hs.div_lt_size hi), and_iff_left hi]
    split
    · rename_i hword
      rw [Word.hasBit_and_not, Bool.and_eq_true, ← mem_iff, Word.hasBit_single (mod_bits_lt i),
        Bool.not_eq_true', decide_eq_false_iff_not, mod_eq_iff_of_div_eq hword]
    · rename_i hword
      rw [← mem_iff]
      exact (and_iff_left fun heq => hword (by rw [heq])).symm
  · have hbound : ¬ i < s.bound := hs.bound.symm ▸ hi
    rw [BitSet.erase, if_neg hbound]
    exact (and_iff_left fun h => hi h.2).symm

/-- A union has the members of either set, if both are over one universe. -/
theorem Over.mem_union (hs : Over n s) (ht : Over n t) {i : Nat} :
    i ∈ s.union t ↔ i ∈ s ∨ i ∈ t := by
  rw [BitSet.mem_union]
  refine or_congr_right (and_iff_left_of_imp fun hi => ?_)
  rw [hs.size, ← ht.size]
  exact div_lt_of_mem hi

/-- Two sets over one universe with the same members are the same words. -/
theorem Over.ext (hs : Over n s) (ht : Over n t) (h : ∀ i, i ∈ s ↔ i ∈ t) : s = t := by
  apply eq_of_word (hs.bound.trans ht.bound.symm) (hs.size.trans ht.size.symm)
  intro k
  apply Word.eq_of_hasBit
  intro b hb
  rw [Bool.eq_iff_iff, ← mem_word hb, ← mem_word hb]
  exact h _

end Over

/-! ## Sets of one universe -/

/-- The set ranges over the indices below `n`. -/
structure Fits (n : Nat) (s : BitSet) : Prop where
  bound : s.bound = n
  size : s.words.size = wordCount n
  /-- No bit is set above the bound. -/
  lt : ∀ {i : Nat}, i ∈ s → i < n

section Fits

variable {n : Nat} {s t : BitSet}

/-- A set of a universe is over it. -/
theorem Fits.over (hs : Fits n s) : Over n s := ⟨hs.bound, hs.size⟩

/-- A set over a universe is of it if no member lies above the bound. -/
theorem Over.fits (hs : Over n s) (hlt : ∀ i ∈ s, i < n) : Fits n s := ⟨hs.bound, hs.size, hlt _⟩

/-- The empty set is of its universe. -/
theorem fits_empty (n : Nat) : Fits n (empty n) :=
  (over_empty n).fits fun i h => absurd h (notMem_empty n i)

/-- Of sets of one universe the union has the members of both. -/
theorem Fits.mem_union (hs : Fits n s) (ht : Fits n t) {i : Nat} :
    i ∈ s.union t ↔ i ∈ s ∨ i ∈ t := hs.over.mem_union ht.over

/-- A union of sets of one universe is of it. -/
theorem Fits.union (hs : Fits n s) (ht : Fits n t) : Fits n (s.union t) :=
  (hs.over.union t).fits fun _ hi => ((hs.mem_union ht).mp hi).elim hs.lt ht.lt

/-- A difference is of the universe of its first set. -/
theorem Fits.diff (hs : Fits n s) (t : BitSet) : Fits n (s.diff t) :=
  (hs.over.diff t).fits fun _ hi => hs.lt (mem_diff.mp hi).1

/-- An insertion adds the index if it is below the bound, and nothing else. -/
theorem Fits.mem_insert (hs : Fits n s) {i j : Nat} :
    j ∈ s.insert i ↔ j ∈ s ∨ (j = i ∧ i < n) := hs.over.mem_insert

/-- An insertion leads to a set of the same universe. -/
theorem Fits.insert (hs : Fits n s) (i : Nat) : Fits n (s.insert i) :=
  (hs.over.insert i).fits fun _ hj => (hs.mem_insert.mp hj).elim hs.lt fun h => h.1 ▸ h.2

private theorem Fits.foldl_insert (hs : Fits n s) (indices : List Nat) :
    Fits n (indices.foldl BitSet.insert s) ∧
      ∀ j, j ∈ indices.foldl BitSet.insert s ↔ j ∈ s ∨ (j ∈ indices ∧ j < n) := by
  induction indices generalizing s with
  | nil => exact ⟨hs, by simp⟩
  | cons i indices ih =>
    obtain ⟨hfits, hmem⟩ := ih (hs.insert i)
    refine ⟨hfits, ?_⟩
    intro j
    rw [List.foldl_cons, hmem, hs.mem_insert, List.mem_cons]
    constructor
    · intro h
      rcases h with (hj | ⟨rfl, hj⟩) | ⟨hj, hlt⟩
      · exact .inl hj
      · exact .inr ⟨.inl rfl, hj⟩
      · exact .inr ⟨.inr hj, hlt⟩
    · intro h
      rcases h with hj | ⟨rfl | hj, hlt⟩
      · exact .inl (.inl hj)
      · exact .inl (.inr ⟨rfl, hlt⟩)
      · exact .inr ⟨hj, hlt⟩

/-- A set built from indices is of its universe. -/
theorem fits_ofIndices (n : Nat) (indices : List Nat) : Fits n (ofIndices n indices) :=
  ((fits_empty n).foldl_insert indices).1

/-- A set built from indices has those below the bound. -/
theorem mem_ofIndices {indices : List Nat} {j : Nat} :
    j ∈ ofIndices n indices ↔ j ∈ indices ∧ j < n := by
  rw [ofIndices, ((fits_empty n).foldl_insert indices).2]
  exact or_iff_right (notMem_empty n j)

/-- The test for a member is right for a set of a universe. -/
theorem Fits.contains_eq_true (hs : Fits n s) {i : Nat} : s.contains i = true ↔ i ∈ s := by
  rw [contains, Bool.and_eq_true, decide_eq_true_iff]
  exact and_iff_right_of_imp fun hi => hs.bound.symm ▸ hs.lt hi

/-- Two sets of one universe with the same members are the same words. -/
theorem Fits.ext (hs : Fits n s) (ht : Fits n t) (h : ∀ i, i ∈ s ↔ i ∈ t) : s = t :=
  hs.over.ext ht.over h

end Fits

end BitSet

end ReachingWrites
