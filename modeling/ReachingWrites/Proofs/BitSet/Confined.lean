import ReachingWrites.Proofs.BitSet.Refinement

/-!
# Sets that keep to their universe

A set is confined if no bit above its bound is set. Then `contains` knows all members: it finds as
many as the set counts, and the set is empty exactly when it finds none. A new set is confined, and a
set stays so when an index is inserted or erased and when another set is taken away.

A union need not keep a set confined, for it takes over whole words. It can bring a bit above the
bound only from a set of a greater universe, and only if the last word of the first set reaches above
its own bound, which it does unless the bound is a multiple of the size of a word. For any other two
universes every union is safe, whatever the operations were that made the two sets.
-/

set_option autoImplicit false

namespace ReachingWrites

namespace BitSet

/-- What `contains` finds is all that a set holds. -/
structure Confined (s : BitSet) : Prop where
  lt : ∀ i, s.Yields i → i < s.bound
  count : ∃ found : Finset Nat, (∀ i, i ∈ found ↔ s.contains i = true) ∧ s.count = found.card
  isEmpty : s.isEmpty = true ↔ ∀ i, s.contains i = false

/-- A set with no bit above its bound is found by `contains`, member by member. -/
theorem Fits.confined {s : BitSet} (hs : s.Fits s.bound) : s.Confined where
  lt i hi := hs.lt (yields_iff.mp hi)
  count := by
    obtain ⟨members, hmem, hcount⟩ := s.exists_members
    refine ⟨members, fun i => ?_, hcount⟩
    rw [hmem, yields_iff, hs.contains_eq_true]
  isEmpty := by
    simp only [isEmpty_eq_true, ← hs.contains_eq_true, Bool.not_eq_true]

/-! ## Unions of two universes -/

/-- The words that a bound needs reach up to the bound and no further. -/
private theorem lt_of_div_lt_wordCount {n i : Nat} (hn : Word.bits ∣ n)
    (hi : i / Word.bits < wordCount n) : i < n := by
  simp only [wordCount, Word.bits] at hn hi
  omega

/-- The last word reaches above a bound in its middle. -/
private theorem div_lt_wordCount_self {n : Nat} (hn : ¬ Word.bits ∣ n) :
    n / Word.bits < wordCount n := by
  simp only [wordCount, Word.bits] at hn ⊢
  omega

/-- No union of a set with this bound and a set with the other one brings a bit above the bound. -/
def Shields (bound other : Nat) : Prop := other ≤ bound ∨ Word.bits ∣ bound

private theorem Fits.union_of_shields {n m : Nat} {s t : BitSet} (hs : s.Fits n) (ht : t.Fits m)
    (h : Shields n m) : (s.union t).Fits n := by
  refine (hs.over.union t).fits fun i hi => ?_
  rcases BitSet.mem_union.mp hi with hi | ⟨hi, hword⟩
  · exact hs.lt hi
  · rw [hs.size] at hword
    rcases h with hle | hdvd
    · exact (ht.lt hi).trans_le hle
    · exact lt_of_div_lt_wordCount hdvd hword

/-- Where a union can bring a bit above the bound, one does: the bit of the bound itself. -/
private theorem yields_bound_of_not_shields {n m : Nat} (h : ¬ Shields n m) :
    ((empty n).unionGrown (ofIndices m [n])).1.Yields n := by
  obtain ⟨hlt, hdvd⟩ := not_or.mp h
  rw [yields_iff]
  refine mem_union.mpr (.inr ⟨mem_ofIndices.mpr ⟨List.mem_singleton_self n, Nat.lt_of_not_le hlt⟩, ?_⟩)
  rw [(over_empty n).size]
  exact div_lt_wordCount_self hdvd

/-! ## All operations -/

/-- The sets that the operations make if unions are taken only of sets whose bounds are allowed. -/
inductive BuiltUnder (allowed : Nat → Nat → Prop) : BitSet → Prop where
  | empty (bound : Nat) : BuiltUnder allowed (empty bound)
  | ofIndices (bound : Nat) (indices : List Nat) : BuiltUnder allowed (ofIndices bound indices)
  | insert {s : BitSet} (hs : BuiltUnder allowed s) (i : Nat) : BuiltUnder allowed (s.insertNew i).1
  | erase {s : BitSet} (hs : BuiltUnder allowed s) (i : Nat) : BuiltUnder allowed (s.eraseOld i).1
  | union {s t : BitSet} (hs : BuiltUnder allowed s) (ht : BuiltUnder allowed t)
      (fine : allowed s.bound t.bound) : BuiltUnder allowed (s.unionGrown t).1
  | diff {s t : BitSet} (hs : BuiltUnder allowed s) (ht : BuiltUnder allowed t) :
      BuiltUnder allowed (s.diff t)

/-- If no union brings a bit above the bound, no operation does. -/
theorem BuiltUnder.fits {allowed : Nat → Nat → Prop}
    (shielded : ∀ bound other, allowed bound other → Shields bound other) {s : BitSet}
    (h : BuiltUnder allowed s) : s.Fits s.bound := by
  induction h with
  | empty bound => exact fits_empty bound
  | ofIndices bound indices =>
    have hfits := fits_ofIndices bound indices
    rwa [hfits.bound]
  | @insert s _ i ih =>
    have hfits := ih.insert i
    rwa [← hfits.bound] at hfits
  | @erase s _ i ih =>
    have hover := ih.over.erase i
    have hfits := hover.fits fun j hj => ih.lt (ih.over.mem_erase.mp hj).1
    rwa [← hfits.bound] at hfits
  | union _ _ fine ihs iht => exact ihs.union_of_shields iht (shielded _ _ fine)
  | @diff _ t _ _ ihs _ => exact ihs.diff t

/-- All sets that the operations make are confined to their universes exactly if unions are taken only
where the second universe is not the greater one or the first one ends with a word. Where unions of
two other universes are taken too, a set comes to yield an index that is not below its bound, and
which `contains` does not find. -/
theorem builtUnder_confined_iff (allowed : Nat → Nat → Prop) :
    (∀ s, BuiltUnder allowed s → s.Confined) ↔
      ∀ bound other, allowed bound other → other ≤ bound ∨ Word.bits ∣ bound := by
  constructor
  · intro h bound other fine
    by_contra hnot
    have hofIndices := (fits_ofIndices other [bound]).bound
    have hbuilt : BuiltUnder allowed ((empty bound).unionGrown (ofIndices other [bound])).1 :=
      .union (.empty bound) (.ofIndices other [bound]) (by rwa [hofIndices])
    exact Nat.lt_irrefl bound ((h _ hbuilt).lt bound (yields_bound_of_not_shields hnot))
  · intro shielded s h
    exact (h.fits shielded).confined

/-- A set of one index takes over the second index of a set of two. Its bit is counted and `contains`
does not find it. -/
theorem strayBit_not_confined :
    let s := ((empty 1).unionGrown (ofIndices 2 [1])).1
    s.Built ∧ s.bound = 1 ∧ s.toList = [1] ∧ s.count = 1 ∧ s.contains 1 = false ∧ ¬ s.Confined := by
  intro s
  refine ⟨.union (.empty 1) (.ofIndices 2 [1]), rfl, by decide, by decide, by decide, fun h => ?_⟩
  have hyields : s.Yields 1 := yields_iff.mpr (by decide)
  exact absurd (h.lt 1 hyields) (by decide)

end BitSet

end ReachingWrites
