import ReachingWrites.Proofs.BitSet.Cursor
import ReachingWrites.Proofs.FlowLattice

/-!
# Bit sets flow

Among the sets of one universe, inclusion is a partial order and a union is a least upper bound. A
set grows only by gaining a member, so from the empty set it grows no more often than the universe
has indices.
-/

set_option autoImplicit false

namespace ReachingWrites

open FlowLattice (leq join joinAll LawfulOn Ascent RankedOn)

namespace BitSet

/-- A set is below another one if its members are all members of that. -/
theorem leq_eq_true {s t : BitSet} : leq s t = true ↔ ∀ i ∈ s, i ∈ t := isSubset_eq_true

/-- The members of a join are those of both sets. -/
theorem Fits.mem_join {n : Nat} {s t : BitSet} (hs : Fits n s) (ht : Fits n t) {i : Nat} :
    i ∈ join s t ↔ i ∈ s ∨ i ∈ t := hs.mem_union ht

/-- Among the sets of one universe the operations have the laws. -/
theorem lawfulOn_fits (n : Nat) : LawfulOn (Fits n) where
  refl _ := leq_eq_true.mpr fun _ hi => hi
  trans _ _ _ hst htu := leq_eq_true.mpr fun i hi => leq_eq_true.mp htu i (leq_eq_true.mp hst i hi)
  antisymm hs ht hst hts :=
    hs.ext ht fun i => ⟨leq_eq_true.mp hst i, leq_eq_true.mp hts i⟩
  mem_join hs ht := hs.union ht
  left hs ht := leq_eq_true.mpr fun _ hi => (hs.mem_join ht).mpr (.inl hi)
  right hs ht := leq_eq_true.mpr fun _ hi => (hs.mem_join ht).mpr (.inr hi)
  least hs ht _ hsu htu := leq_eq_true.mpr fun i hi =>
    ((hs.mem_join ht).mp hi).elim (leq_eq_true.mp hsu i) (leq_eq_true.mp htu i)

/-- A join of sets has the members of all of them. -/
theorem Fits.mem_joinAll {n : Nat} {s : BitSet} (hs : s.Fits n) {values : List BitSet}
    (hvalues : ∀ t ∈ values, t.Fits n) {i : Nat} :
    i ∈ joinAll s values ↔ i ∈ s ∨ ∃ t ∈ values, i ∈ t := by
  induction values generalizing s with
  | nil => simp [joinAll]
  | cons t values ih =>
    have ht := hvalues t List.mem_cons_self
    have hrest : ∀ u ∈ values, u.Fits n := fun u hu => hvalues u (List.mem_cons_of_mem t hu)
    have hjoin : i ∈ joinAll (FlowLattice.join s t) values ↔ _ :=
      ih (hs.union ht) hrest
    rw [show joinAll s (t :: values) =
      joinAll (FlowLattice.join s t) values from rfl, hjoin, hs.mem_join ht]
    simp only [List.mem_cons, exists_eq_or_imp, or_assoc]

/-! ## Height -/

/-- A set of one universe has no more members than the universe has indices. -/
theorem Fits.count_le {n : Nat} {s : BitSet} (hs : Fits n s) : s.count ≤ n := by
  have hsubset : s.toList.toFinset ⊆ Finset.range n := by
    intro i hi
    rw [List.mem_toFinset, mem_toList] at hi
    exact Finset.mem_range.mpr (hs.lt hi)
  calc s.count = s.toList.toFinset.card := s.card_toFinset_toList.symm
    _ ≤ (Finset.range n).card := Finset.card_le_card hsubset
    _ = n := Finset.card_range n

/-- A set that has become greater has gained a member. -/
theorem Fits.count_lt_count {n : Nat} {s t : BitSet} (hs : Fits n s) (ht : Fits n t)
    (above : leq s t = true) (other : s ≠ t) : s.count < t.count := by
  rw [← card_toFinset_toList, ← card_toFinset_toList]
  apply Finset.card_lt_card
  rw [Finset.ssubset_iff_subset_ne]
  constructor
  · intro i hi
    rw [List.mem_toFinset, mem_toList] at hi ⊢
    exact leq_eq_true.mp above i hi
  · intro heq
    apply other
    apply hs.ext ht
    intro i
    rw [← mem_toList, ← mem_toList, ← List.mem_toFinset, heq, List.mem_toFinset]

/-- Sets of one universe are ranked by their numbers of members, up to the bound. -/
theorem rankedOn_fits (n : Nat) : RankedOn (Fits n) count n where
  rank_le := Fits.count_le
  rank_lt := Fits.count_lt_count

/-- A set over `n` indices grows at most `n` times. -/
theorem ascent_le {n count : Nat} {s : BitSet} (h : Ascent (Fits n) (empty n) count s) :
    count ≤ n :=
  (rankedOn_fits n).ascent_le (fits_empty n) h

/-! ## All laws -/

/-- The union tells that it grew exactly when the second set was not below the first. -/
theorem Fits.unionGrown_eq {n : Nat} {s t : BitSet} (hs : Fits n s) (ht : Fits n t) :
    s.unionGrown t = (join s t, !leq t s) := by
  have hgains : s.gains t = !leq t s := by
    rw [Bool.eq_iff_iff, gains_eq_true, Bool.not_eq_true', ← Bool.not_eq_true]
    exact not_congr ((lawfulOn_fits n).join_eq_left_iff hs ht)
  rw [unionGrown, hgains]
  rfl

/-- The sets of the universe below `n` are values that flow, of a height of `n`. -/
structure FlowsOver (n : Nat) : Prop where
  lawful : LawfulOn (Fits n)
  fits_empty : Fits n (empty n)
  empty_leq {s : BitSet} : Fits n s → leq (empty n) s = true
  join_self {s : BitSet} : Fits n s → join s s = s
  join_comm {s t : BitSet} : Fits n s → Fits n t → join s t = join t s
  join_assoc {s t u : BitSet} : Fits n s → Fits n t → Fits n u →
    join (join s t) u = join s (join t u)
  /-- The union in place leaves the join, and tells whether the second set was not below. -/
  unionGrown_eq {s t : BitSet} : Fits n s → Fits n t → s.unionGrown t = (join s t, !leq t s)
  count_lt {s t : BitSet} : Fits n s → Fits n t → leq s t = true → s ≠ t →
    s.count < t.count ∧ t.count ≤ n
  /-- From whatever set it starts, a set grows at most `n` times. -/
  ascent_le {s t : BitSet} {count : Nat} : Fits n s → Ascent (Fits n) s count t → count ≤ n

/-- Among the sets of one universe, inclusion is a partial order with the empty set at its bottom,
and equal is what is below each other. The union in place leaves a least upper bound and tells
whether it changed the set. A set that grows has more members than before, and never more than the
universe has indices; so it grows no more often than that. -/
theorem flowsOver (n : Nat) : FlowsOver n where
  lawful := lawfulOn_fits n
  fits_empty := BitSet.fits_empty n
  empty_leq _ := leq_eq_true.mpr fun i hi => absurd hi (notMem_empty n i)
  join_self hs := (lawfulOn_fits n).join_self hs
  join_comm hs ht := (lawfulOn_fits n).join_comm hs ht
  join_assoc hs ht hu := (lawfulOn_fits n).join_assoc hs ht hu
  unionGrown_eq := Fits.unionGrown_eq
  count_lt hs ht above other := ⟨hs.count_lt_count ht above other, ht.count_le⟩
  ascent_le := (rankedOn_fits n).ascent_le

/-- In a universe that ends within its second word, a set of the last two indices is joined with one
of the first and the last, and the join grows by one more. -/
theorem lastBits_flow :
    let s := ofIndices 66 [64, 65]
    let t := ofIndices 66 [0, 65]
    Fits 66 s ∧ Fits 66 t ∧ s.unionGrown t = (join s t, !leq t s) ∧ leq t s = false ∧
      join s t = join t s ∧ s.count < (join s t).count ∧ (join s t).count = 3 ∧
        Ascent (Fits 66) s 1 (join s t) := by
  intro s t
  have hs : Fits 66 s := fits_ofIndices 66 [64, 65]
  have ht : Fits 66 t := fits_ofIndices 66 [0, 65]
  have hlaws := flowsOver 66
  have hjoin := hlaws.lawful.mem_join hs ht
  have above := hlaws.lawful.left hs ht
  have other : s ≠ join s t := by decide
  exact ⟨hs, ht, hlaws.unionGrown_eq hs ht, by decide, hlaws.join_comm hs ht,
    (hlaws.count_lt hs hjoin above other).1, by decide, .grow .stay hjoin above other⟩

end BitSet

end ReachingWrites
