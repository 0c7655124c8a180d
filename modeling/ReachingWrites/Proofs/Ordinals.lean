import ReachingWrites.Ordinals
import ReachingWrites.Proofs.Repeats
import ReachingWrites.Proofs.Table

/-!
# Ordinals lead both ways

The row of the values leads from an index to its value and the table from a value to its index, and
each undoes the other. Adding a value leaves the row and the table as they are or adds to the end of
both, so what has an index keeps it.

`Ordinals.addAll` adds one value after another. Afterwards the ordinals number the distinct values in
the order in which they first came, and each value was told the index that it has now.
-/

set_option autoImplicit false

namespace ReachingWrites

namespace Ordinals

variable {α : Type}

/-- The row decides, for the table has nothing of its own. -/
theorem eq_of_values_eq {o o' : Ordinals α} (h : o.values = o'.values) : o = o' := by
  obtain ⟨values, indices, entries, nodup⟩ := o
  obtain ⟨values', indices', entries', nodup'⟩ := o'
  cases h
  have hindices : indices = indices' := by
    obtain ⟨own⟩ := indices
    obtain ⟨own'⟩ := indices'
    exact congrArg Table.mk (entries.trans entries'.symm)
  cases hindices
  rfl

private theorem map_fst_toList (o : Ordinals α) : o.toList.map Prod.fst = List.range o.size := by
  rw [toList, List.map_map, List.range_eq_range', size, ← Array.length_toList]
  exact List.zipIdx_map_snd 0 o.values.toList

private theorem map_snd_toList (o : Ordinals α) : o.toList.map Prod.snd = o.values.toList := by
  rw [toList, List.map_map]
  exact List.zipIdx_map_fst 0 o.values.toList

variable [DecidableEq α]

/-- The index of a value is its place. -/
theorem indexOf?_eq_some {o : Ordinals α} {v : α} {i : Nat} :
    o.indexOf? v = some i ↔ o.get? i = some v := by
  have hnodup : o.indices.keys.Nodup := o.keys_indices ▸ o.nodup
  rw [indexOf?, Table.find?_eq_some hnodup, o.entries_indices, List.mk_mem_zipIdx_iff_getElem?,
    Array.getElem?_toList, get?]

/-! ## Adding a value -/

private theorem add_of_indexOf? {o : Ordinals α} {v : α} {i : Nat} (h : o.indexOf? v = some i) :
    o.add v = (o, i) := by
  unfold add
  split
  next j hj => rw [Option.some.inj (hj.symm.trans h)]
  next hnone => cases hnone.symm.trans h

/-- A new value goes to the end, and its index is the number of those before. -/
theorem add_of_new {o : Ordinals α} {v : α} (new : o.indexOf? v = none) :
    o.add v = (o.append v new, o.size) := by
  unfold add
  split
  next i hi => cases hi.symm.trans new
  next => rfl

/-- An added value goes to the end if it is new. -/
theorem toList_values_add (o : Ordinals α) (v : α) : (o.add v).1.values.toList =
    if v ∈ o.values.toList then o.values.toList else o.values.toList ++ [v] := by
  cases h : o.indexOf? v with
  | some i =>
    have hmem : v ∈ o.values.toList := by
      by_contra hnot
      rw [indexOf?_eq_none.mpr hnot] at h
      cases h
    rw [add_of_indexOf? h, if_pos hmem]
  | none => rw [add_of_new h, if_neg (indexOf?_eq_none.mp h), append, Array.toList_push]

/-- A value has the index that it was told when it was added. -/
theorem indexOf?_add_self (o : Ordinals α) (v : α) :
    (o.add v).1.indexOf? v = some (o.add v).2 := by
  cases h : o.indexOf? v with
  | some i => rw [add_of_indexOf? h, h]
  | none =>
    rw [add_of_new h, indexOf?_eq_some, get?, append]
    exact Array.getElem?_push_size

/-- What is at an index stays there. -/
theorem get?_add {o : Ordinals α} {i : Nat} {w : α} (h : o.get? i = some w) (v : α) :
    (o.add v).1.get? i = some w := by
  unfold get? at h ⊢
  rw [← Array.getElem?_toList] at h ⊢
  rw [toList_values_add]
  split
  · exact h
  · rw [List.getElem?_append_left (List.getElem?_eq_some_iff.mp h).1, h]

/-! ## Adding many values -/

/-- Adds values one after another; yields the index that each was told. -/
def addAll (o : Ordinals α) : List α → Ordinals α × List Nat
  | [] => (o, [])
  | v :: vs => (((o.add v).1.addAll vs).1, (o.add v).2 :: ((o.add v).1.addAll vs).2)

private theorem addAll_append (o : Ordinals α) (vs ws : List α) :
    (o.addAll (vs ++ ws)).1 = ((o.addAll vs).1.addAll ws).1 := by
  induction vs generalizing o with
  | nil => rfl
  | cons v vs ih => exact ih (o.add v).1

/-- What is at an index stays there under all values that are added. -/
theorem get?_addAll {o : Ordinals α} {i : Nat} {w : α} (h : o.get? i = some w) (vs : List α) :
    (o.addAll vs).1.get? i = some w := by
  induction vs generalizing o with
  | nil => exact h
  | cons v vs ih => exact ih (get?_add h v)

/-- A value keeps its index. -/
theorem indexOf?_addAll {o : Ordinals α} {i : Nat} {w : α} (h : o.indexOf? w = some i)
    (vs : List α) : (o.addAll vs).1.indexOf? w = some i :=
  indexOf?_eq_some.mpr (get?_addAll (indexOf?_eq_some.mp h) vs)

/-- Each value was told the index that it has when all have been added. -/
theorem map_some_addAll (o : Ordinals α) (vs : List α) :
    (o.addAll vs).2.map some = vs.map (o.addAll vs).1.indexOf? := by
  induction vs generalizing o with
  | nil => rfl
  | cons v vs ih =>
    rw [addAll, List.map_cons, List.map_cons, ih, indexOf?_addAll (o.indexOf?_add_self v)]

/-- The distinct values stand in the row in the order in which they first came. -/
theorem toList_values_addAll (vs : List α) :
    ((empty : Ordinals α).addAll vs).1.values.toList = vs.eraseDups := by
  induction vs using List.reverseRecOn with
  | nil => rfl
  | append_singleton vs v ih =>
    rw [addAll_append, addAll, addAll, toList_values_add, ih, eraseDups_concat]
    simp only [List.mem_eraseDups]

/-! ## The distinct values numbered -/

/-- The ordinals number the distinct values of a list in the order in which they first stand in it,
from value to index and back. -/
structure Numbers (o : Ordinals α) (vs : List α) : Prop where
  /-- The values are listed in the order of their first occurrences. -/
  values : o.toList.map Prod.snd = vs.eraseDups
  /-- The indices are listed from zero on, each with its value. -/
  indices : o.toList.map Prod.fst = List.range o.size
  /-- Every value of the list has an index, and is the value at it. -/
  get?_indexOf? : ∀ v ∈ vs, ∃ i, o.indexOf? v = some i ∧ o.get? i = some v
  /-- Every index below the size has a value, and is its index. -/
  indexOf?_get? : ∀ i < o.size, ∃ v, o.get? i = some v ∧ o.indexOf? v = some i
  /-- No other value has an index. -/
  indexOf?_eq_none : ∀ v, v ∉ vs → o.indexOf? v = none
  /-- No other index has a value. -/
  get?_eq_none : ∀ i, o.size ≤ i → o.get? i = none

/-- Ordinals whose row has the distinct values number them. -/
theorem numbers_of_values {o : Ordinals α} {vs : List α} (h : o.values.toList = vs.eraseDups) :
    o.Numbers vs where
  values := o.map_snd_toList.trans h
  indices := o.map_fst_toList
  get?_indexOf? v hv := by
    rw [← List.mem_eraseDups, ← h] at hv
    obtain ⟨i, hi⟩ := List.mem_iff_getElem?.mp hv
    rw [Array.getElem?_toList] at hi
    exact ⟨i, indexOf?_eq_some.mpr hi, hi⟩
  indexOf?_get? i hi := by
    have hget : o.get? i = some o.values[i] := Array.getElem?_eq_getElem hi
    exact ⟨_, hget, indexOf?_eq_some.mpr hget⟩
  indexOf?_eq_none v hv := by
    rwa [Ordinals.indexOf?_eq_none, h, List.mem_eraseDups]
  get?_eq_none i hi := Array.getElem?_eq_none hi

/-- When values have been added one after another, whatever they are and however often each comes, the
ordinals number the distinct ones in the order in which they first came. Each time it was added, a value
was told its place among them. It keeps this index whatever is added later, and the index keeps it. -/
theorem addAll_numbers (vs : List α) :
    ((empty : Ordinals α).addAll vs).1.Numbers vs ∧
      ((empty : Ordinals α).addAll vs).2 = vs.map vs.eraseDups.idxOf ∧
      ∀ more v i, ((empty : Ordinals α).addAll vs).1.indexOf? v = some i →
        ((empty : Ordinals α).addAll (vs ++ more)).1.indexOf? v = some i ∧
          ((empty : Ordinals α).addAll (vs ++ more)).1.get? i = some v := by
  have hvalues := toList_values_addAll vs
  refine ⟨numbers_of_values hvalues, ?_, ?_⟩
  · have htold : ((empty : Ordinals α).addAll vs).2.map some =
        (vs.map vs.eraseDups.idxOf).map some := by
      rw [map_some_addAll, List.map_map]
      refine List.map_congr_left fun v hv => indexOf?_eq_some.mpr ?_
      rw [get?, ← Array.getElem?_toList, hvalues]
      exact List.getElem?_idxOf (List.mem_eraseDups.mpr hv)
    exact List.map_injective_iff.mpr (fun _ _ => Option.some.inj) htold
  · intro more v i hi
    have hkept := indexOf?_addAll hi more
    rw [addAll_append]
    exact ⟨hkept, indexOf?_eq_some.mp hkept⟩

/-- The first value comes again before a third one is added, and once more after it. -/
theorem repeatedLetters_numbers :
    ((empty : Ordinals String).addAll ["b", "a", "b"]).1.Numbers ["b", "a", "b"] ∧
      ((empty : Ordinals String).addAll ["b", "a", "b"]).2 = [0, 1, 0] ∧
      ((empty : Ordinals String).addAll ["b", "a", "b"]).1.indexOf? "a" = some 1 ∧
      ((empty : Ordinals String).addAll (["b", "a", "b"] ++ ["c", "b"])).1.indexOf? "a" = some 1 ∧
      ((empty : Ordinals String).addAll (["b", "a", "b"] ++ ["c", "b"])).1.get? 1 = some "a" := by
  obtain ⟨hnumbers, htold, hkept⟩ := addAll_numbers ["b", "a", "b"]
  have hindex : ((empty : Ordinals String).addAll ["b", "a", "b"]).1.indexOf? "a" = some 1 := by
    decide
  exact ⟨hnumbers, htold.trans (by decide), hindex, hkept ["c", "b"] "a" 1 hindex⟩

end Ordinals

end ReachingWrites
