import ReachingWrites.Table

/-!
# Looking up in a table

What a key has after a change of the table, of this key or of another one, and which keys there are
then.
-/

set_option autoImplicit false

namespace ReachingWrites

namespace Table

variable {κ β γ : Type} [DecidableEq κ]

private theorem find?_cons (e : κ × β) (rest : List (κ × β)) (k : κ) :
    find? ⟨e :: rest⟩ k = if e.1 = k then some e.2 else find? ⟨rest⟩ k := by
  unfold find?
  rw [List.find?_cons]
  by_cases h : e.1 = k
  · simp [h]
  · simp [h]

private theorem find?_nil (k : κ) : find? (⟨[]⟩ : Table κ β) k = none := rfl

/-- Changing the value of a key changes that of no other key. -/
theorem find?_alter (t : Table κ β) (k other : κ) (f : Option β → β) :
    (t.alter k f).find? other = if k = other then some (f (t.find? k)) else t.find? other := by
  obtain ⟨entries⟩ := t
  unfold alter
  induction entries with
  | nil => rw [alterEntries, find?_cons, find?_nil, find?_nil]
  | cons e rest ih =>
    simp only at ih
    rw [alterEntries]
    by_cases hk : e.1 = k
    · rw [if_pos hk, find?_cons, find?_cons, find?_cons, if_pos hk]
      simp only [hk]
      by_cases hother : k = other
      · rw [if_pos hother, if_pos hother]
      · rw [if_neg hother, if_neg hother, if_neg hother]
    · rw [if_neg hk, find?_cons, find?_cons, find?_cons, if_neg hk, ih]
      by_cases hother : k = other
      · rw [if_pos hother, if_neg (hother ▸ hk), if_pos hother]
      · rw [if_neg hother, if_neg hother]

/-- An erased key is not found, and the others are found as before. -/
theorem find?_erase (t : Table κ β) (k other : κ) :
    (t.erase k).find? other = if k = other then none else t.find? other := by
  obtain ⟨entries⟩ := t
  unfold erase
  induction entries with
  | nil => rw [List.filter_nil, find?_nil, ite_self]
  | cons e rest ih =>
    simp only at ih
    rw [List.filter_cons, find?_cons]
    by_cases hk : e.1 = k
    · rw [if_neg (by simpa using hk), ih]
      by_cases hother : k = other
      · rw [if_pos hother, if_pos hother]
      · rw [if_neg hother, if_neg hother, if_neg (hk ▸ hother)]
    · rw [if_pos (by simpa using hk), find?_cons, ih]
      by_cases hother : k = other
      · rw [if_pos hother, if_neg (hother ▸ hk), if_pos hother]
      · rw [if_neg hother, if_neg hother]

/-- Values that are changed are found at their keys. -/
theorem find?_mapValues (t : Table κ β) (f : β → γ) (k : κ) :
    (t.mapValues f).find? k = (t.find? k).map f := by
  obtain ⟨entries⟩ := t
  unfold mapValues
  induction entries with
  | nil => rfl
  | cons e rest ih =>
    simp only at ih
    rw [List.map_cons, find?_cons, find?_cons, ih]
    split
    · rfl
    · rfl

/-! ## The keys -/

/-- Where no key comes twice, a key has the value that it is entered with. -/
theorem find?_eq_some {t : Table κ β} (h : t.keys.Nodup) {k : κ} {v : β} :
    t.find? k = some v ↔ (k, v) ∈ t.entries := by
  obtain ⟨entries⟩ := t
  unfold keys at h
  induction entries with
  | nil => simp [find?_nil]
  | cons e rest ih =>
    rw [List.map_cons, List.nodup_cons] at h
    rw [find?_cons, List.mem_cons]
    by_cases hk : e.1 = k
    · -- the key does not come again behind its entry
      have hrest : (k, v) ∉ rest := fun hmem => h.1 (hk ▸ List.mem_map_of_mem hmem)
      rw [if_pos hk, or_iff_left hrest, Option.some.injEq, ← hk, Prod.ext_iff]
      simp [eq_comm]
    · rw [if_neg hk, ih h.2]
      exact (or_iff_right fun heq => hk (congrArg Prod.fst heq).symm).symm

omit [DecidableEq κ] in
/-- Changing values keeps the keys. -/
theorem keys_mapValues (t : Table κ β) (f : β → γ) : (t.mapValues f).keys = t.keys := by
  simp [mapValues, keys, Function.comp_def]

/-- A change of a value brings in its key if it is new, and moves no other key. -/
theorem keys_alter (t : Table κ β) (k : κ) (f : Option β → β) :
    (t.alter k f).keys = if k ∈ t.keys then t.keys else t.keys ++ [k] := by
  obtain ⟨entries⟩ := t
  unfold alter keys
  induction entries with
  | nil => rfl
  | cons e rest ih =>
    simp only [List.map_cons, List.mem_cons] at ih ⊢
    rw [alterEntries]
    by_cases hk : e.1 = k
    · rw [if_pos hk, if_pos (.inl hk.symm), List.map_cons]
    · rw [if_neg hk, List.map_cons, ih]
      by_cases hmem : k ∈ rest.map Prod.fst
      · rw [if_pos hmem, if_pos (.inr hmem)]
      · rw [if_neg hmem, if_neg (not_or_intro (fun heq => hk heq.symm) hmem), List.cons_append]

/-- The keys after a change at a key are those before and that key. -/
theorem mem_keys_alter {t : Table κ β} {k other : κ} {f : Option β → β} :
    other ∈ (t.alter k f).keys ↔ other ∈ t.keys ∨ other = k := by
  rw [keys_alter]
  split
  next hk => exact ⟨Or.inl, fun h => h.elim id fun heq => heq ▸ hk⟩
  next => rw [List.mem_append, List.mem_singleton]

/-- No key comes twice. -/
theorem nodup_keys_alter {t : Table κ β} (h : t.keys.Nodup) (k : κ) (f : Option β → β) :
    (t.alter k f).keys.Nodup := by
  rw [keys_alter]
  split
  next => exact h
  next hk =>
    refine List.nodup_append.mpr ⟨h, by simp, ?_⟩
    intro other hother _ hlast heq
    rw [List.mem_singleton] at hlast
    exact hk (hlast ▸ heq ▸ hother)

end Table

end ReachingWrites
