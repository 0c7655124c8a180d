/-!
# Tables

A table gives values to keys. It keeps its keys in the order in which they came, each once.
-/

set_option autoImplicit false

namespace ReachingWrites

/-- Values by key, in the order in which the keys came. -/
structure Table (κ β : Type) where
  entries : List (κ × β) := []
  deriving DecidableEq, Inhabited

namespace Table

variable {κ β γ : Type}

def size (t : Table κ β) : Nat := t.entries.length

def keys (t : Table κ β) : List κ := t.entries.map Prod.fst

def mapValues (f : β → γ) (t : Table κ β) : Table κ γ := ⟨t.entries.map fun e => (e.1, f e.2)⟩

variable [DecidableEq κ]

def find? (t : Table κ β) (k : κ) : Option β := (t.entries.find? (·.1 = k)).map Prod.snd

/-- Entries in which the value of a key is changed, or with the key at the end if it is new. -/
def alterEntries (k : κ) (f : Option β → β) : List (κ × β) → List (κ × β)
  | [] => [(k, f none)]
  | e :: rest => if e.1 = k then (e.1, f (some e.2)) :: rest else e :: alterEntries k f rest

/-- Gives a key the value that `f` makes of the one it has. -/
def alter (t : Table κ β) (k : κ) (f : Option β → β) : Table κ β := ⟨alterEntries k f t.entries⟩

def erase (t : Table κ β) (k : κ) : Table κ β := ⟨t.entries.filter (·.1 ≠ k)⟩

/-- Nothing is found at what is no key. -/
theorem find?_eq_none {t : Table κ β} {k : κ} : t.find? k = none ↔ k ∉ t.keys := by
  rw [find?, Option.map_eq_none_iff, List.find?_eq_none, keys, List.mem_map]
  simp only [decide_eq_true_iff, not_exists, not_and]

/-- A key that is new comes last. -/
theorem entries_alter_of_find?_eq_none {t : Table κ β} {k : κ} (h : t.find? k = none)
    (f : Option β → β) : (t.alter k f).entries = t.entries ++ [(k, f none)] := by
  rw [find?_eq_none] at h
  obtain ⟨entries⟩ := t
  unfold alter
  unfold keys at h
  induction entries with
  | nil => rfl
  | cons e rest ih =>
    rw [List.map_cons, List.mem_cons, not_or] at h
    simp only at ih
    rw [alterEntries, if_neg (Ne.symm h.1), ih h.2, List.cons_append]

/-- Taking out a key that is there makes a table smaller. -/
theorem size_erase_lt {t : Table κ β} {k : κ} {v : β} (h : t.find? k = some v) :
    (t.erase k).size < t.size := by
  obtain ⟨e, he, -⟩ := Option.map_eq_some_iff.1 h
  obtain ⟨hk, as, bs, hsplit, -⟩ := List.find?_eq_some_iff_append.1 he
  simp only [size, erase, hsplit, List.filter_append, List.length_append]
  have hleft := List.length_filter_le (fun e : κ × β => decide (e.1 ≠ k)) as
  have hright := List.length_filter_le (fun e : κ × β => decide (e.1 ≠ k)) bs
  have hmid : (List.filter (fun e : κ × β => decide (e.1 ≠ k)) (e :: bs)).length ≤ bs.length := by
    simpa [List.filter_cons, hk] using hright
  simp only [List.length_cons]
  omega

end Table

end ReachingWrites
