import ReachingWrites.Table
import ReachingWrites.Text.Describe

/-!
# Ordinals

Bits stand for values through a numbering: each distinct value has an index, given in the order in
which the values came, and keeps it for good.

A numbering is kept twice: as a row of the values, in which the place of a value is its index, and as
a table, in which the index of a value is looked up. Every change is made to both, and that they say
the same is a part of what ordinals are.
-/

set_option autoImplicit false

namespace ReachingWrites

/-- Distinct values in the order in which they came; a value's place is its index. -/
structure Ordinals (α : Type) where
  values : Array α
  /-- The index of each value. -/
  indices : Table α Nat
  /-- The table has the values in their order, each with its place. -/
  entries_indices : indices.entries = values.toList.zipIdx
  /-- No value has two places. -/
  nodup : values.toList.Nodup
  deriving DecidableEq

namespace Ordinals

variable {α : Type}

def empty : Ordinals α := ⟨#[], {}, rfl, List.nodup_nil⟩

instance : EmptyCollection (Ordinals α) := ⟨empty⟩

instance : Inhabited (Ordinals α) := ⟨empty⟩

def size (o : Ordinals α) : Nat := o.values.size

def isEmpty (o : Ordinals α) : Bool := o.values.isEmpty

def get? (o : Ordinals α) (i : Nat) : Option α := o.values[i]?

/-- The indices with their values, ascending. -/
def toList (o : Ordinals α) : List (Nat × α) := o.values.toList.zipIdx.map Prod.swap

/-- The values stand in the table as they stand in the row. -/
theorem keys_indices (o : Ordinals α) : o.indices.keys = o.values.toList := by
  rw [Table.keys, o.entries_indices, List.zipIdx_map_fst]

variable [DecidableEq α]

def indexOf? (o : Ordinals α) (v : α) : Option Nat := o.indices.find? v

/-- A value without an index is none of the values. -/
theorem indexOf?_eq_none {o : Ordinals α} {v : α} : o.indexOf? v = none ↔ v ∉ o.values.toList := by
  rw [indexOf?, Table.find?_eq_none, keys_indices]

/-- Gives the next index to a value that has none. -/
def append (o : Ordinals α) (v : α) (new : o.indexOf? v = none) : Ordinals α where
  values := o.values.push v
  indices := o.indices.alter v fun _ => o.size
  entries_indices := by
    rw [Table.entries_alter_of_find?_eq_none new, o.entries_indices, Array.toList_push,
      List.zipIdx_append, Array.length_toList, Nat.zero_add]
    rfl
  nodup := by
    rw [Array.toList_push, List.nodup_append]
    refine ⟨o.nodup, by simp, ?_⟩
    intro a ha b hb heq
    rw [List.mem_singleton] at hb
    exact indexOf?_eq_none.mp new (hb ▸ heq ▸ ha)

/-- Gives a value the next index, unless it has one; yields its index. -/
def add (o : Ordinals α) (v : α) : Ordinals α × Nat :=
  match new : o.indexOf? v with
  | some i => (o, i)
  | none => (o.append v new, o.size)

instance {α : Type} [Describe α] : Describe (Ordinals α) :=
  ⟨fun o => Text.sequence (o.values.toList.map describe)⟩

end Ordinals

end ReachingWrites
