import Mathlib.Order.Fin.Basic
import ReachingWrites.FlowLattice

/-!
# The laws of values that flow

The solver asks for a join and an order and for no law. What it computes is the least solution where
the order is a partial order and the join a least upper bound. `FlowLattice.LawfulOn` says this of a
class of values, because the values of a solve may be fewer than those of their type: bit sets have
the laws among the sets of one universe, and not among all bit sets. `FlowLattice.Lawful` is the case
of a whole type.

`FlowLattice.Ascent` counts how often a value can grow; a class in which that number is bounded has
finite height.
-/

set_option autoImplicit false

namespace ReachingWrites

namespace FlowLattice

variable {α : Type} [FlowLattice α]

/-- On the values of the class `V`, the order is a partial order, and joins stay in the class and are
least upper bounds. -/
structure LawfulOn (V : α → Prop) : Prop where
  /-- The order is reflexive. -/
  refl {a : α} : V a → leq a a = true
  /-- The order is transitive. -/
  trans {a b c : α} : V a → V b → V c → leq a b = true → leq b c = true → leq a c = true
  /-- Values that are below each other are equal. -/
  antisymm {a b : α} : V a → V b → leq a b = true → leq b a = true → a = b
  /-- A join is in the class. -/
  mem_join {a b : α} : V a → V b → V (join a b)
  /-- A join is above its first part. -/
  left {a b : α} : V a → V b → leq a (join a b) = true
  /-- A join is above its second part. -/
  right {a b : α} : V a → V b → leq b (join a b) = true
  /-- A join is below whatever is above both parts. -/
  least {a b c : α} : V a → V b → V c → leq a c = true → leq b c = true → leq (join a b) c = true

/-- The order of a type is a partial order, and its joins are least upper bounds. -/
abbrev Lawful (α : Type) [FlowLattice α] : Prop := LawfulOn fun _ : α => True

omit [FlowLattice α] in
/-- Natural numbers with the greater one as join have the laws. -/
theorem lawful_nat : Lawful Nat where
  refl _ := decide_eq_true (Nat.le_refl _)
  trans _ _ _ hab hbc := decide_eq_true (Nat.le_trans (of_decide_eq_true hab) (of_decide_eq_true hbc))
  antisymm _ _ hab hba := Nat.le_antisymm (of_decide_eq_true hab) (of_decide_eq_true hba)
  mem_join _ _ := trivial
  left _ _ := decide_eq_true (Nat.le_max_left _ _)
  right _ _ := decide_eq_true (Nat.le_max_right _ _)
  least _ _ _ hac hbc :=
    decide_eq_true (Nat.max_le_of_le_of_le (of_decide_eq_true hac) (of_decide_eq_true hbc))

/-! ## Joins -/

section Join

variable {V : α → Prop} (h : LawfulOn V) {a b c : α} (ha : V a) (hb : V b)
include h ha hb

/-- A value is above a join exactly when it is above both parts. -/
theorem LawfulOn.join_le_iff (hc : V c) :
    leq (join a b) c = true ↔ leq a c = true ∧ leq b c = true := by
  constructor
  · intro hjoin
    have hab := h.mem_join ha hb
    exact ⟨h.trans ha hab hc (h.left ha hb) hjoin, h.trans hb hab hc (h.right ha hb) hjoin⟩
  · rintro ⟨hac, hbc⟩
    exact h.least ha hb hc hac hbc

/-- A value is known by the values above it. -/
theorem LawfulOn.eq_of_le_iff (hle : ∀ c, V c → (leq a c = true ↔ leq b c = true)) : a = b :=
  h.antisymm ha hb ((hle b hb).mpr (h.refl hb)) ((hle a ha).mp (h.refl ha))

/-- Joins do not depend on the order of their parts. -/
theorem LawfulOn.join_comm : join a b = join b a := by
  apply h.eq_of_le_iff (h.mem_join ha hb) (h.mem_join hb ha)
  intro c hc
  rw [h.join_le_iff ha hb hc, h.join_le_iff hb ha hc]
  exact and_comm

/-- Joins of three parts do not depend on which two come first. -/
theorem LawfulOn.join_assoc (hc : V c) : join (join a b) c = join a (join b c) := by
  have hab := h.mem_join ha hb
  have hbc := h.mem_join hb hc
  apply h.eq_of_le_iff (h.mem_join hab hc) (h.mem_join ha hbc)
  intro d hd
  rw [h.join_le_iff hab hc hd, h.join_le_iff ha hb hd, h.join_le_iff ha hbc hd,
    h.join_le_iff hb hc hd]
  exact and_assoc

/-- A join adds nothing exactly when the other part is below. -/
theorem LawfulOn.join_eq_left_iff : join a b = a ↔ leq b a = true := by
  constructor
  · intro hjoin
    have hright := h.right ha hb
    rwa [hjoin] at hright
  · intro hba
    exact h.antisymm (h.mem_join ha hb) ha (h.least ha hb ha (h.refl ha) hba) (h.left ha hb)

end Join

/-- A value joined with itself is the value. -/
theorem LawfulOn.join_self {V : α → Prop} (h : LawfulOn V) {a : α} (ha : V a) : join a a = a :=
  (h.join_eq_left_iff ha ha).mpr (h.refl ha)

/-! ## The join of several values -/

/-- A value joined with others, one after another. -/
def joinAll (a : α) (values : List α) : α := values.foldl join a

section JoinAll

variable {V : α → Prop} (h : LawfulOn V) {a : α} {values : List α} (ha : V a)
  (hvalues : ∀ b ∈ values, V b)
include h ha hvalues

/-- A join of many values is in the class. -/
theorem LawfulOn.mem_joinAll : V (joinAll a values) := by
  induction values generalizing a with
  | nil => exact ha
  | cons b values ih =>
    exact ih (h.mem_join ha (hvalues b List.mem_cons_self)) fun c hc =>
      hvalues c (List.mem_cons_of_mem b hc)

/-- The join of several values is above the value that they are joined with. -/
theorem LawfulOn.le_joinAll : leq a (joinAll a values) = true := by
  induction values generalizing a with
  | nil => exact h.refl ha
  | cons b values ih =>
    have hb := hvalues b List.mem_cons_self
    have hrest : ∀ c ∈ values, V c := fun c hc => hvalues c (List.mem_cons_of_mem b hc)
    have hjoin := h.mem_join ha hb
    have hall : V (joinAll (join a b) values) := h.mem_joinAll hjoin hrest
    exact h.trans ha hjoin hall (h.left ha hb) (ih hjoin hrest)

/-- The join of several values is above each of them. -/
theorem LawfulOn.le_joinAll_of_mem {b : α} (hb : b ∈ values) :
    leq b (joinAll a values) = true := by
  induction values generalizing a with
  | nil => cases hb
  | cons c values ih =>
    have hc := hvalues c List.mem_cons_self
    have hrest : ∀ d ∈ values, V d := fun d hd => hvalues d (List.mem_cons_of_mem c hd)
    have hjoin := h.mem_join ha hc
    have hall : V (joinAll (join a c) values) := h.mem_joinAll hjoin hrest
    rcases List.mem_cons.mp hb with rfl | hb
    · exact h.trans hc hjoin hall (h.right ha hc) (h.le_joinAll hjoin hrest)
    · exact ih hjoin hrest hb

/-- The join of several values is below whatever is above all of them. -/
theorem LawfulOn.joinAll_le {b : α} (hb : V b) (hab : leq a b = true)
    (hle : ∀ c ∈ values, leq c b = true) : leq (joinAll a values) b = true := by
  induction values generalizing a with
  | nil => exact hab
  | cons c values ih =>
    have hc := hvalues c List.mem_cons_self
    exact ih (h.mem_join ha hc) (fun d hd => hvalues d (List.mem_cons_of_mem c hd))
      (h.least ha hc hb hab (hle c List.mem_cons_self)) fun d hd =>
        hle d (List.mem_cons_of_mem c hd)

end JoinAll

/-! ## Growth -/

/-- A value of the class `V` that is reached from the first one by growing a number of times. -/
inductive Ascent (V : α → Prop) (a : α) : Nat → α → Prop where
  /-- Without growing, the value stays. -/
  | stay : Ascent V a 0 a
  /-- A value grows by becoming another one that is above it. -/
  | grow {count : Nat} {b c : α} (before : Ascent V a count b) (mem : V c) (above : leq b c = true)
      (other : b ≠ c) : Ascent V a (count + 1) c

/-- A class of finite height: its values have ranks up to `height`, and a value that grows rises in
rank. -/
structure RankedOn (V : α → Prop) (rank : α → Nat) (height : Nat) : Prop where
  rank_le {a : α} : V a → rank a ≤ height
  rank_lt {a b : α} : V a → V b → leq a b = true → a ≠ b → rank a < rank b

section Ranked

variable {V : α → Prop} {rank : α → Nat} {height count : Nat} {a b : α}
  (h : RankedOn V rank height) (ha : V a) (hascent : Ascent V a count b)
include h ha hascent

/-- Growing so often raises the rank by as much. -/
private theorem RankedOn.rank_add_le : V b ∧ rank a + count ≤ rank b := by
  induction hascent with
  | stay => exact ⟨ha, Nat.le_refl _⟩
  | grow _ mem above other ih =>
    obtain ⟨hbefore, hle⟩ := ih
    have hlt := h.rank_lt hbefore mem above other
    exact ⟨mem, by omega⟩

/-- A value grows no more often than the class is high. -/
theorem RankedOn.ascent_le : count ≤ height := by
  obtain ⟨hb, hle⟩ := h.rank_add_le ha hascent
  have hheight := h.rank_le hb
  omega

end Ranked

/-! ## Values of finite height -/

/-- Numbers below a bound, under the greater of two. -/
instance (bound : Nat) : FlowLattice (Fin bound) := ⟨max, fun a b => decide (a ≤ b)⟩

omit [FlowLattice α] in
/-- Numbers below a bound with the greater one as join have the laws. -/
theorem lawful_fin (bound : Nat) : Lawful (Fin bound) where
  refl _ := decide_eq_true (le_refl _)
  trans _ _ _ hab hbc := decide_eq_true (le_trans (of_decide_eq_true hab) (of_decide_eq_true hbc))
  antisymm _ _ hab hba := le_antisymm (of_decide_eq_true hab) (of_decide_eq_true hba)
  mem_join _ _ := trivial
  left _ _ := decide_eq_true (le_max_left _ _)
  right _ _ := decide_eq_true (le_max_right _ _)
  least _ _ _ hac hbc :=
    decide_eq_true (max_le (of_decide_eq_true hac) (of_decide_eq_true hbc))

omit [FlowLattice α] in
/-- Numbers up to a height are ranked by themselves. -/
theorem rankedOn_fin (height : Nat) :
    RankedOn (fun _ : Fin (height + 1) => True) Fin.val height where
  rank_le {a} _ := Nat.le_of_lt_succ a.isLt
  rank_lt _ _ above other :=
    Nat.lt_of_le_of_ne (Fin.le_def.mp (of_decide_eq_true above)) (Fin.val_ne_of_ne other)

end FlowLattice

end ReachingWrites
