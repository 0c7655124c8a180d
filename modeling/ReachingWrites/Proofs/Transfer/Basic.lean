import ReachingWrites.Proofs.BitSet.Lattice
import ReachingWrites.Transfer.Basic

/-!
# What a transfer does to a set

A transfer is known by the facts that it kills and the facts that it generates. The identity kills
and generates nothing, and what two transfers in a row kill and generate is said of the two. So what
a transfer does to a set over its universe is one rule for both kinds, and composed transfers act
like one after the other.

The rule asks for sets over one universe and not for sets without bits above the bound: a transfer
carries such bits along as it does facts.
-/

set_option autoImplicit false

namespace ReachingWrites

open FlowLattice (leq)

namespace Transfer

/-- The transfer takes a fact away. -/
def Kills : Transfer → Nat → Prop
  | identity, _ => False
  | killGen kill _, i => i ∈ kill

/-- The transfer adds a fact, after it has taken facts away. -/
def Gens : Transfer → Nat → Prop
  | identity, _ => False
  | killGen _ gen, i => i ∈ gen

/-- The sets of a transfer are over one universe. -/
inductive Over (n : Nat) : Transfer → Prop where
  | identity : Over n identity
  | killGen {kill gen : BitSet} (hkill : kill.Over n) (hgen : gen.Over n) :
      Over n (killGen kill gen)

/-- The sets of a transfer are of one universe. -/
inductive Fits (n : Nat) : Transfer → Prop where
  | identity : Fits n identity
  | killGen {kill gen : BitSet} (hkill : kill.Fits n) (hgen : gen.Fits n) :
      Fits n (killGen kill gen)

variable {n : Nat} {t u : Transfer} {s s' : BitSet} {i : Nat}

/-- A transfer of a universe is over it. -/
theorem Fits.over (ht : t.Fits n) : t.Over n := by
  cases ht with
  | identity => exact .identity
  | killGen hkill hgen => exact .killGen hkill.over hgen.over

/-- A transfer over a universe is of it if it kills and generates nothing above the bound. -/
theorem Over.fits (ht : t.Over n) (hkills : ∀ i, t.Kills i → i < n)
    (hgens : ∀ i, t.Gens i → i < n) : t.Fits n := by
  cases ht with
  | identity => exact .identity
  | killGen hkill hgen => exact .killGen (hkill.fits hkills) (hgen.fits hgens)

/-! ## One transfer -/

/-- A transfer leads from sets over a universe to such sets, whatever it kills and generates. -/
theorem over_apply (t : Transfer) (hs : s.Over n) : (t.apply s).Over n := by
  cases t with
  | identity => exact hs
  | killGen kill gen => exact (hs.diff kill).union gen

/-- A transfer of a universe leads from its sets to its sets. -/
theorem Fits.apply (ht : t.Fits n) (hs : s.Fits n) : (t.apply s).Fits n := by
  cases ht with
  | identity => exact hs
  | @killGen kill _ _ hgen => exact (hs.diff kill).union hgen

/-- What leaves is what has entered and is not killed, and what is generated. -/
theorem Over.mem_apply (ht : t.Over n) (hs : s.Over n) :
    i ∈ t.apply s ↔ (i ∈ s ∧ ¬ t.Kills i) ∨ t.Gens i := by
  cases ht with
  | identity => simp [Transfer.apply, Kills, Gens]
  | @killGen kill gen _ hgen =>
    rw [Transfer.apply, (hs.diff kill).mem_union hgen, BitSet.mem_diff]
    rfl

/-- More that enters is more that leaves. -/
theorem Over.apply_mono (ht : t.Over n) (hs : s.Over n) (hs' : s'.Over n) (hle : leq s s' = true) :
    leq (t.apply s) (t.apply s') = true := by
  rw [BitSet.leq_eq_true] at hle ⊢
  intro i hi
  rw [ht.mem_apply hs] at hi
  rw [ht.mem_apply hs']
  exact hi.imp_left fun h => ⟨hle i h.1, h.2⟩

/-- The empty set is below every set. -/
theorem empty_leq (n : Nat) (s : BitSet) : leq (BitSet.empty n) s = true := by
  rw [BitSet.leq_eq_true]
  intro i hi
  exact absurd hi (BitSet.notMem_empty n i)

/-! ## Two transfers in a row -/

/-- Transfers over a universe compose to one over it. -/
theorem Over.andThen (ht : t.Over n) (hu : u.Over n) : (t.andThen u).Over n := by
  cases hu with
  | identity => cases ht <;> constructor <;> assumption
  | @killGen kill' gen' hkill' hgen' =>
    cases ht with
    | identity => exact .killGen hkill' hgen'
    | killGen hkill hgen => exact .killGen (hkill.union kill') ((hgen.diff kill').union gen')

/-- A composition is the identity only if both transfers are. -/
theorem isIdentity_andThen (t u : Transfer) :
    (t.andThen u).isIdentity = (t.isIdentity && u.isIdentity) := by
  cases t <;> cases u <;> rfl

/-- A composition kills what either transfer kills. -/
theorem Over.kills_andThen (ht : t.Over n) (hu : u.Over n) :
    (t.andThen u).Kills i ↔ t.Kills i ∨ u.Kills i := by
  cases hu with
  | identity => cases ht <;> simp [Transfer.andThen, Kills]
  | killGen hkill' _ =>
    cases ht with
    | identity => simp [Transfer.andThen, Kills]
    | killGen hkill _ => exact hkill.mem_union hkill'

/-- What the second transfer kills of the first one's facts is gone. -/
theorem Over.gens_andThen (ht : t.Over n) (hu : u.Over n) :
    (t.andThen u).Gens i ↔ (t.Gens i ∧ ¬ u.Kills i) ∨ u.Gens i := by
  cases hu with
  | identity => cases ht <;> simp [Transfer.andThen, Kills, Gens]
  | @killGen kill' gen' _ hgen' =>
    cases ht with
    | identity => simp [Transfer.andThen, Gens]
    | killGen _ hgen =>
      rw [Transfer.andThen, Gens, (hgen.diff kill').mem_union hgen', BitSet.mem_diff]
      rfl

/-- One transfer after another does what both do in turn. -/
theorem Over.apply_andThen (ht : t.Over n) (hu : u.Over n) (hs : s.Over n) :
    (t.andThen u).apply s = u.apply (t.apply s) := by
  apply (over_apply _ hs).ext (over_apply u (over_apply t hs))
  intro i
  rw [(ht.andThen hu).mem_apply hs, hu.mem_apply (over_apply t hs), ht.mem_apply hs,
    ht.kills_andThen hu, ht.gens_andThen hu]
  tauto

/-- Two transfers over one universe that kill and generate the same are equal, unless just one of
them is the identity. -/
theorem Over.ext (ht : t.Over n) (hu : u.Over n) (hidentity : t.isIdentity = u.isIdentity)
    (hkills : ∀ i, t.Kills i ↔ u.Kills i) (hgens : ∀ i, t.Gens i ↔ u.Gens i) : t = u := by
  cases ht with
  | identity =>
    cases hu with
    | identity => rfl
    | killGen _ _ => cases hidentity
  | killGen hkill hgen =>
    cases hu with
    | identity => cases hidentity
    | killGen hkill' hgen' => rw [hkill.ext hkill' hkills, hgen.ext hgen' hgens]

end Transfer

end ReachingWrites
