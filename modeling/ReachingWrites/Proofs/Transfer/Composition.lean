import ReachingWrites.Proofs.Transfer.Basic

/-!
# Transfers in a row

The transfers over one universe act on its sets, and `andThen` is their product: it acts like the
first transfer and then the second one, it may be bracketed in any way, and the identity is its
unit. The products are equal as values and not only in what they do, since a transfer over a
universe is no more than what it kills and what it generates.

A transfer treats each fact by itself. So it makes no difference whether sets are united before it
or after it, and a greater set becomes a greater one.
-/

set_option autoImplicit false

namespace ReachingWrites

namespace Transfer

variable {n : Nat} {a b c : Transfer}

/-- The identity before a transfer makes no difference. -/
theorem identity_andThen (a : Transfer) : identity.andThen a = a := by
  cases a <;> rfl

/-- The identity after a transfer makes no difference. -/
theorem andThen_identity (a : Transfer) : a.andThen identity = a := by
  cases a <;> rfl

/-- Of three transfers it does not matter which two are composed first. -/
theorem Over.andThen_assoc (ha : a.Over n) (hb : b.Over n) (hc : c.Over n) :
    (a.andThen b).andThen c = a.andThen (b.andThen c) := by
  have hab := ha.andThen hb
  have hbc := hb.andThen hc
  refine (hab.andThen hc).ext (ha.andThen hbc) ?_ (fun i => ?_) fun i => ?_
  · simp only [isIdentity_andThen, Bool.and_assoc]
  · rw [hab.kills_andThen hc, ha.kills_andThen hb, ha.kills_andThen hbc, hb.kills_andThen hc,
      or_assoc]
  · -- what `b` or `c` kills of the facts of `a` is gone, however the three are bracketed
    rw [hab.gens_andThen hc, ha.gens_andThen hb, ha.gens_andThen hbc, hb.gens_andThen hc,
      hb.kills_andThen hc]
    tauto

/-- A transfer of a union is the union of what it makes of both sets. -/
theorem Over.apply_union (ha : a.Over n) {x y : BitSet} (hx : x.Over n) (hy : y.Over n) :
    a.apply (x.union y) = (a.apply x).union (a.apply y) := by
  have hax := over_apply a hx
  have hay := over_apply a hy
  apply (over_apply a (hx.union y)).ext (hax.union _)
  intro i
  rw [ha.mem_apply (hx.union y), hx.mem_union hy, hax.mem_union hay, ha.mem_apply hx,
    ha.mem_apply hy, or_and_right, or_or_or_comm, or_self]

/-- The transfers over a universe compose as functions do. The composition of two acts like one
after the other, is associative and has the identity as its unit on both sides; each transfer takes
the union of two sets to the union of what it takes them to, and so a greater set to a greater one.
All equations are of whole values, also where bits above the bound are set. -/
theorem andThen_composes (ha : a.Over n) (hb : b.Over n) (hc : c.Over n) {x y : BitSet}
    (hx : x.Over n) (hy : y.Over n) :
    (a.andThen b).apply x = b.apply (a.apply x) ∧
    (a.andThen b).andThen c = a.andThen (b.andThen c) ∧
    identity.andThen a = a ∧ a.andThen identity = a ∧
    a.apply (x.union y) = (a.apply x).union (a.apply y) ∧
    (x.isSubset y = true → (a.apply x).isSubset (a.apply y) = true) :=
  ⟨ha.apply_andThen hb hx, ha.andThen_assoc hb hc, identity_andThen a, andThen_identity a,
    ha.apply_union hx hy, ha.apply_mono hx hy⟩

/-- Over three facts, a write of fact `0` and then one of fact `1` that kills it; bit `3` stands
above the bound in some of the sets. -/
theorem writesInTurn_compose :
    let a := killGen ⟨3, #[3]⟩ ⟨3, #[1]⟩
    let b := killGen ⟨3, #[3]⟩ ⟨3, #[10]⟩
    a.andThen b = killGen ⟨3, #[3]⟩ ⟨3, #[10]⟩ ∧
      (a.andThen b).apply ⟨3, #[5]⟩ = b.apply (a.apply ⟨3, #[5]⟩) ∧
        b.apply (a.apply ⟨3, #[5]⟩) = ⟨3, #[14]⟩ ∧
          (a.andThen b).andThen .identity = a.andThen (b.andThen .identity) ∧
            a.apply (BitSet.union ⟨3, #[5]⟩ ⟨3, #[13]⟩) =
              (a.apply ⟨3, #[5]⟩).union (a.apply ⟨3, #[13]⟩) ∧
            (a.apply ⟨3, #[5]⟩).isSubset (a.apply ⟨3, #[13]⟩) = true := by
  intro a b
  have ha : a.Over 3 := .killGen ⟨rfl, rfl⟩ ⟨rfl, rfl⟩
  have hb : b.Over 3 := .killGen ⟨rfl, rfl⟩ ⟨rfl, rfl⟩
  have hx : BitSet.Over 3 ⟨3, #[5]⟩ := ⟨rfl, rfl⟩
  have hy : BitSet.Over 3 ⟨3, #[13]⟩ := ⟨rfl, rfl⟩
  obtain ⟨happly, hassoc, -, -, hunion, hmono⟩ := andThen_composes ha hb .identity hx hy
  exact ⟨by decide, happly, by decide, hassoc, hunion, hmono (by decide)⟩

end Transfer

end ReachingWrites
