import ReachingWrites.BitSet.Word

/-!
# The bits of a word

A word is its sixty-four bits, and the operations on words act on each bit by itself.
-/

set_option autoImplicit false

namespace ReachingWrites

namespace Word

private theorem hasBit_eq_getLsbD (w : Word) (b : Nat) : w.hasBit b = w.toBitVec.getLsbD b := rfl

/-- Only the bits of a word can be set. -/
theorem lt_bits_of_hasBit {w : Word} {b : Nat} (h : w.hasBit b = true) : b < bits :=
  BitVec.lt_of_getLsbD h

/-- Words with the same bits are equal. -/
theorem eq_of_hasBit {w v : Word} (h : ∀ b < bits, w.hasBit b = v.hasBit b) : w = v := by
  apply UInt64.toBitVec_inj.mp
  apply BitVec.eq_of_getLsbD_eq
  intro b hb
  exact h b hb

/-- No bit of the zero word is set. -/
@[simp] theorem hasBit_zero (b : Nat) : hasBit 0 b = false := by
  rw [hasBit_eq_getLsbD]
  simp

/-- A bit of a disjunction is set if it is set in one of the words. -/
@[simp] theorem hasBit_or (w v : Word) (b : Nat) :
    hasBit (w ||| v) b = (w.hasBit b || v.hasBit b) := by
  simp [hasBit_eq_getLsbD]

/-- A bit of a word without another is set if it is set in the first word only. -/
@[simp] theorem hasBit_and_not (w v : Word) (b : Nat) :
    hasBit (w &&& ~~~v) b = (w.hasBit b && !v.hasBit b) := by
  by_cases hb : b < bits
  · have hb64 : b < 64 := hb
    simp [hasBit_eq_getLsbD, hb64]
  · have hnone (x : Word) : x.hasBit b = false := by
      rw [← Bool.not_eq_true]
      exact fun h => hb (lt_bits_of_hasBit h)
    rw [hnone, hnone w, Bool.false_and]

private theorem toNat_single {c : Nat} (h : c < bits) : (single c).toNat = 1 <<< c := by
  have hc : c < 64 := h
  have hnat : c.toUInt64.toNat = c := by
    rw [Nat.toUInt64_eq, UInt64.toNat_ofNat']
    omega
  have hlt : 1 <<< c < 1 <<< 64 := by
    rw [Nat.one_shiftLeft, Nat.one_shiftLeft]
    exact Nat.pow_lt_pow_right (by decide) hc
  rw [single, UInt64.toNat_shiftLeft, hnat, Nat.mod_eq_of_lt hc, UInt64.toNat_one]
  exact Nat.mod_eq_of_lt hlt

/-- In the word of one bit no other bit is set. -/
theorem hasBit_single {c b : Nat} (h : c < bits) : hasBit (single c) b = decide (b = c) := by
  rw [hasBit, toNat_single h, Nat.one_shiftLeft, Nat.testBit_two_pow]
  simp only [eq_comm]

/-- A word is zero if no bit of it is set. -/
theorem eq_zero_iff {w : Word} : w = 0 ↔ ∀ b, w.hasBit b = false := by
  constructor
  · intro h b
    rw [h]
    exact hasBit_zero b
  · intro h
    apply eq_of_hasBit
    intro b _
    rw [h b, hasBit_zero]

/-! ## The lowest bit -/

/-- Taking one away from a number clears its lowest bit and changes none above it, and the number has
no bit where that sets one. -/
private theorem testBit_and_pred {n l : Nat} (hl : n.testBit l = true)
    (hbelow : ∀ k < l, n.testBit k = false) (b : Nat) :
    (n &&& (n - 1)).testBit b = (n.testBit b && decide (b ≠ l)) := by
  have hlt : 2 ^ l < 2 ^ (l + 1) := Nat.pow_lt_pow_right (by decide) (Nat.lt_succ_self l)
  have hmod : n % 2 ^ (l + 1) = 2 ^ l := by
    apply Nat.eq_of_testBit_eq
    intro i
    rw [Nat.testBit_mod_two_pow, Nat.testBit_two_pow]
    rcases Nat.lt_trichotomy i l with hi | hi | hi
    · simp [hbelow i hi, Nat.ne_of_gt hi]
    · simp [hi, hl]
    · simp [Nat.ne_of_lt hi, Nat.not_lt.mpr (Nat.succ_le_of_lt hi)]
  have hn : n = 2 ^ (l + 1) * (n / 2 ^ (l + 1)) + 2 ^ l := by
    rw [← hmod, Nat.div_add_mod]
  have hpred : n - 1 = 2 ^ (l + 1) * (n / 2 ^ (l + 1)) + (2 ^ l - 1) := by
    have hpos := Nat.two_pow_pos l
    omega
  have hbit := congrArg (Nat.testBit · b) hn
  have hbit' := congrArg (Nat.testBit · b) hpred
  rw [Nat.testBit_two_pow_mul_add _ hlt] at hbit
  rw [Nat.testBit_two_pow_mul_add _ (Nat.lt_of_le_of_lt (Nat.sub_le _ _) hlt)] at hbit'
  rw [Nat.testBit_and, hbit', hbit]
  by_cases hb : b < l + 1
  · simp only [if_pos hb, Nat.testBit_two_pow, Nat.testBit_two_pow_sub_one]
    by_cases hbl : b = l
    · simp [hbl]
    · simp [Ne.symm hbl]
  · have hbl : b ≠ l := by omega
    rw [if_neg hb, if_neg hb, Bool.and_self, decide_eq_true hbl, Bool.and_true]

section Lowest

variable {w : Word} (h : w ≠ 0)
include h

private theorem find?_hasBit : (List.range bits).find? w.hasBit = some w.lowest := by
  cases hfind : (List.range bits).find? w.hasBit with
  | none =>
    refine absurd (eq_zero_iff.mpr fun b => ?_) h
    rw [← Bool.not_eq_true]
    intro hb
    exact List.find?_eq_none.mp hfind b (List.mem_range.mpr (lt_bits_of_hasBit hb)) hb
  | some b => rw [lowest, hfind, Option.getD_some]

private theorem hasBit_lowest : w.hasBit w.lowest = true :=
  List.find?_some (find?_hasBit h)

private theorem hasBit_of_lt_lowest {b : Nat} (hb : b < w.lowest) : w.hasBit b = false := by
  have hbelow := (List.find?_range_eq_some.mp (find?_hasBit h)).2.2 b hb
  simpa using hbelow

private theorem hasBit_dropLowest (b : Nat) :
    w.dropLowest.hasBit b = (w.hasBit b && decide (b ≠ w.lowest)) := by
  have hone : (1 : Word) ≤ w := by
    rw [UInt64.le_iff_toNat_le, UInt64.toNat_one]
    exact Nat.one_le_iff_ne_zero.mpr fun hzero => h (UInt64.toNat_inj.mp hzero)
  have hbits := testBit_and_pred (hasBit_lowest h) (fun c hc => hasBit_of_lt_lowest h hc) b
  rwa [hasBit, dropLowest, UInt64.toNat_and, UInt64.toNat_sub_of_le _ _ hone, UInt64.toNat_one]

/-- The lowest bit comes first among the bits that are set, and the rest of the word has the
others. -/
theorem filter_hasBit :
    (List.range bits).filter w.hasBit =
      w.lowest :: (List.range bits).filter w.dropLowest.hasBit := by
  obtain ⟨hset, below, above, hsplit, hbelow⟩ :=
    List.find?_eq_some_iff_append.mp (find?_hasBit h)
  have hdistinct := hsplit ▸ List.nodup_range
  have hnone : below.filter w.hasBit = [] :=
    List.filter_eq_nil_iff.mpr fun b hb => by simpa using hbelow b hb
  have hnone' : below.filter w.dropLowest.hasBit = [] := by
    refine List.filter_eq_nil_iff.mpr fun b hb => ?_
    have hclear : w.hasBit b = false := by simpa using hbelow b hb
    simp [hasBit_dropLowest h, hclear]
  have habove : above.filter w.dropLowest.hasBit = above.filter w.hasBit := by
    refine List.filter_congr fun b hb => ?_
    have hne : b ≠ w.lowest := by
      rintro rfl
      exact (List.nodup_cons.mp (List.nodup_append.mp hdistinct).2.1).1 hb
    simp [hasBit_dropLowest h, hne]
  rw [hsplit, List.filter_append, List.filter_append, hnone, hnone', List.nil_append,
    List.nil_append, List.filter_cons_of_pos hset, List.filter_cons_of_neg, habove]
  simp [hasBit_dropLowest h]

end Lowest

end Word

end ReachingWrites
