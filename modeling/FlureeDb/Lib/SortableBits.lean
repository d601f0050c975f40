import FlureeDb.Lib.Float64

/-!
Unsigned words that sort as signed integers and as doubles do. A signed word
sorts after its sign bit is flipped; a double sorts after the sign bit of a
number that is not negative, or every bit of a negative one, is flipped.
-/

namespace FlureeDb.Lib.SortableBits

/-- Two pairs of numbers that compare alike, by the three ways a pair compares. -/
theorem compare_eq_compare_iff {α β : Type} [LinearOrder α] [LinearOrder β] {a b : α} {c d : β} :
    compare a b = compare c d ↔
      (a = b → c = d) ∧ (a < b → c < d) ∧ (b < a → d < c) := by
  rcases lt_trichotomy a b with h | h | h
  · rw [compare_lt_iff_lt.mpr h, eq_comm, compare_lt_iff_lt]
    exact ⟨fun hc => ⟨fun he => absurd he h.ne, fun _ => hc, fun hg => absurd hg h.asymm⟩,
      fun hall => hall.2.1 h⟩
  · rw [compare_eq_iff_eq.mpr h, eq_comm, compare_eq_iff_eq]
    exact ⟨fun hc => ⟨fun _ => hc, fun hl => absurd h hl.ne, fun hg => absurd h hg.ne'⟩,
      fun hall => hall.1 h⟩
  · rw [compare_gt_iff_gt.mpr h, eq_comm, compare_gt_iff_gt]
    exact ⟨fun hc => ⟨fun he => absurd he h.ne', fun hl => absurd hl h.asymm, fun _ => hc⟩,
      fun hall => hall.2.2 h⟩

/-- A number that compares as a pair does. -/
theorem compare_eq_then_iff {α β γ : Type} [LinearOrder α] [LinearOrder β] [LinearOrder γ]
    {a b : α} {c d : β} {e f : γ} :
    compare a b = (compare c d).then (compare e f) ↔
      (a = b → c = d ∧ e = f) ∧ (a < b → c < d ∨ c = d ∧ e < f) ∧
        (b < a → d < c ∨ d = c ∧ f < e) := by
  rcases lt_trichotomy c d with h | rfl | h
  · rw [compare_lt_iff_lt.mpr h, Ordering.lt_then, ← compare_lt_iff_lt.mpr h,
      compare_eq_compare_iff]
    simp [h.ne, h.ne']
  · rw [compare_eq_iff_eq.mpr rfl, Ordering.eq_then, compare_eq_compare_iff]
    simp
  · rw [compare_gt_iff_gt.mpr h, Ordering.gt_then, ← compare_gt_iff_gt.mpr h,
      compare_eq_compare_iff]
    simp [h.ne, h.ne']

/-- The sign bit of a 64 bit word. -/
def signFlip : BitVec 64 := 1#64 <<< 63

theorem toNat_xor_signFlip (x : BitVec 64) :
    (x ^^^ signFlip).toNat = if x.toNat < 2 ^ 63 then x.toNat + 2 ^ 63 else x.toNat - 2 ^ 63 := by
  have hflip : signFlip.toNat = 2 ^ 63 := rfl
  have hmod : (x.toNat ^^^ 2 ^ 63) % 2 ^ 63 = x.toNat % 2 ^ 63 := by
    rw [Nat.xor_mod_two_pow, Nat.mod_self, Nat.xor_zero]
  have hdiv : (x.toNat ^^^ 2 ^ 63) / 2 ^ 63 = x.toNat / 2 ^ 63 ^^^ 1 := by
    rw [Nat.xor_div_two_pow, Nat.div_self (by decide)]
  rw [BitVec.toNat_xor, hflip]
  by_cases hsmall : x.toNat < 2 ^ 63
  · have hquot : x.toNat / 2 ^ 63 = 0 := Nat.div_eq_of_lt hsmall
    rw [hquot, Nat.zero_xor] at hdiv
    rw [if_pos hsmall]
    omega
  · have hquot : x.toNat / 2 ^ 63 = 1 := by omega
    rw [hquot, Nat.xor_self] at hdiv
    rw [if_neg hsmall]
    omega

/-- With its sign bit flipped a word counts from the smallest integer up. -/
theorem toNat_xor_signFlip_eq_toInt (x : BitVec 64) :
    ((x ^^^ signFlip).toNat : ℤ) = x.toInt + 2 ^ 63 := by
  rw [toNat_xor_signFlip, BitVec.toInt_eq_toNat_cond]
  split <;> split <;> omega

/-! ### Doubles -/

/-- The flipped bits of a double that is no zero, and of the zero that has a
clear sign. -/
def flipF64 (bits : BitVec 64) : BitVec 64 :=
  if bits &&& signFlip ≠ 0#64 then ~~~bits else bits ^^^ signFlip

theorem and_signFlip_ne_zero (bits : BitVec 64) :
    bits &&& signFlip ≠ 0#64 ↔ 2 ^ 63 ≤ bits.toNat := by
  have hflip : signFlip = BitVec.twoPow 64 63 := rfl
  rw [hflip, BitVec.and_twoPow]
  have hmsb : bits.getLsbD 63 = decide (2 ^ 63 ≤ bits.toNat) :=
    (BitVec.msb_eq_getLsbD_last bits).symm.trans (BitVec.msb_eq_decide bits)
  rw [hmsb]
  by_cases h : 2 ^ 63 ≤ bits.toNat
  · rw [decide_eq_true h]
    exact iff_of_true (by decide) h
  · rw [decide_eq_false h]
    exact iff_of_false (fun hne => hne rfl) h

theorem toNat_flipF64 (x : F64) :
    (flipF64 x.bits).toNat = if x.isNegative then 2 ^ 63 - 1 - x.low else 2 ^ 63 + x.low := by
  have hbits := F64.bits_toNat x
  have hsign : x.isNegative = decide (2 ^ 63 ≤ x.bits.toNat) := rfl
  unfold flipF64
  by_cases hneg : 2 ^ 63 ≤ x.bits.toNat
  · rw [hsign, decide_eq_true hneg, if_pos rfl] at hbits
    rw [if_pos ((and_signFlip_ne_zero _).mpr hneg), hsign, decide_eq_true hneg, if_pos rfl,
      BitVec.toNat_not]
    omega
  · rw [hsign, decide_eq_false hneg, if_neg Bool.false_ne_true] at hbits
    rw [if_neg ((and_signFlip_ne_zero _).not.mpr hneg), hsign, decide_eq_false hneg,
      if_neg Bool.false_ne_true, toNat_xor_signFlip, if_pos (by omega)]
    omega

/-- The zero with a clear sign in place of the other one. -/
def canonicalZero (x : F64) : F64 := if x.isZero then ⟨0#64⟩ else x

theorem units_canonicalZero (x : F64) : (canonicalZero x).units = x.units := by
  unfold canonicalZero
  split
  · next h => exact F64.units_inj.mpr (.inr ⟨by decide, h⟩)
  · rfl

/-- A negative double with the zeros made one is below zero. -/
theorem low_pos_of_isNegative {x : F64} (h : (canonicalZero x).isNegative) :
    0 < (canonicalZero x).low := by
  unfold canonicalZero at h ⊢
  split at h
  · exact absurd h (by decide)
  · next hzero =>
    rw [if_neg hzero]
    exact pos_of_ne_zero fun hlow => hzero ((F64.isZero_iff x).mpr hlow)

/-- Flipped bits sort as the exact values do. -/
theorem compare_flipF64 (x y : F64) :
    compare (flipF64 (canonicalZero x).bits).toNat (flipF64 (canonicalZero y).bits).toNat =
      compare x.units y.units := by
  rw [← units_canonicalZero x, ← units_canonicalZero y, toNat_flipF64, toNat_flipF64]
  have hxneg := @low_pos_of_isNegative x
  have hyneg := @low_pos_of_isNegative y
  have hxlow := (canonicalZero x).low_lt
  have hylow := (canonicalZero y).low_lt
  have hyzero := @F64.magnitude_eq_zero (canonicalZero y)
  have hgt := @F64.magnitude_lt_iff (canonicalZero y) (canonicalZero x)
  have heq := @F64.magnitude_inj (canonicalZero x) (canonicalZero y)
  rw [compare_eq_compare_iff]
  unfold F64.units
  cases hx : (canonicalZero x).isNegative with
  | false =>
    cases hy : (canonicalZero y).isNegative with
    | false =>
      rw [if_neg Bool.false_ne_true, if_neg Bool.false_ne_true, if_neg Bool.false_ne_true,
        if_neg Bool.false_ne_true]
      omega
    | true =>
      have hpos := hyneg hy
      rw [if_neg Bool.false_ne_true, if_pos rfl, if_neg Bool.false_ne_true, if_pos rfl]
      omega
  | true =>
    have hpos := hxneg hx
    cases hy : (canonicalZero y).isNegative with
    | false =>
      rw [if_pos rfl, if_neg Bool.false_ne_true, if_pos rfl, if_neg Bool.false_ne_true]
      omega
    | true =>
      rw [if_pos rfl, if_pos rfl, if_pos rfl, if_pos rfl]
      omega

end FlureeDb.Lib.SortableBits
