import Mathlib.Data.Prod.Lex
import Mathlib.Tactic.Ring
import Mathlib.Tactic.Positivity

/-!
Double precision numbers by their bits. Every finite double is a multiple of
the smallest subnormal, 2⁻¹⁰⁷⁴, so its exact value is an integer in that unit.
The infinities fall out of the same formula, one step above the largest finite
magnitude, and comparing doubles that are no NaN is comparing these integers.
-/

namespace FlureeDb.Lib

open Option Nat

structure F64 where
  bits : BitVec 64
  deriving DecidableEq

variable (x : F64) {y : F64}

namespace F64

/-- All exponent bits set and some fraction bit set. -/
def isNaN : Bool :=
  x.bits.extractLsb' 52 11 == BitVec.allOnes 11 && x.bits.extractLsb' 0 52 != 0#52

def isZero : Bool := x.bits.extractLsb' 0 63 == 0#63

/-- IEEE equality: a NaN equals nothing, the two zeros are equal. -/
def eq (y : F64) : Bool :=
  !x.isNaN && !y.isNaN && (x.bits == y.bits || (x.isZero && y.isZero))

def isNegative : Bool := 2 ^ 63 ≤ x.bits.toNat

/-- Everything but the sign, as a number. -/
def low : ℕ := x.bits.toNat % 2 ^ 63

theorem low_lt : x.low < 2 ^ 63 := mod_lt _ (by positivity)

theorem bits_toNat : x.bits.toNat = x.low + if x.isNegative then 2 ^ 63 else 0 := by
  unfold low isNegative
  split <;> simp_all <;> omega

theorem ext_low {x : F64} (hsign : x.isNegative = y.isNegative) (hlow : x.low = y.low) : x = y := by
  have hbits : x.bits.toNat = y.bits.toNat := by rw [bits_toNat x, bits_toNat y, hsign, hlow]
  exact congrArg mk (BitVec.eq_of_toNat_eq hbits)

theorem isNaN_iff : x.isNaN ↔ 2047 * 2 ^ 52 < x.low := by
  have hexp : (x.bits.extractLsb' 52 11 == BitVec.allOnes 11) =
      decide (x.bits.toNat / 2 ^ 52 % 2 ^ 11 = 2047) := by
    rw [Bool.eq_iff_iff, beq_iff_eq, decide_eq_true_iff, BitVec.toNat_eq,
      BitVec.extractLsb'_toNat, shiftRight_eq_div_pow, BitVec.toNat_allOnes]
  have hfrac : (x.bits.extractLsb' 0 52 != 0#52) = decide (x.bits.toNat % 2 ^ 52 ≠ 0) := by
    rw [Bool.eq_iff_iff, bne_iff_ne, decide_eq_true_iff, Ne, BitVec.toNat_eq,
      BitVec.extractLsb'_toNat]
    rfl
  unfold isNaN low
  rw [hexp, hfrac, Bool.and_eq_true, decide_eq_true_iff, decide_eq_true_iff]
  omega

theorem isZero_iff : x.isZero ↔ x.low = 0 := by
  unfold isZero
  rw [beq_iff_eq, BitVec.toNat_eq, BitVec.extractLsb'_toNat]
  rfl

def isInfinite : Bool := x.low == 2047 * 2 ^ 52

def isFinite : Bool := x.low < 2047 * 2 ^ 52

theorem isFinite_iff : x.isFinite ↔ x.low < 2047 * 2 ^ 52 := decide_eq_true_iff

theorem not_isNaN_of_isFinite {x : F64} (h : x.isFinite) : x.isNaN = false := by
  rw [isFinite_iff] at h
  rw [Bool.eq_false_iff, Ne, isNaN_iff]
  omega

/-- The magnitude with the given exponent and fraction bits, in units of the
smallest subnormal. -/
def magnitudeOf (low : ℕ) : ℕ :=
  if low / 2 ^ 52 = 0 then low % 2 ^ 52
  else (2 ^ 52 + low % 2 ^ 52) * 2 ^ (low / 2 ^ 52 - 1)

def magnitude : ℕ := magnitudeOf x.low

/-- The value of a finite double, in units of the smallest subnormal. -/
def units : ℤ := if x.isNegative then -x.magnitude else x.magnitude

variable {x}

theorem magnitudeOf_lt_succ (n : ℕ) : magnitudeOf n < magnitudeOf (n + 1) := by
  by_cases hcarry : n % 2 ^ 52 + 1 < 2 ^ 52
  · -- the fraction counts up within one exponent
    have hexp : (n + 1) / 2 ^ 52 = n / 2 ^ 52 := by omega
    have hfrac : (n + 1) % 2 ^ 52 = n % 2 ^ 52 + 1 := by omega
    unfold magnitudeOf
    rw [hexp]
    split
    · omega
    · exact mul_lt_mul_of_pos_right (by omega) (by positivity)
  · -- the fraction is full and the exponent goes up
    have hexp : (n + 1) / 2 ^ 52 = n / 2 ^ 52 + 1 := by omega
    have hfrac : (n + 1) % 2 ^ 52 = 0 := by omega
    unfold magnitudeOf
    rw [hexp, hfrac, if_neg (succ_ne_zero (n / 2 ^ 52))]
    by_cases hzero : n / 2 ^ 52 = 0
    · rw [if_pos hzero, hzero]
      omega
    · obtain ⟨e, he⟩ := exists_eq_succ_of_ne_zero hzero
      rw [he]
      calc (2 ^ 52 + n % 2 ^ 52) * 2 ^ e < (2 ^ 52 * 2) * 2 ^ e :=
            mul_lt_mul_of_pos_right (by omega) (by positivity)
        _ = 2 ^ 52 * (2 ^ e * 2) := by ring

theorem magnitudeOf_strictMono : StrictMono magnitudeOf :=
  strictMono_nat_of_lt_succ magnitudeOf_lt_succ

theorem magnitude_lt_iff : x.magnitude < y.magnitude ↔ x.low < y.low :=
  magnitudeOf_strictMono.lt_iff_lt

theorem magnitude_inj : x.magnitude = y.magnitude ↔ x.low = y.low :=
  magnitudeOf_strictMono.injective.eq_iff

theorem magnitude_eq_zero {x : F64} : x.magnitude = 0 ↔ x.low = 0 := by
  have h : magnitudeOf 0 = 0 := rfl
  rw [← h]
  exact magnitudeOf_strictMono.injective.eq_iff

/-- Two doubles have the same value exactly when they are the same, or are the
two zeros. -/
theorem units_inj : x.units = y.units ↔ x = y ∨ (x.isZero ∧ y.isZero) := by
  constructor
  · intro h
    by_cases hzero : x.magnitude = 0
    · refine .inr ⟨(isZero_iff x).mpr (magnitude_eq_zero.mp hzero), ?_⟩
      rw [isZero_iff, ← magnitude_eq_zero]
      unfold units at h
      split at h <;> split at h <;> omega
    · -- a positive magnitude fixes the sign
      unfold units at h
      have hsign : x.isNegative = y.isNegative := by
        by_contra hne
        cases hx : x.isNegative with
        | false =>
          have hy : y.isNegative = true := by simpa [hx] using hne
          rw [hx, hy, if_neg Bool.false_ne_true, if_pos rfl] at h
          omega
        | true =>
          have hy : y.isNegative = false := by simpa [hx] using hne
          rw [hx, hy, if_neg Bool.false_ne_true, if_pos rfl] at h
          omega
      refine .inl (ext_low hsign (magnitude_inj.mp ?_))
      split at h <;> omega
  · rintro (rfl | ⟨hx, hy⟩)
    · rfl
    · rw [isZero_iff, ← magnitude_eq_zero] at hx hy
      unfold units
      rw [hx, hy]
      split <;> split <;> rfl

def toRat (x : F64) : ℚ := x.units / 2 ^ 1074

/-! ### Comparison -/

def partialCmp (x y : F64) : Option Ordering :=
  if x.isNaN || y.isNaN then none else some (compare x.units y.units)

def bitsCmp (x y : F64) : Ordering := compare x.bits.toNat y.bits.toNat

/-- `partial_cmp`, and the raw bits where it has no answer. -/
def cmpOrBits (x y : F64) : Ordering := (x.partialCmp y).getD (x.bitsCmp y)

theorem partialCmp_of_not_isNaN (hx : x.isNaN = false) (hy : y.isNaN = false) :
    x.partialCmp y = some (compare x.units y.units) := by
  rw [partialCmp, hx, hy]
  rfl

theorem partialCmp_eq_none (h : x.isNaN ∨ y.isNaN) : x.partialCmp y = none :=
  if_pos (by simpa using h)

theorem partialCmp_swap (x y : F64) : (x.partialCmp y).map Ordering.swap = y.partialCmp x := by
  unfold partialCmp
  rw [Bool.or_comm]
  split
  · rfl
  · rw [map_some, ← Std.OrientedOrd.eq_swap]

theorem cmpOrBits_swap (x y : F64) : y.cmpOrBits x = (x.cmpOrBits y).swap := by
  unfold cmpOrBits
  rw [← partialCmp_swap x]
  cases x.partialCmp y with
  | none => exact Std.OrientedOrd.eq_swap
  | some o => rfl

/-- Two doubles compare equal exactly when they have the same bits or are the
two zeros. -/
theorem cmpOrBits_eq_iff (x y : F64) : x.cmpOrBits y = .eq ↔ x = y ∨ (x.isZero ∧ y.isZero) := by
  unfold cmpOrBits
  by_cases hnan : x.isNaN ∨ y.isNaN
  · rw [partialCmp_eq_none hnan, getD_none, bitsCmp, Nat.compare_eq_eq]
    constructor
    · intro h
      exact .inl (congrArg mk (BitVec.eq_of_toNat_eq h))
    · rintro (rfl | ⟨hx, hy⟩)
      · rfl
      · rw [isZero_iff] at hx hy
        rw [isNaN_iff, isNaN_iff] at hnan
        omega
  · rw [not_or, Bool.not_eq_true, Bool.not_eq_true] at hnan
    rw [partialCmp_of_not_isNaN hnan.1 hnan.2, getD_some, compare_eq_iff_eq, units_inj]

/-- The position of a double in the order of `cmpOrBits`, when it is no NaN
with a clear sign bit: the NaNs with the sign bit set come last, by their bits. -/
def orderKey (x : F64) : ℕ ×ₗ ℤ :=
  if x.isNaN then toLex (1, x.bits.toNat) else toLex (0, x.units)

theorem cmpOrBits_eq_orderKey (hx : x.isNaN → x.isNegative) (hy : y.isNaN → y.isNegative) :
    x.cmpOrBits y = compare x.orderKey y.orderKey := by
  have hxbits := bits_toNat x
  have hybits := bits_toNat y
  rw [Prod.Lex.compare_def, compareLex, compareOn, compareOn]
  cases hxn : x.isNaN with
  | false =>
    rw [orderKey, hxn]
    cases hyn : y.isNaN with
    | false =>
      rw [orderKey, hyn, cmpOrBits,
        partialCmp_of_not_isNaN hxn hyn]
      rfl
    | true =>
      -- a NaN with the sign bit set has larger bits than any number
      have hlow := (isNaN_iff y).mp hyn
      have hxlow : ¬ 2047 * 2 ^ 52 < x.low := by rw [← isNaN_iff, hxn]; simp
      rw [hy hyn, if_pos rfl] at hybits
      have hlt : x.bits.toNat < y.bits.toNat := by split at hxbits <;> omega
      rw [orderKey, hyn, cmpOrBits, partialCmp_eq_none (.inr hyn),
        bitsCmp, Nat.compare_eq_lt.mpr hlt]
      rfl
  | true =>
    have hlow := (isNaN_iff x).mp hxn
    rw [hx hxn, if_pos rfl] at hxbits
    rw [orderKey, hxn, cmpOrBits, partialCmp_eq_none (.inl hxn), bitsCmp]
    cases hyn : y.isNaN with
    | false =>
      have hylow : ¬ 2047 * 2 ^ 52 < y.low := by rw [← isNaN_iff, hyn]; simp
      have hlt : y.bits.toNat < x.bits.toNat := by split at hybits <;> omega
      rw [orderKey, hyn, Nat.compare_eq_gt.mpr hlt]
      rfl
    | true =>
      rw [orderKey, hyn]
      simp [Int.compare_eq_ite_lt, compare_eq_ite_lt]

/-! ### Conversions -/

/-- `n / 2 ^ shift` to the nearest number, ties to the even one. -/
def roundToEven (n shift : ℕ) : ℕ :=
  if 2 * (n % 2 ^ shift) < 2 ^ shift ∨
      (2 * (n % 2 ^ shift) = 2 ^ shift ∧ n / 2 ^ shift % 2 = 0) then n / 2 ^ shift
  else n / 2 ^ shift + 1

/-- The bits without the sign of the double nearest to a number below 2¹⁰²⁴. A
significand that rounds up to 2⁵³ carries into the exponent. -/
def lowOfNat (n : ℕ) : ℕ :=
  if n = 0 then 0
  else (n.log2 + 1022) * 2 ^ 52 +
    if n.log2 ≤ 52 then n * 2 ^ (52 - n.log2) else roundToEven n (n.log2 - 52)

/-- An `i64` cast to a double. -/
def ofInt (v : ℤ) : F64 :=
  ⟨BitVec.ofNat 64 (lowOfNat v.natAbs + if v < 0 then 2 ^ 63 else 0)⟩

theorem magnitudeOf_lowOfNat {n : ℕ} (h : n ≤ 2 ^ 53) :
    magnitudeOf (lowOfNat n) = n * 2 ^ 1074 ∧ lowOfNat n < 2047 * 2 ^ 52 := by
  by_cases hzero : n = 0
  · subst hzero
    exact ⟨(Nat.zero_mul _).symm, by decide⟩
  by_cases htop : n = 2 ^ 53
  · subst htop
    exact ⟨by decide +kernel, by decide +kernel⟩
  have hlog : n.log2 ≤ 52 := by
    have := (log2_lt hzero).mpr (show n < 2 ^ 53 by omega)
    omega
  have hlow : 2 ^ n.log2 ≤ n := log2_self_le hzero
  have hhigh : n < 2 ^ (n.log2 + 1) := lt_log2_self
  have hpow : 2 ^ n.log2 * 2 ^ (52 - n.log2) = 2 ^ 52 := by rw [← pow_add]; congr 1; omega
  -- the significand is moved up to 53 bits
  have hbits : 2 ^ 52 ≤ n * 2 ^ (52 - n.log2) ∧ n * 2 ^ (52 - n.log2) < 2 ^ 53 := by
    constructor
    · calc 2 ^ 52 = 2 ^ n.log2 * 2 ^ (52 - n.log2) := hpow.symm
        _ ≤ n * 2 ^ (52 - n.log2) := mul_le_mul_right _ hlow
    · calc n * 2 ^ (52 - n.log2) < 2 ^ (n.log2 + 1) * 2 ^ (52 - n.log2) :=
            mul_lt_mul_of_pos_right hhigh (by positivity)
        _ = 2 ^ 53 := by rw [pow_succ, mul_right_comm, hpow]; rfl
  have hdef : lowOfNat n = (n.log2 + 1022) * 2 ^ 52 + n * 2 ^ (52 - n.log2) := by
    rw [lowOfNat, if_neg hzero, if_pos hlog]
  have hexp : lowOfNat n / 2 ^ 52 = n.log2 + 1023 := by omega
  have hfrac : 2 ^ 52 + lowOfNat n % 2 ^ 52 = n * 2 ^ (52 - n.log2) := by omega
  refine ⟨?_, by omega⟩
  have hsum : 52 - n.log2 + (n.log2 + 1023 - 1) = 1074 := by omega
  rw [magnitudeOf, hexp, hfrac, mul_assoc, ← pow_add]
  exact congrArg (fun k => n * 2 ^ k) hsum

theorem low_ofInt {v : ℤ} (h : lowOfNat v.natAbs < 2047 * 2 ^ 52) :
    (ofInt v).low = lowOfNat v.natAbs ∧ (ofInt v).isNegative = decide (v < 0) := by
  have hnat : (ofInt v).bits.toNat = lowOfNat v.natAbs + if v < 0 then 2 ^ 63 else 0 := by
    rw [ofInt, BitVec.toNat_ofNat]
    split <;> omega
  constructor
  · rw [low, hnat]
    split <;> omega
  · rw [isNegative, hnat, decide_eq_decide]
    split <;> omega

/-- A cast of a number that fits the significand is finite and exact. -/
theorem units_ofInt {v : ℤ} (h : v.natAbs ≤ 2 ^ 53) :
    (ofInt v).isFinite ∧ (ofInt v).units = v * 2 ^ 1074 := by
  obtain ⟨hmag, hbound⟩ := magnitudeOf_lowOfNat h
  obtain ⟨hlow, hsign⟩ := low_ofInt hbound
  refine ⟨(isFinite_iff _).mpr (hlow ▸ hbound), ?_⟩
  rw [units, magnitude, hlow, hmag, hsign, cast_mul, cast_pow, cast_ofNat]
  by_cases hv : v < 0
  · have habs : (v.natAbs : ℤ) = -v := by omega
    rw [if_pos (decide_eq_true hv), habs, neg_mul, neg_neg]
  · have habs : (v.natAbs : ℤ) = v := by omega
    rw [if_neg (by simpa using hv), habs]

/-- No fractional part. -/
def fractIsZero (x : F64) : Bool := x.units % 2 ^ 1074 == 0

/-- A double cast to an `i64`: toward zero, and to the nearer bound when out of
range. -/
def toI64 (x : F64) : ℤ :=
  if x.isNaN then 0 else max (-2 ^ 63) (min (2 ^ 63 - 1) (x.units.tdiv (2 ^ 1074)))

end F64

end FlureeDb.Lib
