import Mathlib.Data.Nat.Digits.Lemmas
import FlureeDb.Core.Flake
import FlureeDb.Core.ValueOrder

/-!
What a value feeds to a hasher, and where equality, order and hash agree. Equal
numbers are to be hashed alike whatever their types, so a decimal is hashed in
its normal form and a whole number as its bytes. A hasher is not modelled: two
values that feed it the same writes have the same hash.
-/

namespace FlureeDb.Core

open Lib List Bool Option BigDecimal

/-- One call of a hasher. A calendar date is one word to its hasher, which
determines it. -/
inductive HashWrite
  | u8 (n : ℕ)
  | u16 (n : ℕ)
  | u32 (n : ℕ)
  | u64 (n : ℕ)
  | i32 (n : ℤ)
  | i64 (n : ℤ)
  | isize (n : ℤ)
  | usize (n : ℕ)
  | bytes (b : List UInt8)
  | str (s : String)
  | date (d : NaiveDate)
  deriving DecidableEq

/-- The number of bytes of the shortest two's complement form, which has room
for one bit more than the magnitude. -/
def signedLength (v : ℤ) : ℕ :=
  let magnitude := if v < 0 then (-v - 1).toNat else v.toNat
  if magnitude = 0 then 1 else (magnitude.log2 + 1) / 8 + 1

def toSignedBytesLe (v : ℤ) : List UInt8 :=
  (range (signedLength v)).map fun i => UInt8.ofNat (v / 256 ^ i % 256).toNat

/-- A byte vector writes its length first. -/
def hashBytes (b : List UInt8) : List HashWrite := [.usize b.length, .bytes b]

/-- `Option` writes its variant first. -/
def hashOption (o : Option HashWrite) : List HashWrite :=
  match o with
  | none => [.isize 0]
  | some w => [.isize 1, w]

namespace BigDecimal

/-- Without trailing zeros; zero has scale 0. -/
def normalized (d : BigDecimal) : BigDecimal :=
  if d.digits = 0 then ⟨0, 0⟩
  else
    let digits := Nat.digits 10 d.digits.natAbs
    ⟨d.digits.sign * (Nat.ofDigits 10 (digits.dropWhile (· == 0)) : ℕ),
      d.scale - (digits.takeWhile (· == 0)).length⟩

def isInteger (d : BigDecimal) : Bool :=
  if d.scale ≤ 0 then true else d.digits % 10 ^ d.scale.toNat == 0

/-- Rescaled to whole numbers, what is after the point cut off. -/
def withScaleZero (d : BigDecimal) : BigDecimal :=
  if d.scale ≤ 0 then ⟨d.digits * 10 ^ (-d.scale).toNat, 0⟩
  else ⟨d.digits.tdiv (10 ^ d.scale.toNat), 0⟩

end BigDecimal

def hashDecimalCanonical (v : BigDecimal) : List HashWrite :=
  if v.normalized.isInteger then
    .u8 0 :: hashBytes (toSignedBytesLe v.normalized.withScaleZero.digits)
  else
    .u8 1 :: .i64 v.normalized.scale :: hashBytes (toSignedBytesLe v.normalized.digits)

/-- `x <= y` on doubles. -/
def leF64 (x y : F64) : Bool := (x.partialCmp y).any Ordering.isLE

def hashDouble (d : F64) : List HashWrite :=
  if d.isNaN then [.u8 2]
  else if d.isInfinite then [.u8 3, .u8 (if d.isNegative then 0 else 1)]
  else if d.fractIsZero && leF64 (F64.ofInt (-2 ^ 63)) d && leF64 d (F64.ofInt (2 ^ 63 - 1)) then
    .u8 0 :: hashBytes (toSignedBytesLe d.toI64)
  else
    match tryFrom d with
    | some dec => hashDecimalCanonical dec
    | none => [.u8 1, .u64 d.bits.toNat]

def Instant.timestamp (i : Instant) : ℤ := i.date.day * 86400 + i.time.secs

def checkedI64 (n : ℤ) : Option ℤ := if -2 ^ 63 ≤ n ∧ n < 2 ^ 63 then some n else none

/-- Nanoseconds from 1970 on, when they fit. Before 1970 the seconds are
counted up and the nanoseconds down, so that no product on the way is too
small. -/
def Instant.timestampNanosOpt (i : Instant) : Option ℤ :=
  if i.timestamp < 0 then
    (checkedI64 ((i.timestamp + 1) * 1000000000)).bind fun n =>
      checkedI64 (n + (i.time.frac - 1000000000))
  else
    (checkedI64 (i.timestamp * 1000000000)).bind fun n => checkedI64 (n + i.time.frac)

def DateTime.hash (d : DateTime) : List HashWrite :=
  hashOption (d.instant.timestampNanosOpt.map .i64)

def Date.hash (d : Date) : List HashWrite :=
  .date d.date :: hashOption (d.tzOffset.map fun o => .i32 o.localMinusUtc)

def Time.hash (t : Time) : List HashWrite :=
  .u32 t.time.secs :: .u32 t.time.frac :: hashOption (t.tzOffset.map fun o => .i32 o.localMinusUtc)

/-! ### Values -/

def FlakeValue.hash (v : FlakeValue) : List HashWrite :=
  match v with
  | .long l => .u8 0 :: hashBytes (toSignedBytesLe l.toInt)
  | .double d => hashDouble d
  | .bigInt n => .u8 0 :: hashBytes (toSignedBytesLe n)
  | .decimal d => hashDecimalCanonical d
  | .null => [.u8 v.typeDiscriminant]
  | .ref sid => [.u8 v.typeDiscriminant, .u16 sid.namespaceCode, .str sid.name]
  | .boolean b => [.u8 v.typeDiscriminant, .u8 b.toNat]
  | .dateTime d => .u8 v.typeDiscriminant :: d.hash
  | .date d => .u8 v.typeDiscriminant :: d.hash
  | .time t => .u8 v.typeDiscriminant :: t.hash
  | .gYear year => [.u8 v.typeDiscriminant, .i32 year]
  | .gYearMonth year month => [.u8 v.typeDiscriminant, .i32 year, .u32 month]
  | .gMonth month => [.u8 v.typeDiscriminant, .u32 month]
  | .gDay day => [.u8 v.typeDiscriminant, .u32 day]
  | .gMonthDay month day => [.u8 v.typeDiscriminant, .u32 month, .u32 day]
  | .yearMonthDuration months => [.u8 v.typeDiscriminant, .i32 months]
  | .dayTimeDuration micros => [.u8 v.typeDiscriminant, .i64 micros]
  | .duration d => [.u8 v.typeDiscriminant, .i32 d.months, .i64 d.micros]
  | .string s => [.u8 v.typeDiscriminant, .str s]
  | .json s => [.u8 v.typeDiscriminant, .str s]
  | .vector elements =>
    .u8 v.typeDiscriminant :: .usize elements.length ::
      elements.map fun x => .u64 x.bits.toNat
  | .geoPoint bits => [.u8 v.typeDiscriminant, .u64 bits]

section

variable {d : BigDecimal} {a b : BigDecimal}

namespace BigDecimal

/-- No trailing zero, and one form of zero. -/
def Canonical (d : BigDecimal) : Prop := d.digits % 10 ≠ 0 ∨ d = ⟨0, 0⟩

theorem ofDigits_takeWhile_zero (digits : List ℕ) :
    Nat.ofDigits 10 (digits.takeWhile (· == 0)) = 0 := by
  induction digits with
  | nil => rfl
  | cons d digits ih =>
    rw [takeWhile_cons]
    split
    · next hd => rw [Nat.ofDigits_cons, ih, beq_iff_eq.mp hd]
    · rfl

/-- A positive number is its digits from the first nonzero one on, moved up. -/
theorem digits_split (n : ℕ) : n = 10 ^ ((Nat.digits 10 n).takeWhile (· == 0)).length *
    Nat.ofDigits 10 ((Nat.digits 10 n).dropWhile (· == 0)) := by
  conv_lhs => rw [← Nat.ofDigits_digits 10 n, ← takeWhile_append_dropWhile (p := (· == 0))
    (l := Nat.digits 10 n), Nat.ofDigits_append, ofDigits_takeWhile_zero, zero_add]

theorem dropWhile_mod_ten {n : ℕ} (hn : n ≠ 0) :
    Nat.ofDigits 10 ((Nat.digits 10 n).dropWhile (· == 0)) % 10 ≠ 0 := by
  cases hdrop : (Nat.digits 10 n).dropWhile (· == 0) with
  | nil =>
    have hsplit := digits_split n
    rw [hdrop, Nat.ofDigits_nil] at hsplit
    exact absurd hsplit hn
  | cons d =>
    have hne : d ≠ 0 := by
      have hhead := head_dropWhile_not (· == 0) (show _ ≠ [] by rw [hdrop]; simp)
      simpa [hdrop] using hhead
    have hmem : d ∈ Nat.digits 10 n := by
      refine (dropWhile_suffix (· == 0)).subset ?_
      rw [hdrop]
      exact mem_cons_self ..
    have hlt := Nat.digits_lt_base (by norm_num) hmem
    rw [Nat.ofDigits_cons]
    omega

theorem normalized_spec (d : BigDecimal) :
    d.normalized.Canonical ∧ d.normalized.toRat = d.toRat := by
  unfold normalized
  split
  · next hzero => exact ⟨.inr rfl, by simp [toRat, hzero]⟩
  · next hne =>
    have habs : d.digits.natAbs ≠ 0 := Int.natAbs_ne_zero.mpr hne
    have hsplit := digits_split d.digits.natAbs
    have hmod := dropWhile_mod_ten habs
    dsimp only
    generalize Nat.ofDigits 10 ((Nat.digits 10 d.digits.natAbs).dropWhile (· == 0)) = m at *
    generalize ((Nat.digits 10 d.digits.natAbs).takeWhile (· == 0)).length = k at *
    have hdigits : d.digits = d.digits.sign * m * 10 ^ k := by
      conv_lhs => rw [← Int.sign_mul_natAbs d.digits, hsplit]
      push_cast
      ring
    constructor
    · left
      change d.digits.sign * (m : ℤ) % 10 ≠ 0
      rcases lt_or_gt_of_ne hne with hneg | hpos
      · rw [Int.sign_eq_neg_one_of_neg hneg]
        omega
      · rw [Int.sign_eq_one_of_pos hpos]
        omega
    · change ((d.digits.sign * (m : ℤ) : ℤ) : ℚ) * 10 ^ (-(d.scale - (k : ℤ))) = d.toRat
      have hpow : (10 : ℚ) ^ (-(d.scale - (k : ℤ))) = 10 ^ k * 10 ^ (-d.scale) := by
        rw [← zpow_natCast, ← zpow_add₀ (by norm_num)]
        congr 1
        omega
      rw [toRat, hpow]
      conv_rhs => rw [hdigits]
      push_cast
      ring

theorem Canonical.digits_eq_zero (h : d.Canonical) (hzero : d.toRat = 0) : d = ⟨0, 0⟩ := by
  rcases h with hmod | h
  · rw [toRat, mul_eq_zero, Int.cast_eq_zero] at hzero
    rcases hzero with hdigits | hpow
    · rw [hdigits] at hmod
      exact absurd rfl hmod
    · exact absurd hpow (zpow_ne_zero _ (by norm_num))
  · exact h

theorem digitsAt_eq_of_toRat (h : a.toRat = b.toRat) {scale : ℤ} (ha : a.scale ≤ scale)
    (hb : b.scale ≤ scale) : a.digitsAt scale = b.digitsAt scale := by
  have hcast : (a.digitsAt scale : ℚ) = b.digitsAt scale := by
    rw [digitsAt_eq a ha, digitsAt_eq b hb, h]
  exact_mod_cast hcast

theorem scale_le_of_canonical (h : a.toRat = b.toRat) (hb : b.digits % 10 ≠ 0) :
    b.scale ≤ a.scale := by
  by_contra hlt
  have hdigits := digitsAt_eq_of_toRat h (show a.scale ≤ b.scale by omega) le_rfl
  unfold digitsAt at hdigits
  obtain ⟨k, hk⟩ : ∃ k, (b.scale - a.scale).toNat = k + 1 := ⟨_, (Nat.sub_add_cancel (by omega)).symm⟩
  rw [hk, sub_self, Int.toNat_zero, pow_zero, pow_succ, ← mul_assoc] at hdigits
  omega

theorem Canonical.unique (ha : a.Canonical) (hb : b.Canonical) (h : a.toRat = b.toRat) : a = b := by
  rcases ha with ha | rfl
  · rcases hb with hb | rfl
    · have hscale : a.scale = b.scale :=
        le_antisymm (scale_le_of_canonical h.symm ha) (scale_le_of_canonical h hb)
      have hdigits := digitsAt_eq_of_toRat h hscale.le le_rfl
      rw [digitsAt, digitsAt, hscale, sub_self, Int.toNat_zero, pow_zero, mul_one, mul_one] at hdigits
      obtain ⟨digits, scale⟩ := a
      simp only at hscale hdigits
      rw [hscale, hdigits]
    · exact digits_eq_zero (.inl ha) (by rw [h]; simp [toRat])
  · exact (hb.digits_eq_zero (by rw [← h]; simp [toRat])).symm

theorem normalized_congr (h : a.toRat = b.toRat) : a.normalized = b.normalized :=
  (normalized_spec a).1.unique (normalized_spec b).1
    (by rw [(normalized_spec a).2, (normalized_spec b).2, h])

end BigDecimal

theorem hashDecimalCanonical_congr (h : a.toRat = b.toRat) :
    hashDecimalCanonical a = hashDecimalCanonical b := by
  unfold hashDecimalCanonical
  rw [normalized_congr h]

variable {n : ℤ}

theorem hashDecimalCanonical_int (h : d.toRat = n) :
    hashDecimalCanonical d = .u8 0 :: hashBytes (toSignedBytesLe n) := by
  obtain ⟨hcanonical, hvalue⟩ := normalized_spec d
  have hrat : (ofInt n).toRat = d.normalized.toRat := by
    rw [toRat_ofInt, hvalue, h]
  have hscale : d.normalized.scale ≤ 0 := by
    rcases hcanonical with hmod | hzero
    · exact scale_le_of_canonical hrat hmod
    · rw [hzero]
  have hdigits := digitsAt_eq_of_toRat hrat le_rfl hscale
  have hint : d.normalized.withScaleZero.digits = n := by
    rw [withScaleZero, if_pos hscale]
    simpa [ofInt, digitsAt] using hdigits.symm
  have hinteger : d.normalized.isInteger = true := if_pos hscale
  rw [hashDecimalCanonical, if_pos hinteger, hint]

/-! ### Equal numbers -/

/-- The double 2⁶³. It is not below `i64::MAX as f64`, which rounds up to it, and
the cast to an integer stops at `i64::MAX`. -/
def twoPow63 : F64 := ⟨0x43E0000000000000#64⟩

theorem units_twoPow63 : twoPow63.units = 2 ^ 63 * 2 ^ 1074 := by decide +kernel

variable {x : F64}

theorem eq_twoPow63 (h : x.units = 2 ^ 63 * 2 ^ 1074) : x = twoPow63 := by
  rw [← units_twoPow63, F64.units_inj] at h
  rcases h with h | ⟨-, hzero⟩
  · exact h
  · exact absurd hzero (by decide)

theorem leF64_iff {y : F64} (hx : x.isFinite) (hy : y.isFinite) :
    leF64 x y ↔ x.units ≤ y.units := by
  rw [leF64, F64.partialCmp_of_not_isNaN (F64.not_isNaN_of_isFinite hx)
    (F64.not_isNaN_of_isFinite hy)]
  exact Std.isLE_compare

theorem toRat_of_units (h : x.units = n * 2 ^ 1074) : x.toRat = n := by
  rw [F64.toRat, h, Int.cast_mul, Int.cast_pow, Int.cast_ofNat,
    mul_div_cancel_right₀ _ (pow_ne_zero _ (by norm_num))]

/-- A whole double in the range of `i64`, but for its upper end. -/
theorem toI64_of_units (hx : x.isFinite) (hunits : x.units = n * 2 ^ 1074) (hlow : -2 ^ 63 ≤ n)
    (hhigh : n < 2 ^ 63) : x.toI64 = n := by
  rw [F64.toI64, F64.not_isNaN_of_isFinite hx, if_neg Bool.false_ne_true, hunits,
    Int.mul_tdiv_cancel _ (pow_ne_zero _ (by norm_num))]
  omega

/-- A finite double other than 2⁶³ is hashed as the decimal of its value. -/
theorem hashDouble_eq (hx : x.isFinite) (hne : x ≠ twoPow63) (hd : d.toRat = x.toRat) :
    hashDouble x = hashDecimalCanonical d := by
  have hinfinite : x.isInfinite = false := by
    have hlow := (F64.isFinite_iff x).mp hx
    rw [F64.isInfinite, beq_eq_false_iff_ne]
    omega
  rw [hashDouble, F64.not_isNaN_of_isFinite hx, hinfinite, if_neg Bool.false_ne_true,
    if_neg Bool.false_ne_true]
  split
  · next hwhole =>
    rw [and_eq_true, and_eq_true, F64.fractIsZero, beq_iff_eq,
      leF64_iff (by decide +kernel) hx, leF64_iff hx (by decide +kernel),
      show (F64.ofInt (-2 ^ 63)).units = -2 ^ 63 * 2 ^ 1074 by decide +kernel,
      show (F64.ofInt (2 ^ 63 - 1)).units = 2 ^ 63 * 2 ^ 1074 by decide +kernel] at hwhole
    obtain ⟨⟨hfract, hlow⟩, hhigh⟩ := hwhole
    obtain ⟨n, hn⟩ := Int.dvd_of_emod_eq_zero hfract
    rw [mul_comm] at hn
    have hpos : (0 : ℤ) < 2 ^ 1074 := pow_pos (by norm_num) _
    have hneq : n ≠ 2 ^ 63 := fun h => hne (eq_twoPow63 (by rw [hn, h]))
    rw [hn] at hlow hhigh
    have hlow' := le_of_mul_le_mul_right hlow hpos
    have hhigh' := le_of_mul_le_mul_right hhigh hpos
    rw [toI64_of_units hx hn hlow' (lt_of_le_of_ne hhigh' hneq)]
    exact (hashDecimalCanonical_int (hd.trans (toRat_of_units hn))).symm
  · obtain ⟨dec, hdec, hvalue⟩ := FlakeValue.tryFrom_of_isFinite hx
    rw [hdec]
    exact hashDecimalCanonical_congr (hvalue.trans hd.symm)

end

variable {a b v : FlakeValue} {n : ℤ} {x : F64}

namespace FlakeValue

variable {q : ℚ}

theorem number_decimal (h : v.number? = some q) : ∃ d : BigDecimal, d.toRat = q := by
  rcases number_cases h with ⟨v, -, rfl⟩ | ⟨v, -, rfl⟩ | ⟨d, -, rfl⟩ | ⟨x, -, hx, rfl⟩
  · exact ⟨.ofInt v.toInt, toRat_ofInt _⟩
  · exact ⟨.ofInt v, toRat_ofInt v⟩
  · exact ⟨d, rfl⟩
  · obtain ⟨d, -, hd⟩ := tryFrom_of_isFinite hx
    exact ⟨d, hd⟩

/-- Numbers are hashed by value, but for the double 2⁶³. -/
theorem hash_of_number (h : v.number? = some q) (hne : v ≠ .double twoPow63) (hd : d.toRat = q) :
    v.hash = hashDecimalCanonical d := by
  rcases number_cases h with ⟨v, rfl, rfl⟩ | ⟨v, rfl, rfl⟩ | ⟨e, rfl, rfl⟩ | ⟨x, rfl, hx, rfl⟩
  · exact (hashDecimalCanonical_int hd).symm
  · exact (hashDecimalCanonical_int hd).symm
  · exact hashDecimalCanonical_congr hd.symm
  · exact hashDouble_eq hx (fun hx => hne (congrArg _ hx)) hd

theorem number_eq_none (h : v.number? = none) :
    v.isNumeric = false ∨ ∃ x, v = .double x ∧ x.isFinite = false := by
  cases v with
  | double x =>
    refine .inr ⟨x, rfl, ?_⟩
    by_contra hx
    rw [not_eq_false] at hx
    rw [show number? (.double x) = some x.toRat from if_pos hx] at h
    cases h
  | long | bigInt | decimal => cases h
  | _ => exact .inl rfl

theorem numericCmp_not_finite (hx : x.isFinite = false) {b : FlakeValue}
    (h : numericCmp (.double x) b = some .eq) : b = .double x := by
  cases b with
  | double y =>
    have hcmp : x.cmpOrBits y = .eq := by
      rw [numericCmp_of_sameType (a := .double x) (b := .double y) rfl rfl] at h
      exact some.inj h
    rcases (F64.cmpOrBits_eq_iff x y).mp hcmp with rfl | ⟨hzero, -⟩
    · rfl
    · rw [F64.isZero_iff] at hzero
      rw [eq_false_iff, Ne, F64.isFinite_iff] at hx
      omega
  | long w =>
    -- a conversion that is chosen is finite, and the other route has no answer
    change (Id.run (longVsDouble wrappingAbs w x)).map Ordering.swap = some .eq at h
    rw [longVsDouble_run] at h
    split at h
    · next hfits =>
      obtain ⟨hfinite, -⟩ := units_of_i64FitsF64 hfits
      unfold F64.partialCmp at h
      split at h
      · cases h
      · rw [map_some, some.injEq, Ordering.swap_eq_eq,
          compare_eq_iff_eq, F64.units_inj] at h
        rcases h with h | ⟨-, hzero⟩
        · rw [h, hx] at hfinite
          cases hfinite
        · rw [F64.isZero_iff] at hzero
          rw [eq_false_iff, Ne, F64.isFinite_iff] at hx
          omega
    · rw [tryFrom_of_not_isFinite hx] at h
      cases h
  | bigInt w =>
    change doubleVsBigInt x w = some .eq at h
    rw [doubleVsBigInt, tryFrom_of_not_isFinite hx] at h
    cases h
  | decimal d =>
    change doubleVsDecimal x d = some .eq at h
    rw [doubleVsDecimal, tryFrom_of_not_isFinite hx] at h
    cases h
  | _ => cases h

/-- Numbers that compare equal are the same, or exact and of the same value. -/
theorem numericCmp_eq_eq (ha : a.isNumeric) (hb : b.isNumeric) (h : a.numericCmp b = some .eq) :
    a = b ∨ ∃ q, a.number? = some q ∧ b.number? = some q := by
  cases hqa : a.number? with
  | none =>
    rcases number_eq_none hqa with hnot | ⟨x, rfl, hx⟩
    · rw [hnot] at ha
      cases ha
    · exact .inl (numericCmp_not_finite hx h).symm
  | some q =>
    cases hqb : b.number? with
    | none =>
      rcases number_eq_none hqb with hnot | ⟨y, rfl, hy⟩
      · rw [hnot] at hb
        cases hb
      · have hswap := numericCmp_swap a (.double y)
        rw [h] at hswap
        exact .inl (numericCmp_not_finite hy hswap)
    | some =>
      rw [numericCmp_of_number hqa hqb, some.injEq, compare_eq_iff_eq] at h
      exact .inr ⟨q, rfl, by rw [h]⟩

/-! ### Equality and order -/

/-- Two vectors that differ only in the signs of zeros. -/
def ZeroSignsDiffer (a b : FlakeValue) : Prop :=
  ∃ x y, a = .vector x ∧ b = .vector y ∧ x ≠ y ∧
    List.Forall₂ (fun u v : F64 => u = v ∨ (u.isZero ∧ v.isZero)) x y

theorem compareLex_eq_eq (a b : List F64) : List.compareLex F64.cmpOrBits a b = .eq ↔
    List.Forall₂ (fun u v : F64 => u = v ∨ (u.isZero ∧ v.isZero)) a b := by
  induction a generalizing b with
  | nil =>
    cases b with
    | nil => simp [List.compareLex_nil_nil]
    | cons => simp [List.compareLex_nil_cons]
  | cons x a ih =>
    cases b with
    | nil => simp [List.compareLex_cons_nil]
    | cons =>
      rw [List.compareLex_cons_cons, Ordering.then_eq_eq, F64.cmpOrBits_eq_iff, ih,
        forall₂_cons]

theorem vectorCmp_eq_eq (a b : List F64) : vectorCmp a b = .eq ↔
    List.Forall₂ (fun u v : F64 => u = v ∨ (u.isZero ∧ v.isZero)) a b := by
  cases a with
  | nil => cases b <;> simp [vectorCmp]
  | cons =>
    cases b with
    | nil => simp [vectorCmp]
    | cons =>
      rw [← compareLex_eq_eq, ← vectorLoop_eq]
      rfl

theorem vector_eq_iff (a b : List F64) : eq (.vector a) (.vector b) ↔ a = b := by
  change (a.length == b.length && (a.zip b).all fun p => p.1.bits == p.2.bits) ↔ a = b
  induction a generalizing b with
  | nil => cases b <;> simp
  | cons x a ih =>
    cases b with
    | nil => simp
    | cons y =>
      have hbits : x.bits = y.bits ↔ x = y := by
        cases x
        cases y
        simp
      simp only [length_cons, zip_cons_cons, all_cons, and_eq_true,
        beq_iff_eq, add_right_cancel_iff, cons.injEq] at ih ⊢
      rw [← ih]
      tauto

/-- Everything but vectors compares equal exactly when it is equal. -/
theorem eq_iff_cmp_of_not_vector (h : ∀ x y, ¬ (a = .vector x ∧ b = .vector y)) :
    a.eq b ↔ a.cmp b = .eq := by
  cases hnum : a.isNumeric && b.isNumeric with
  | true =>
    rw [eq, hnum, if_pos rfl]
    rw [and_eq_true] at hnum
    rw [cmp_of_isNumeric hnum.1 hnum.2]
    cases hcmp : a.numericCmp b with
    | some => simp
    | none =>
      -- numbers of one type always have an answer
      have hne : a.typeDiscriminant ≠ b.typeDiscriminant := by
        intro hsame
        rw [numericCmp_of_sameType hnum.1 hsame] at hcmp
        cases hcmp
      simp [hne]
  | false =>
    by_cases hsame : a.typeDiscriminant = b.typeDiscriminant
    · rw [cmp, if_pos hsame, eq, hnum]
      cases a with
      | vector =>
        cases b <;> cases hsame
        exact absurd ⟨rfl, rfl⟩ (h _ _)
      | duration =>
        cases b <;> cases hsame
        next e =>
          simp [isDuration, temporalCmp, sameTypeCmp, Duration.partialCmp_eq_eq,
            Duration.cmp_eq_eq]
      | ref s =>
        cases b <;> cases hsame
        next s' =>
          cases s
          cases s'
          simp [isTemporal, isDuration, sameTypeEq, sameTypeCmp, Sid.cmp]
      | _ =>
        cases b <;> cases hsame
        all_goals first
          | (cases hnum; done)
          | simp [isTemporal, isDuration, temporalCmp, sameTypeEq, sameTypeCmp]
    · rw [cmp_of_ne hsame hnum, compare_eq_iff_eq, eq, hnum, if_neg Bool.false_ne_true,
        temporalCmp_of_ne hsame]
      refine iff_of_false ?_ hsame
      split
      · exact false_ne_true
      · unfold sameTypeEq
        split <;> first | exact false_ne_true | exact absurd rfl hsame

theorem eq_iff_cmp (a b : FlakeValue) : (a.eq b ↔ a.cmp b = .eq) ↔ ¬ ZeroSignsDiffer a b := by
  by_cases h : ∃ x y, a = .vector x ∧ b = .vector y
  · obtain ⟨x, y, rfl, rfl⟩ := h
    have hcmp : cmp (.vector x) (.vector y) = vectorCmp x y := rfl
    rw [hcmp, vectorCmp_eq_eq, vector_eq_iff]
    constructor
    · rintro hiff ⟨x', y', hx, hy, hne, hzeros⟩
      cases hx
      cases hy
      exact hne (hiff.mpr hzeros)
    · intro hnot
      constructor
      · rintro rfl
        exact forall₂_same.mpr fun _ _ => .inl rfl
      · intro hzeros
        by_contra hne
        exact hnot ⟨x, y, rfl, rfl, hne, hzeros⟩
  · refine iff_of_true (eq_iff_cmp_of_not_vector fun x y hxy => h ⟨x, y, hxy⟩) ?_
    rintro ⟨x, y, hx, hy, -⟩
    exact h ⟨x, y, hx, hy⟩

/-! ### Equality and hash -/

/-- Equal values that are hashed apart: the double 2⁶³ beside a big integer or a
decimal of that value, and one instant or one time of day under two forms. -/
def HashedApart : FlakeValue → FlakeValue → Prop
  | .double x, .bigInt v => x = twoPow63 ∧ v = 2 ^ 63
  | .bigInt v, .double x => x = twoPow63 ∧ v = 2 ^ 63
  | .double x, .decimal d => x = twoPow63 ∧ d.toRat = 2 ^ 63
  | .decimal d, .double x => x = twoPow63 ∧ d.toRat = 2 ^ 63
  | .date a, .date b => a.toInstant = b.toInstant ∧ a ≠ b
  | .time a, .time b => a.toUtcTime = b.toUtcTime ∧ a ≠ b
  | _, _ => False

theorem hashOption_offset_inj {a b : Option FixedOffset}
    (h : hashOption (a.map fun o => .i32 o.localMinusUtc) =
      hashOption (b.map fun o => .i32 o.localMinusUtc)) : a = b := by
  cases a with
  | none =>
    cases b with
    | none => rfl
    | some => simp [hashOption] at h
  | some o =>
    cases b with
    | none => simp [hashOption] at h
    | some o' =>
      cases o
      cases o'
      simpa [hashOption] using h

theorem Date.hash_inj {a b : Date} (h : a.hash = b.hash) : a = b := by
  rw [Date.hash, Date.hash, cons.injEq, HashWrite.date.injEq] at h
  rw [Date.mk.injEq]
  exact ⟨h.1, hashOption_offset_inj h.2⟩

theorem Time.hash_inj {a b : Time} (h : a.hash = b.hash) : a = b := by
  rw [Time.hash, Time.hash, cons.injEq, cons.injEq, HashWrite.u32.injEq,
    HashWrite.u32.injEq] at h
  rw [Time.mk.injEq, NaiveTime.mk.injEq]
  exact ⟨⟨h.1, h.2.1⟩, hashOption_offset_inj h.2.2⟩

theorem typeDiscriminant_of_eq (hnum : (a.isNumeric && b.isNumeric) = false) (h : a.eq b) :
    a.typeDiscriminant = b.typeDiscriminant := by
  by_contra hne
  have hcmp := (eq_iff_cmp_of_not_vector fun x y hxy => hne (by rw [hxy.1, hxy.2]; rfl)).mp h
  rw [cmp_of_ne hne hnum, compare_eq_iff_eq] at hcmp
  exact hne hcmp

/-- Values outside the numbers, dates and times are equal only if the same. -/
theorem eq_of_eq_plain (hnum : a.isNumeric = false) (hdate : a.typeDiscriminant ≠ 7)
    (htime : a.typeDiscriminant ≠ 8) (h : a.eq b) : a = b := by
  have hsame := typeDiscriminant_of_eq (by rw [hnum, Bool.false_and]) h
  rw [eq, hnum, Bool.false_and] at h
  cases a with
  | null =>
    cases b <;> cases hsame
    rfl
  | vector =>
    cases b <;> cases hsame
    exact congrArg _ ((vector_eq_iff _ _).mp h)
  | date => exact absurd rfl hdate
  | time => exact absurd rfl htime
  | dateTime d =>
    cases b <;> cases hsame
    next e =>
      have hinstant : d.instant = e.instant := by
        simpa [isTemporal, temporalCmp, DateTime.cmp, Instant.cmp_eq_eq] using h
      cases d
      cases e
      simpa using hinstant
  | duration =>
    cases b <;> cases hsame
    simpa [isDuration, temporalCmp, Duration.partialCmp_eq_eq] using h
  | long | double | bigInt | decimal => cases hnum
  | _ =>
    cases b <;> cases hsame
    all_goals simpa [isTemporal, isDuration, temporalCmp, sameTypeEq] using h

theorem date_eq_iff (a b : Date) : eq (.date a) (.date b) ↔ a.toInstant = b.toInstant := by
  rw [← Instant.cmp_eq_eq, ← Date.cmp_eq]
  simp [eq, isNumeric, isTemporal, temporalCmp]

theorem time_eq_iff (a b : Time) : eq (.time a) (.time b) ↔ a.toUtcTime = b.toUtcTime := by
  rw [← NaiveTime.cmp_eq_eq, ← Time.cmp_eq]
  simp [eq, isNumeric, isTemporal, temporalCmp]

theorem hash_twoPow63 : hash (.double twoPow63) ≠ hash (.bigInt (2 ^ 63)) := by decide +kernel

theorem number_twoPow63 : number? (.double twoPow63) = some (2 ^ 63) := by
  have hvalue : twoPow63.toRat = ((2 ^ 63 : ℤ) : ℚ) := toRat_of_units units_twoPow63
  rw [number?, if_pos (by decide +kernel), hvalue]
  norm_num

theorem hash_of_twoPow63 (hv : v.number? = some (2 ^ 63)) (hne : v ≠ .double twoPow63) :
    v.hash = hash (.bigInt (2 ^ 63)) := by
  obtain ⟨d, hd⟩ := number_decimal hv
  rw [hash_of_number hv hne hd]
  exact hashDecimalCanonical_int (hd.trans (by norm_num))

theorem eq_of_number (ha : a.number? = some q) (hb : b.number? = some q) : a.eq b := by
  rw [eq, isNumeric_of_number ha, isNumeric_of_number hb, numericCmp_of_number ha hb]
  simp

theorem apart_twoPow63 (hv : v.number? = some (2 ^ 63)) (hne : v ≠ .double twoPow63) :
    (eq (.double twoPow63) v ∧ hash (.double twoPow63) ≠ v.hash) ∧
      v.eq (.double twoPow63) ∧ v.hash ≠ hash (.double twoPow63) := by
  rw [hash_of_twoPow63 hv hne]
  exact ⟨⟨eq_of_number number_twoPow63 hv, hash_twoPow63⟩,
    eq_of_number hv number_twoPow63, hash_twoPow63.symm⟩

theorem hashedApart_twoPow63 (hv : v.number? = some (2 ^ 63)) :
    v = .double twoPow63 ∨
      (HashedApart (.double twoPow63) v ∧ HashedApart v (.double twoPow63)) := by
  rcases number_cases hv with ⟨w, rfl, hw⟩ | ⟨w, rfl, hw⟩ | ⟨d, rfl, hd⟩ | ⟨x, rfl, hx, hq⟩
  · have hlt := Int64.toInt_lt w
    have heq : w.toInt = 2 ^ 63 := by exact_mod_cast hw.symm
    omega
  · have heq : w = 2 ^ 63 := by exact_mod_cast hw.symm
    exact .inr ⟨⟨rfl, heq⟩, rfl, heq⟩
  · exact .inr ⟨⟨rfl, hd.symm⟩, rfl, hd.symm⟩
  · refine .inl (congrArg _ (eq_twoPow63 ?_))
    have hrat : x.toRat = twoPow63.toRat := by
      rw [← hq, toRat_of_units units_twoPow63]
      norm_num
    have hcmp : compare x.units twoPow63.units = compare x.toRat twoPow63.toRat :=
      compare_toRat ..
    rw [hrat, Std.compare_self] at hcmp
    rw [← units_twoPow63]
    exact compare_eq_iff_eq.mp hcmp

theorem hash_of_eq_numeric (ha : a.isNumeric) (hb : b.isNumeric) (h : a.eq b)
    (hapart : ¬ HashedApart a b) : a.hash = b.hash := by
  rw [eq, ha, hb, Bool.and_self, if_pos rfl, beq_iff_eq] at h
  rcases numericCmp_eq_eq ha hb h with rfl | ⟨q, hqa, hqb⟩
  · rfl
  by_cases ha63 : a = .double twoPow63
  · subst ha63
    rw [number_twoPow63, some.injEq] at hqa
    subst hqa
    rcases hashedApart_twoPow63 hqb with rfl | hsplit
    · rfl
    · exact absurd hsplit.1 hapart
  by_cases hb63 : b = .double twoPow63
  · subst hb63
    rw [number_twoPow63, some.injEq] at hqb
    subst hqb
    rcases hashedApart_twoPow63 hqa with rfl | hsplit
    · rfl
    · exact absurd hsplit.2 hapart
  obtain ⟨d, hd⟩ := number_decimal hqa
  rw [hash_of_number hqa ha63 hd, hash_of_number hqb hb63 hd]

theorem hash_of_eq (h : a.eq b) (hapart : ¬ HashedApart a b) : a.hash = b.hash := by
  cases hnum : a.isNumeric && b.isNumeric with
  | true =>
    rw [and_eq_true] at hnum
    exact hash_of_eq_numeric hnum.1 hnum.2 h hapart
  | false =>
    have hsame := typeDiscriminant_of_eq hnum h
    have hnum' : a.isNumeric = false := by
      rw [isNumeric_eq b, ← hsame, ← isNumeric_eq a, Bool.and_self] at hnum
      exact hnum
    cases a with
    | date d =>
      cases b <;> cases hsame
      next e =>
        by_contra hne
        exact hapart ⟨(date_eq_iff d e).mp h, fun heq => hne (by rw [heq])⟩
    | time d =>
      cases b <;> cases hsame
      next e =>
        by_contra hne
        exact hapart ⟨(time_eq_iff d e).mp h, fun heq => hne (by rw [heq])⟩
    | _ =>
      rw [eq_of_eq_plain hnum' (by simp [typeDiscriminant]) (by simp [typeDiscriminant]) h]

theorem eq_and_hash_ne_of_hashedApart (h : HashedApart a b) : a.eq b ∧ a.hash ≠ b.hash := by
  unfold HashedApart at h
  split at h
  · obtain ⟨rfl, rfl⟩ := h
    exact (apart_twoPow63 (by norm_num [number?]) (by simp)).1
  · obtain ⟨rfl, rfl⟩ := h
    exact (apart_twoPow63 (by norm_num [number?]) (by simp)).2
  · obtain ⟨rfl, hd⟩ := h
    exact (apart_twoPow63 (v := .decimal _) (congrArg some hd) (by simp)).1
  · obtain ⟨rfl, hd⟩ := h
    exact (apart_twoPow63 (v := .decimal _) (congrArg some hd) (by simp)).2
  · next d e =>
    refine ⟨(date_eq_iff d e).mpr h.1, fun hhash => h.2 (Date.hash_inj ?_)⟩
    exact (cons.inj hhash).2
  · next d e =>
    refine ⟨(time_eq_iff d e).mpr h.1, fun hhash => h.2 (Time.hash_inj ?_)⟩
    exact (cons.inj hhash).2
  · exact h.elim

/-- **Where equality, order and hash agree.** Two values are equal exactly when
they compare equal, unless they are vectors that differ in the signs of zeros;
equal values are hashed alike, unless they are hashed apart by the double 2⁶³ or
by two forms of one date or time; and metadata is equal exactly when it compares
equal, unless a list index hides two languages. -/
theorem identity_agrees_iff (a b : FlakeValue) (m m' : FlakeMeta) :
    ((a.eq b ↔ a.cmp b = .eq) ↔ ¬ ZeroSignsDiffer a b) ∧
    ((a.eq b → a.hash = b.hash) ↔ ¬ HashedApart a b) ∧
    ((m = m' ↔ m.cmp m' = .eq) ↔ ¬ (m.i = m'.i ∧ m.i ≠ none ∧ m.lang ≠ m'.lang)) := by
  refine ⟨eq_iff_cmp a b, ?_, ?_⟩
  · constructor
    · intro himp hapart
      obtain ⟨heq, hne⟩ := eq_and_hash_ne_of_hashedApart hapart
      exact hne (himp heq)
    · intro hapart heq
      exact hash_of_eq heq hapart
  · rw [FlakeMeta.cmp_eq_iff]
    obtain ⟨lang, i⟩ := m
    obtain ⟨lang', i'⟩ := m'
    simp only [FlakeMeta.mk.injEq]
    tauto

/-- A vector of one zero and of the other, the number 2⁶³ in two types, the first
of January with and without a timezone, and two languages at one list index. -/
theorem identity_disagrees :
    (cmp (.vector [⟨0#64⟩]) (.vector [⟨0x8000000000000000#64⟩]) = .eq ∧
      eq (.vector [⟨0#64⟩]) (.vector [⟨0x8000000000000000#64⟩]) = false) ∧
    (eq (.double twoPow63) (.bigInt (2 ^ 63)) = true ∧
      hash (.double twoPow63) ≠ hash (.bigInt (2 ^ 63))) ∧
    (eq (.date ⟨⟨19723, by decide⟩, none⟩) (.date ⟨⟨19723, by decide⟩, some ⟨0, by decide⟩⟩) = true ∧
      hash (.date ⟨⟨19723, by decide⟩, none⟩) ≠
        hash (.date ⟨⟨19723, by decide⟩, some ⟨0, by decide⟩⟩)) ∧
    FlakeMeta.cmp ⟨some "en", some 0⟩ ⟨some "fr", some 0⟩ = .eq ∧
    (⟨some "en", some 0⟩ : FlakeMeta) ≠ ⟨some "fr", some 0⟩ := by
  decide +kernel

end FlakeValue

end FlureeDb.Core
