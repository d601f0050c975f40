import Mathlib.Tactic.FieldSimp
import FlureeDb.Core.FlakeValue
import FlureeDb.Lib.Comparator

/-!
Where the order of values is an order. Exact numbers are compared by their
rational values on every route, so all values without a NaN and without an
infinite double are ordered by one key. A double that is not finite has no
decimal form, its comparison with the other numeric types falls back on the
type, and that contradicts the order of the numbers on both sides of it.
-/

namespace FlureeDb.Core

open Lib List Option Bool BigDecimal Std.OrientedOrd Int

variable {x : F64}

namespace BigDecimal

def toRat (d : BigDecimal) : ℚ := d.digits * 10 ^ (-d.scale)

theorem digitsAt_eq (d : BigDecimal) {scale : ℤ} (h : d.scale ≤ scale) :
    (d.digitsAt scale : ℚ) = d.toRat * 10 ^ scale := by
  have hpow : (10 : ℚ) ^ (scale - d.scale).toNat = 10 ^ (-d.scale) * 10 ^ scale := by
    rw [← zpow_natCast, ← zpow_add₀ (by norm_num)]
    congr 1
    omega
  rw [digitsAt, toRat, cast_mul, cast_pow, cast_ofNat, hpow, mul_assoc]

theorem partialCmp_eq (a b : BigDecimal) : a.partialCmp b = some (compare a.toRat b.toRat) := by
  have hcast : StrictMono (Int.cast : ℤ → ℚ) := cast_strictMono
  have hmul : StrictMono fun q : ℚ => q * 10 ^ max a.scale b.scale :=
    strictMono_mul_right_of_pos (zpow_pos (by norm_num) _)
  rw [partialCmp, ← compare_map hcast, digitsAt_eq a (le_max_left _ _),
    digitsAt_eq b (le_max_right _ _), compare_map hmul]

@[simp] theorem toRat_ofInt (v : ℤ) : (ofInt v).toRat = v := by
  rw [toRat, ofInt, neg_zero, zpow_zero, mul_one]

theorem toRat_of_tryFrom {d : BigDecimal} (h : tryFrom x = some d) : d.toRat = x.toRat := by
  unfold tryFrom at h
  split at h
  · cases h
    have hpow : (5 : ℚ) ^ 1074 * 10 ^ (-1074 : ℤ) = 1 / 2 ^ 1074 := by
      rw [zpow_neg, show (10 : ℚ) = 5 * 2 by norm_num, mul_zpow, mul_inv, ← mul_assoc]
      have h5 : (5 : ℚ) ^ 1074 * ((5 : ℚ) ^ (1074 : ℤ))⁻¹ = 1 :=
        mul_inv_cancel₀ (pow_ne_zero _ (by norm_num))
      rw [h5, one_mul, one_div]
      rfl
    rw [toRat, F64.toRat, cast_mul, cast_pow, cast_ofNat, mul_assoc, hpow,
      mul_one_div]
  · cases h

end BigDecimal

variable {a b : FlakeValue}

namespace FlakeValue

/-- The mathematical value of a number, none for a NaN or an infinity. -/
def number? : FlakeValue → Option ℚ
  | .long v => some v.toInt
  | .bigInt v => some v
  | .decimal d => some d.toRat
  | .double x => if x.isFinite then some x.toRat else none
  | _ => none

theorem wrappingAbs_toInt {v : Int64} (h : v ≠ Int64.minValue) :
    Int64.toInt (wrappingAbs v) = v.toInt.natAbs := by
  have hbits : v.toBitVec ≠ BitVec.intMin 64 := fun hv => h (Int64.toBitVec.inj hv)
  exact BitVec.toInt_abs_eq_natAbs_of_ne_intMin hbits

/-- Whenever the conversion to a double is chosen, it is exact. The absolute
value of `i64::MIN` wraps to itself and passes the test, and its conversion is
exact as well. -/
theorem units_of_i64FitsF64 {v : Int64} (h : Id.run (i64FitsF64 wrappingAbs v) = true) :
    (F64.ofInt v.toInt).isFinite ∧ (F64.ofInt v.toInt).units = v.toInt * 2 ^ 1074 := by
  by_cases hmin : v = Int64.minValue
  · subst hmin
    exact ⟨by decide +kernel, by decide +kernel⟩
  · refine F64.units_ofInt ?_
    have hle : Int64.toInt (wrappingAbs v) ≤ 2 ^ 53 := of_decide_eq_true h
    rw [wrappingAbs_toInt hmin] at hle
    exact_mod_cast hle

theorem compare_toRat (n : ℤ) (x : F64) :
    compare n x.units = compare ((n : ℚ) / 2 ^ 1074) x.toRat := by
  have hcast : StrictMono (Int.cast : ℤ → ℚ) := cast_strictMono
  have hdiv : StrictMono fun q : ℚ => q / 2 ^ 1074 :=
    strictMono_div_right_of_pos (pow_pos (by norm_num) _)
  rw [← compare_map hcast, ← compare_map hdiv]
  rfl

theorem compare_intCast (a b : ℤ) : compare a b = compare (a : ℚ) (b : ℚ) :=
  (compare_map cast_strictMono a b).symm

theorem tryFrom_of_isFinite (h : x.isFinite) : ∃ d, tryFrom x = some d ∧ d.toRat = x.toRat := by
  refine ⟨⟨x.units * 5 ^ 1074, 1074⟩, if_pos h, toRat_of_tryFrom (if_pos h)⟩

theorem longVsDouble_run (a : Int64) (x : F64) :
    Id.run (longVsDouble wrappingAbs a x) =
      if Id.run (i64FitsF64 wrappingAbs a) then (F64.ofInt a.toInt).partialCmp x
      else (tryFrom x).bind (ofInt a.toInt).partialCmp := by
  unfold longVsDouble
  rw [Id.run_bind]
  split <;> rfl

theorem longVsDouble_eq (a : Int64) (hx : x.isFinite) :
    Id.run (longVsDouble wrappingAbs a x) = some (compare (a.toInt : ℚ) x.toRat) := by
  obtain ⟨d, hd, hvalue⟩ := tryFrom_of_isFinite hx
  rw [longVsDouble_run]
  split
  · next hfits =>
    obtain ⟨hfinite, hunits⟩ := units_of_i64FitsF64 hfits
    rw [F64.partialCmp_of_not_isNaN (F64.not_isNaN_of_isFinite hfinite)
      (F64.not_isNaN_of_isFinite hx), hunits, compare_toRat, cast_mul, cast_pow,
      cast_ofNat, mul_div_cancel_right₀ _ (pow_ne_zero _ (by norm_num))]
  · rw [hd, bind_some, partialCmp_eq, toRat_ofInt, hvalue]

theorem doubleVsDecimal_eq (hx : x.isFinite) (d : BigDecimal) :
    doubleVsDecimal x d = some (compare x.toRat d.toRat) := by
  obtain ⟨x', hx', hvalue⟩ := tryFrom_of_isFinite hx
  rw [doubleVsDecimal, hx', bind_some, partialCmp_eq, hvalue]

theorem doubleVsBigInt_eq (hx : x.isFinite) (v : ℤ) :
    doubleVsBigInt x v = some (compare x.toRat (v : ℚ)) := by
  rw [← toRat_ofInt, ← doubleVsDecimal_eq hx]
  rfl

theorem swap_compare_rat (q r : ℚ) : (some (compare q r)).map Ordering.swap = some (compare r q) := by
  rw [map_some, ← eq_swap]

/-- A number is one of the four numeric types, a double only if finite. -/
theorem number_cases {a : FlakeValue} {q : ℚ} (h : a.number? = some q) :
    (∃ v, a = .long v ∧ q = v.toInt) ∨ (∃ v, a = .bigInt v ∧ q = v) ∨
      (∃ d, a = .decimal d ∧ q = d.toRat) ∨ ∃ x, a = .double x ∧ x.isFinite ∧ q = x.toRat := by
  cases a with
  | long v => exact .inl ⟨v, rfl, (some.inj h).symm⟩
  | bigInt v => exact .inr (.inl ⟨v, rfl, (some.inj h).symm⟩)
  | decimal d => exact .inr (.inr (.inl ⟨d, rfl, (some.inj h).symm⟩))
  | double x =>
    change (if x.isFinite then some x.toRat else none) = some q at h
    split at h
    · exact .inr (.inr (.inr ⟨x, rfl, ‹_›, (some.inj h).symm⟩))
    · cases h
  | _ => cases h

/-- On every route between two exact numbers the answer is the order of their
values. -/
theorem numericCmp_of_number {q r : ℚ} (ha : a.number? = some q) (hb : b.number? = some r) :
    a.numericCmp b = some (compare q r) := by
  rcases number_cases ha with ⟨v, rfl, rfl⟩ | ⟨v, rfl, rfl⟩ | ⟨d, rfl, rfl⟩ | ⟨x, rfl, hx, rfl⟩ <;>
  rcases number_cases hb with ⟨w, rfl, rfl⟩ | ⟨w, rfl, rfl⟩ | ⟨e, rfl, rfl⟩ | ⟨y, rfl, hy, rfl⟩
  · exact congrArg some (compare_intCast _ _)
  · exact congrArg some (compare_intCast _ _)
  · rw [← toRat_ofInt, ← partialCmp_eq]
    rfl
  · exact longVsDouble_eq v hy
  · exact congrArg some (compare_intCast _ _)
  · exact congrArg some (compare_intCast _ _)
  · rw [← toRat_ofInt, ← partialCmp_eq]
    rfl
  · rw [← swap_compare_rat, ← doubleVsBigInt_eq hy]
    rfl
  · rw [← toRat_ofInt, ← partialCmp_eq]
    rfl
  · rw [← toRat_ofInt, ← partialCmp_eq]
    rfl
  · exact congrArg (or · (some .eq)) (partialCmp_eq d e)
  · rw [← swap_compare_rat, ← doubleVsDecimal_eq hy]
    rfl
  · rw [← swap_compare_rat, ← longVsDouble_eq w hx]
    rfl
  · exact doubleVsBigInt_eq hx w
  · exact doubleVsDecimal_eq hx e
  · have hunits : compare x.units y.units = compare x.toRat y.toRat := compare_toRat x.units y
    rw [← hunits]
    exact congrArg (or · (some (x.bitsCmp y))) (F64.partialCmp_of_not_isNaN
      (F64.not_isNaN_of_isFinite hx) (F64.not_isNaN_of_isFinite hy))

theorem numericCmp_of_sameType (ha : a.isNumeric) (h : a.typeDiscriminant = b.typeDiscriminant) :
    a.numericCmp b = some (a.sameTypeCmp b) := by
  cases a with
  | long | bigInt | decimal => cases b <;> cases h; rfl
  | double x =>
    cases b with
    | double y =>
      change (x.partialCmp y).or (some (x.bitsCmp y)) = some (x.cmpOrBits y)
      rw [F64.cmpOrBits]
      cases x.partialCmp y <;> rfl
    | _ => cases h
  | _ => cases ha

theorem cmp_of_isNumeric (ha : a.isNumeric) (hb : b.isNumeric) :
    a.cmp b = (a.numericCmp b).getD (compare a.typeDiscriminant b.typeDiscriminant) := by
  unfold cmp
  split
  · next h => rw [numericCmp_of_sameType ha h, getD_some]
  · rw [ha, hb]
    cases hcmp : a.numericCmp b with
    | some => rfl
    | none =>
      have hclass : (a.isTemporal && b.isTemporal || a.isDuration && b.isDuration) = false := by
        cases a <;> first | rfl | cases ha
      simp [hclass]

theorem temporalCmp_of_ne (h : a.typeDiscriminant ≠ b.typeDiscriminant) :
    a.temporalCmp b = none := by
  unfold temporalCmp
  split <;> first | rfl | exact absurd rfl h

theorem cmp_of_ne (h : a.typeDiscriminant ≠ b.typeDiscriminant)
    (hnum : (a.isNumeric && b.isNumeric) = false) :
    a.cmp b = compare a.typeDiscriminant b.typeDiscriminant := by
  rw [cmp, if_neg h, hnum, temporalCmp_of_ne h]
  simp

theorem isNumeric_of_number {q : ℚ} (h : a.number? = some q) : a.isNumeric := by
  cases a <;> first | rfl | cases h

theorem cmp_of_number {q r : ℚ} (ha : a.number? = some q) (hb : b.number? = some r) :
    a.cmp b = compare q r := by
  rw [cmp_of_isNumeric (isNumeric_of_number ha) (isNumeric_of_number hb),
    numericCmp_of_number ha hb, getD_some]

/-! ### One key for all ordinary values -/

/-- No double that is not finite, and in vectors no NaN with a clear sign bit. -/
def Ordinary : FlakeValue → Prop
  | .double x => x.isFinite
  | .vector elements => ∀ x ∈ elements, x.isNaN → x.isNegative
  | _ => True

/-- What the values are ordered by: the type, where the numeric types count as
one, then the number, the integers, the text and the floats of the value. -/
abbrev SortKey := ℕ ×ₗ ℚ ×ₗ List ℤ ×ₗ String ×ₗ List (ℕ ×ₗ ℤ)

def SortKey.mk (rank : ℕ) (number : ℚ) (ints : List ℤ) (text : String)
    (floats : List (ℕ ×ₗ ℤ)) : SortKey :=
  toLex (rank, toLex (number, toLex (ints, toLex (text, floats))))

theorem SortKey.compare_mk (rank rank' : ℕ) (number number' : ℚ) (ints ints' : List ℤ)
    (text text' : String) (floats floats' : List (ℕ ×ₗ ℤ)) :
    compare (SortKey.mk rank number ints text floats)
        (SortKey.mk rank' number' ints' text' floats') =
      (compare rank rank').then ((compare number number').then
        ((compare ints ints').then ((compare text text').then (compare floats floats')))) := rfl

variable (v : FlakeValue)

theorem isNumeric_eq : v.isNumeric = decide (3 ≤ v.typeDiscriminant ∧ v.typeDiscriminant ≤ 6) := by
  cases v <;> rfl

/-- Position of the type in the order of types, one for all numeric types. -/
def rank : ℕ := if v.isNumeric then 3 else v.typeDiscriminant

def sortKey : SortKey :=
  match v with
  | .ref sid => .mk v.rank 0 [sid.namespaceCode] sid.name []
  | .boolean b => .mk v.rank 0 [b.toNat] "" []
  | .dateTime d => .mk v.rank 0 [d.instant.date.day, d.instant.time.secs, d.instant.time.frac] "" []
  | .date d =>
    .mk v.rank 0 [d.toInstant.date.day, d.toInstant.time.secs, d.toInstant.time.frac] "" []
  | .time t => .mk v.rank 0 [t.toUtcTime.secs, t.toUtcTime.frac] "" []
  | .gYear year => .mk v.rank 0 [year] "" []
  | .gYearMonth year month => .mk v.rank 0 [year, month] "" []
  | .gMonth month => .mk v.rank 0 [month] "" []
  | .gDay day => .mk v.rank 0 [day] "" []
  | .gMonthDay month day => .mk v.rank 0 [month, day] "" []
  | .yearMonthDuration months => .mk v.rank 0 [months] "" []
  | .dayTimeDuration micros => .mk v.rank 0 [micros] "" []
  | .duration d => .mk v.rank 0 [d.months, d.micros] "" []
  | .string s => .mk v.rank 0 [] s []
  | .json s => .mk v.rank 0 [] s []
  | .geoPoint bits => .mk v.rank 0 [bits] "" []
  | .vector elements =>
    .mk v.rank 0 [if elements.isEmpty then 1 else 0] "" (elements.map F64.orderKey)
  | v => .mk v.rank (v.number?.getD 0) [] "" []

theorem vectorLoop_eq (a b : List F64) : vectorLoop a b = List.compareLex F64.cmpOrBits a b := by
  induction a generalizing b with
  | nil => cases b <;> rfl
  | cons x a ih =>
    cases b with
    | nil => rfl
    | cons =>
      rw [List.compareLex_cons_cons, ← ih]
      unfold vectorLoop
      rw [zip_cons_cons, foldr_cons, length_cons, length_cons,
        compare_map (f := fun n : ℕ => n + 1) (fun _ _ h => Nat.succ_lt_succ h)]

/-- Vectors compare by the keys of their elements, the empty one last. -/
theorem vectorCmp_eq {a b : List F64} (ha : ∀ x ∈ a, x.isNaN → x.isNegative)
    (hb : ∀ x ∈ b, x.isNaN → x.isNegative) :
    vectorCmp a b =
      (compare [if a.isEmpty then (1 : ℤ) else 0] [if b.isEmpty then (1 : ℤ) else 0]).then
        (compare (a.map F64.orderKey) (b.map F64.orderKey)) := by
  have hloop : List.compareLex F64.cmpOrBits a b =
      compare (a.map F64.orderKey) (b.map F64.orderKey) := by
    rw [← compareLex_map]
    induction a generalizing b with
    | nil => cases b <;> rfl
    | cons x a ih =>
      cases b with
      | nil => rfl
      | cons =>
        rw [forall_mem_cons] at ha hb
        rw [List.compareLex_cons_cons, List.compareLex_cons_cons, ih ha.2 hb.2,
          F64.cmpOrBits_eq_orderKey ha.1 hb.1]
  cases a with
  | nil => cases b <;> rfl
  | cons =>
    cases b with
    | nil => rfl
    | cons =>
      rw [← hloop, ← vectorLoop_eq]
      rfl

theorem compare_natCast (a b : ℕ) : compare (a : ℤ) (b : ℤ) = compare a b :=
  compare_map natCast_strictMono a b

theorem NaiveTime.cmp_eq_ints (a b : NaiveTime) :
    a.cmp b = compare [(a.secs : ℤ), a.frac] [(b.secs : ℤ), b.frac] := by
  simp [NaiveTime.cmp, compare_natCast]

theorem Instant.cmp_eq_ints (a b : Instant) :
    a.cmp b = compare [a.date.day, a.time.secs, a.time.frac]
      [b.date.day, b.time.secs, b.time.frac] := by
  rw [List.compare_cons_cons, ← NaiveTime.cmp_eq_ints]
  rfl

theorem sameTypeCmp_eq_sortKey (ha : a.Ordinary) (hb : b.Ordinary) (hnum : a.isNumeric = false)
    (h : a.typeDiscriminant = b.typeDiscriminant) :
    a.sameTypeCmp b = compare a.sortKey b.sortKey := by
  have hrank : compare a.rank b.rank = .eq := by
    have hnum' : b.isNumeric = false := by rw [← hnum, isNumeric_eq, isNumeric_eq, h]
    rw [rank, rank, hnum, hnum', h]
    exact Std.compare_self
  cases a with
  | dateTime =>
    cases b <;> cases h
    next b => simp [sameTypeCmp, sortKey, SortKey.compare_mk, hrank, DateTime.cmp, Instant.cmp_eq_ints]
  | date =>
    cases b <;> cases h
    next b => simp [sameTypeCmp, sortKey, SortKey.compare_mk, hrank, Date.cmp_eq, Instant.cmp_eq_ints]
  | time =>
    cases b <;> cases h
    next b => simp [sameTypeCmp, sortKey, SortKey.compare_mk, hrank,
      Time.cmp_eq, NaiveTime.cmp_eq_ints]
  | boolean a =>
    cases b <;> cases h
    next b => cases a <;> cases b <;> rfl
  | vector =>
    cases b <;> cases h
    next b => simp [sameTypeCmp, sortKey, SortKey.compare_mk, hrank, vectorCmp_eq ha hb]
  | _ =>
    cases b <;> cases h
    all_goals first
      | cases hnum; done
      | simp [sameTypeCmp, sortKey, SortKey.compare_mk, hrank, Sid.cmp, Duration.cmp,
          compare_natCast]

theorem number_of_ordinary {v : FlakeValue} (hnum : v.isNumeric) (h : v.Ordinary) :
    ∃ q, v.number? = some q ∧ v.sortKey = .mk 3 q [] "" [] := by
  cases v with
  | double x =>
    have hx : x.isFinite := h
    exact ⟨x.toRat, if_pos hx, by simp [sortKey, rank, isNumeric, number?, hx]⟩
  | long v => exact ⟨v.toInt, rfl, rfl⟩
  | bigInt v => exact ⟨v, rfl, rfl⟩
  | decimal d => exact ⟨d.toRat, rfl, rfl⟩
  | _ => cases hnum

theorem sortKey_rank : (ofLex v.sortKey).1 = v.rank := by
  cases v <;> rfl

/-- Where the types are told apart the rest of the key is not read. -/
theorem compare_sortKey_of_rank (h : compare a.rank b.rank ≠ .eq) :
    compare a.sortKey b.sortKey = compare a.rank b.rank := by
  have hlex : compare a.sortKey b.sortKey = (compare (ofLex a.sortKey).1 (ofLex b.sortKey).1).then
      (compare (ofLex a.sortKey).2 (ofLex b.sortKey).2) := rfl
  rw [hlex, sortKey_rank, sortKey_rank]
  cases hcmp : compare a.rank b.rank with
  | eq => exact absurd hcmp h
  | lt => rfl
  | gt => rfl

/-- Ordinary values are ordered by their keys. -/
theorem cmp_eq_sortKey (ha : a.Ordinary) (hb : b.Ordinary) :
    a.cmp b = compare a.sortKey b.sortKey := by
  cases hnum : a.isNumeric && b.isNumeric with
  | true =>
    rw [and_eq_true] at hnum
    obtain ⟨q, hq, hkey⟩ := number_of_ordinary hnum.1 ha
    obtain ⟨r, hr, hkey'⟩ := number_of_ordinary hnum.2 hb
    rw [cmp_of_number hq hr, hkey, hkey', SortKey.compare_mk]
    simp
  | false =>
    by_cases h : a.typeDiscriminant = b.typeDiscriminant
    · have hnum' : a.isNumeric = false := by
        rw [isNumeric_eq b, ← h, ← isNumeric_eq a, Bool.and_self] at hnum
        exact hnum
      rw [cmp, if_pos h, sameTypeCmp_eq_sortKey ha hb hnum' h]
    · -- the ranks differ and are ordered as the types are
      have hrank : compare a.rank b.rank = compare a.typeDiscriminant b.typeDiscriminant := by
        rw [isNumeric_eq, isNumeric_eq] at hnum
        unfold rank
        rw [isNumeric_eq, isNumeric_eq]
        simp only [Nat.compare_eq_ite_lt]
        grind
      have hne : compare a.typeDiscriminant b.typeDiscriminant ≠ .eq := by
        rwa [Ne, compare_eq_iff_eq]
      rw [cmp_of_ne h hnum, compare_sortKey_of_rank (hrank ▸ hne), hrank]

theorem ordinary_totalPreorder : TotalPreorderOn cmp {v | v.Ordinary} :=
  .of_key sortKey compare fun _ ha _ hb => cmp_eq_sortKey ha hb

/-! ### Exchanging the sides -/

theorem decimalCmp_swap (a b : BigDecimal) :
    b.partialCmp a = (a.partialCmp b).map Ordering.swap := by
  rw [partialCmp_eq, partialCmp_eq, swap_compare_rat]

theorem map_swap_swap (o : Option Ordering) : (o.map Ordering.swap).map Ordering.swap = o := by
  cases o with
  | none => rfl
  | some ord => cases ord <;> rfl

theorem numericCmp_swap (a b : FlakeValue) :
    b.numericCmp a = (a.numericCmp b).map Ordering.swap := by
  cases a with
  | long =>
    cases b with
    | long | bigInt => exact congrArg some eq_swap
    | decimal e => exact decimalCmp_swap _ e
    | _ => rfl
  | bigInt =>
    cases b with
    | long | bigInt => exact congrArg some eq_swap
    | decimal e => exact decimalCmp_swap _ e
    | double => exact (map_swap_swap _).symm
    | _ => rfl
  | decimal d =>
    cases b with
    | long | bigInt => exact decimalCmp_swap d _
    | decimal e => exact decimalCmp_swap d e
    | double => exact (map_swap_swap _).symm
    | _ => rfl
  | double x =>
    cases b with
    | long => exact (map_swap_swap _).symm
    | double y =>
      change (y.partialCmp x).or (some (y.bitsCmp x)) =
        ((x.partialCmp y).or (some (x.bitsCmp y))).map Ordering.swap
      rw [← F64.partialCmp_swap x]
      cases x.partialCmp y with
      | none => exact congrArg some eq_swap
      | some => rfl
    | _ => rfl
  | _ => cases b <;> rfl

instance : Std.OrientedCmp F64.cmpOrBits where
  eq_swap := F64.cmpOrBits_swap _ _

theorem vectorCmp_swap (a b : List F64) : vectorCmp b a = (vectorCmp a b).swap := by
  cases a with
  | nil => cases b <;> rfl
  | cons x a =>
    cases b with
    | nil => rfl
    | cons y b =>
      change vectorLoop (y :: b) (x :: a) = (vectorLoop (x :: a) (y :: b)).swap
      rw [vectorLoop_eq, vectorLoop_eq]
      exact Std.OrientedCmp.eq_swap

/-- Exchanging the sides reverses the answer, for all values. -/
theorem cmp_swap (a b : FlakeValue) : b.cmp a = (a.cmp b).swap := by
  cases hnum : a.isNumeric && b.isNumeric with
  | true =>
    rw [and_eq_true] at hnum
    rw [cmp_of_isNumeric hnum.2 hnum.1, cmp_of_isNumeric hnum.1 hnum.2, numericCmp_swap a]
    cases a.numericCmp b with
    | none => exact eq_swap
    | some => rfl
  | false =>
    by_cases h : a.typeDiscriminant = b.typeDiscriminant
    · cases a with
      | vector a =>
        cases b <;> cases h
        exact vectorCmp_swap a _
      | double =>
        cases b <;> cases h
        cases hnum
      | _ =>
        -- every other type has ordinary values only
        cases b <;> cases h
        all_goals apply ordinary_totalPreorder.reverse <;> trivial
    · rw [cmp_of_ne h hnum, cmp_of_ne (symm h) (by rw [Bool.and_comm, hnum])]
      exact eq_swap

theorem cmp_self (a : FlakeValue) : a.cmp a = .eq := Ordering.eq_eq_of_eq_swap (cmp_swap a a)

/-! ### Values that are not ordinary -/

theorem tryFrom_of_not_isFinite (hx : x.isFinite = false) : tryFrom x = none :=
  if_neg (by rw [hx]; exact false_ne_true)

/-- Beside the decimals a double that is not finite falls back on its type. -/
theorem cmp_double_decimal (hx : x.isFinite = false) (d : BigDecimal) :
    cmp (.double x) (.decimal d) = .lt := by
  have hnone : numericCmp (.double x) (.decimal d) = none := by
    change doubleVsDecimal x d = none
    rw [doubleVsDecimal, tryFrom_of_not_isFinite hx, bind_none]
  rw [cmp_of_isNumeric rfl rfl, hnone]
  rfl

theorem cmp_long_nan (hx : x.isNaN) : cmp (.long 1) (.double x) = .lt := by
  have hnone : numericCmp (.long 1) (.double x) = none := by
    change Id.run (longVsDouble wrappingAbs 1 x) = none
    rw [longVsDouble_run, if_pos (by decide), F64.partialCmp_eq_none (.inr hx)]
  rw [cmp_of_isNumeric rfl rfl, hnone]
  rfl

def posInfinity : F64 := ⟨0x7FF0000000000000#64⟩

def negInfinity : F64 := ⟨0xFFF0000000000000#64⟩

theorem infinity_cases (hfinite : x.isFinite = false) (hnan : x.isNaN = false) :
    x = posInfinity ∨ x = negInfinity := by
  have hlow : x.low = 2047 * 2 ^ 52 := by
    have h1 : ¬ x.low < 2047 * 2 ^ 52 := by rw [← F64.isFinite_iff, hfinite]; simp
    have h2 : ¬ 2047 * 2 ^ 52 < x.low := by rw [← F64.isNaN_iff, hnan]; simp
    omega
  cases hsign : x.isNegative with
  | false => exact .inl (F64.ext_low hsign hlow)
  | true => exact .inr (F64.ext_low hsign hlow)

/-- The value stands between two ordinary ones in the wrong order. -/
def BreaksOrder (v : FlakeValue) : Prop :=
  ∃ a c : FlakeValue, a.Ordinary ∧ c.Ordinary ∧ (a.cmp v).isLE ∧ (v.cmp c).isLE ∧ ¬ (a.cmp c).isLE

theorem not_finite_breaks_order (hx : x.isFinite = false) : BreaksOrder (.double x) := by
  have hdecimal := cmp_double_decimal hx ⟨0, 0⟩
  cases hnan : x.isNaN with
  | true =>
    refine ⟨.long 1, .decimal ⟨0, 0⟩, trivial, trivial, ?_, ?_, by decide +kernel⟩
    · rw [cmp_long_nan hnan]
      rfl
    · rw [hdecimal]
      rfl
  | false =>
    rcases infinity_cases hx hnan with rfl | rfl
    · refine ⟨.long 1, .decimal ⟨0, 0⟩, trivial, trivial, by decide +kernel, ?_,
        by decide +kernel⟩
      rfl
    · refine ⟨.bigInt 0, .long (-1), trivial, trivial, ?_, by decide +kernel,
        by decide +kernel⟩
      rfl

def one : F64 := ⟨0x3FF0000000000000#64⟩

def minusOne : F64 := ⟨0xBFF0000000000000#64⟩

theorem compareLex_prefix (pre : List F64) (a b : List F64) :
    List.compareLex F64.cmpOrBits (pre ++ a) (pre ++ b) = List.compareLex F64.cmpOrBits a b := by
  induction pre with
  | nil => rfl
  | cons x pre ih =>
    rw [cons_append, cons_append, List.compareLex_cons_cons, ih]
    have hself : x.cmpOrBits x = .eq := Std.ReflCmp.compare_self
    rw [hself]
    rfl

theorem vectorCmp_append (pre : List F64) (x y : F64) (a b : List F64) :
    vectorCmp (pre ++ x :: a) (pre ++ y :: b) = (x.cmpOrBits y).then
      (List.compareLex F64.cmpOrBits a b) := by
  have hempty : ∀ z (c : List F64), (pre ++ z :: c).isEmpty = false := by simp
  rw [vectorCmp, hempty, hempty, vectorLoop_eq, compareLex_prefix, List.compareLex_cons_cons]
  rfl

/-- By its bits a NaN with a clear sign bit is above one and below minus one. -/
theorem cmpOrBits_nan (hx : x.isNaN) (hsign : x.isNegative = false) :
    one.cmpOrBits x = .lt ∧ x.cmpOrBits minusOne = .lt := by
  have hbits := F64.bits_toNat x
  have hlow := (F64.isNaN_iff x).mp hx
  have hlt := F64.low_lt x
  rw [hsign, if_neg Bool.false_ne_true] at hbits
  constructor
  · rw [F64.cmpOrBits, F64.partialCmp_eq_none (.inr hx), getD_none, F64.bitsCmp,
      Nat.compare_eq_lt]
    have hone : one.bits.toNat = 0x3FF0000000000000 := rfl
    omega
  · rw [F64.cmpOrBits, F64.partialCmp_eq_none (.inl hx), getD_none, F64.bitsCmp,
      Nat.compare_eq_lt]
    have hone : minusOne.bits.toNat = 0xBFF0000000000000 := rfl
    omega

theorem exists_first {p : F64 → Prop} (elements : List F64) (h : ¬ ∀ x ∈ elements, p x) :
    ∃ pre x post, elements = pre ++ x :: post ∧ (∀ y ∈ pre, p y) ∧ ¬ p x := by
  induction elements with
  | nil => simp at h
  | cons x elements ih =>
    by_cases hx : p x
    · have hrest : ¬ ∀ y ∈ elements, p y := fun hall => h (by simpa [hx] using hall)
      obtain ⟨pre, y, post, rfl, hpre, hy⟩ := ih hrest
      exact ⟨x :: pre, y, post, rfl, by simpa [hx] using hpre, hy⟩
    · exact ⟨[], x, elements, rfl, by simp, hx⟩

theorem nan_vector_breaks_order {elements : List F64} (h : ¬ Ordinary (.vector elements)) :
    BreaksOrder (.vector elements) := by
  obtain ⟨pre, x, post, rfl, hpre, hx⟩ := exists_first elements h
  rw [Classical.not_imp, not_eq_true] at hx
  obtain ⟨hlow, hhigh⟩ := cmpOrBits_nan hx.1 hx.2
  have hordinary : ∀ y : F64, y.isNaN = false → Ordinary (.vector (pre ++ [y])) := by
    intro y hy z hz
    rcases mem_append.mp hz with hz | hz
    · exact hpre z hz
    · rw [mem_singleton.mp hz, hy]
      exact fun hfalse => absurd hfalse false_ne_true
  refine ⟨.vector (pre ++ [one]), .vector (pre ++ [minusOne]), hordinary one (by decide),
    hordinary minusOne (by decide), ?_, ?_, ?_⟩
  · change (vectorCmp (pre ++ [one]) (pre ++ x :: post)).isLE
    rw [vectorCmp_append, hlow]
    rfl
  · change (vectorCmp (pre ++ x :: post) (pre ++ [minusOne])).isLE
    rw [vectorCmp_append, hhigh]
    rfl
  · change ¬ (vectorCmp (pre ++ [one]) (pre ++ [minusOne])).isLE
    rw [vectorCmp_append, show one.cmpOrBits minusOne = .gt by decide +kernel]
    exact false_ne_true

theorem breaks_order {v : FlakeValue} (h : ¬ v.Ordinary) : v.BreaksOrder := by
  cases v with
  | double => exact not_finite_breaks_order (eq_false_iff.mpr h)
  | vector => exact nan_vector_breaks_order h
  | _ => exact absurd trivial h

/-! ### Overflow -/

theorem longVsDouble_checked (a : Int64) (x : F64) :
    longVsDouble checkedAbs a x =
      if a = Int64.minValue then none else some (Id.run (longVsDouble wrappingAbs a x)) := by
  unfold longVsDouble i64FitsF64 checkedAbs
  by_cases hmin : a = Int64.minValue
  · rw [if_pos hmin, if_pos hmin]
    rfl
  · rw [if_neg hmin, if_neg hmin]
    change (if decide (a.abs.toInt ≤ 2 ^ 53) = true then some _ else some _) =
      some (if decide (a.abs.toInt ≤ 2 ^ 53) = true then _ else _)
    split <;> rfl

/-- `i64::MIN` is compared with a double. -/
def MinMeetsDouble (a b : FlakeValue) : Prop :=
  (a = .long Int64.minValue ∧ ∃ x, b = .double x) ∨
    (b = .long Int64.minValue ∧ ∃ x, a = .double x)

theorem minMeetsDouble_iff (v : Int64) (x : F64) :
    (MinMeetsDouble (.long v) (.double x) ↔ v = Int64.minValue) ∧
      (MinMeetsDouble (.double x) (.long v) ↔ v = Int64.minValue) := by
  simp [MinMeetsDouble]

/-- With overflow checks the comparison has no result when `i64::MIN` meets a
double, and the result without the checks otherwise. -/
theorem numericCmpChecked_eq (a b : FlakeValue) :
    (MinMeetsDouble a b ∧ a.numericCmpChecked b = none) ∨
      (¬ MinMeetsDouble a b ∧ a.numericCmpChecked b = some (a.numericCmp b)) := by
  cases a with
  | long v =>
    cases b with
    | double x =>
      have hchecked : numericCmpChecked (.long v) (.double x) = longVsDouble checkedAbs v x :=
        rfl
      rw [hchecked, longVsDouble_checked, (minMeetsDouble_iff v x).1]
      by_cases hmin : v = Int64.minValue
      · exact .inl ⟨hmin, if_pos hmin⟩
      · exact .inr ⟨hmin, if_neg hmin⟩
    | _ => exact .inr ⟨by rintro (⟨-, x, ⟨⟩⟩ | ⟨-, x, ⟨⟩⟩), rfl⟩
  | double x =>
    cases b with
    | long v =>
      have hchecked : numericCmpChecked (.double x) (.long v) =
          (longVsDouble checkedAbs v x).map (Option.map Ordering.swap) := by
        change (longVsDouble checkedAbs v x >>= fun o => some (o.map Ordering.swap)) = _
        cases longVsDouble checkedAbs v x <;> rfl
      rw [hchecked, longVsDouble_checked, (minMeetsDouble_iff v x).2]
      by_cases hmin : v = Int64.minValue
      · exact .inl ⟨hmin, by rw [if_pos hmin, map_none]⟩
      · refine .inr ⟨hmin, ?_⟩
        rw [if_neg hmin]
        rfl
    | _ => exact .inr ⟨by rintro (⟨⟨⟩, -⟩ | ⟨⟨⟩, -⟩), rfl⟩
  | _ =>
    refine .inr ⟨?_, ?_⟩
    · rintro (⟨⟨⟩, -⟩ | ⟨-, x, ⟨⟩⟩)
    · cases b <;> rfl

/-- **When the order of values is an order.** Every value compares equal to
itself and exchanging the sides reverses the answer. Transitivity holds among
the ordinary values, and no other value can be added to them. Nothing overflows
unless `i64::MIN` meets a double. Numbers other than NaN and the infinities
compare by their mathematical values. -/
theorem cmp_total_preorder_iff (T : Set FlakeValue) (a b : FlakeValue) :
    a.cmp a = .eq ∧ b.cmp a = (a.cmp b).swap ∧
    (TotalPreorderOn cmp {v | v.Ordinary ∨ v ∈ T} ↔ ∀ v ∈ T, v.Ordinary) ∧
    (a.numericCmpChecked b = none ↔ MinMeetsDouble a b) ∧
    (¬ MinMeetsDouble a b → a.numericCmpChecked b = some (a.numericCmp b)) ∧
    ∀ q r : ℚ, a.number? = some q → b.number? = some r → a.cmp b = compare q r := by
  refine ⟨cmp_self a, cmp_swap a b, ?_, ?_, ?_, fun q r => cmp_of_number⟩
  · constructor
    · intro hT v hv
      by_contra hnot
      obtain ⟨a, c, ha, hc, hav, hvc, hac⟩ := breaks_order hnot
      exact hac (hT.trans a (.inl ha) v (.inr hv) c (.inl hc) hav hvc)
    · intro hT
      exact ordinary_totalPreorder.mono fun v hv => hv.elim id (hT v)
  · rcases numericCmpChecked_eq a b with ⟨hmeets, hnone⟩ | ⟨hmeets, hsome⟩
    · exact iff_of_true hnone hmeets
    · exact iff_of_false (by rw [hsome]; exact some_ne_none _) hmeets
  · intro hnot
    rcases numericCmpChecked_eq a b with ⟨hmeets, -⟩ | ⟨-, hsome⟩
    · exact absurd hmeets hnot
    · exact hsome

/-- One, NaN and a decimal zero go round in a circle, and so do a decimal zero,
one and infinity; comparing `i64::MIN` with zero overflows. -/
theorem cmp_goes_round :
    cmp (.long 1) (.double ⟨0x7FF8000000000000#64⟩) = .lt ∧
      cmp (.double ⟨0x7FF8000000000000#64⟩) (.decimal ⟨0, 0⟩) = .lt ∧
      cmp (.decimal ⟨0, 0⟩) (.long 1) = .lt ∧
      cmp (.long 1) (.double posInfinity) = .lt ∧
      cmp (.double posInfinity) (.decimal ⟨0, 0⟩) = .lt ∧
      numericCmpChecked (.long Int64.minValue) (.double ⟨0#64⟩) = none := by
  decide +kernel

end FlakeValue

end FlureeDb.Core
