import FlureeDb.Core.ValueHash
import FlureeDb.Lib.SortableBits

/-!
The 64 bit keys of the values that an index row holds inline, and when they are
faithful: equal exactly for equal values, and ordered as the values are. Dates
and times lose something on the way. A date is keyed by its local day and a
time by its local microsecond, while both compare in UTC; a time or an instant
is keyed by whole microseconds, while it compares by the nanosecond.
-/

namespace FlureeDb.Core

open Lib Option SortableBits NaiveTime Instant Int64

abbrev ObjKey := BitVec 64

inductive ObjKeyError
  | nan
  | infinite
  deriving DecidableEq

namespace ObjKey

def encodeI64 (value : Int64) : ObjKey := value.toBitVec ^^^ signFlip

def encodeF64 (value : F64) : Except ObjKeyError ObjKey :=
  if value.isNaN then .error .nan
  else if value.isInfinite then .error .infinite
  else .ok (flipF64 (canonicalZero value).bits)

def encodeBool (value : Bool) : ObjKey := if value then 1#64 else 0#64

def encodeDate (daysSinceEpoch : ℤ) : ObjKey := encodeI64 (ofInt daysSinceEpoch)

def encodeTime (microsSinceMidnight : ℕ) : ObjKey := BitVec.ofNat 64 microsSinceMidnight

def encodeDatetime (epochMicros : ℤ) : ObjKey := encodeI64 (ofInt epochMicros)

def encodeGYear (year : ℤ) : ObjKey := encodeI64 (ofInt year)

def encodeGYearMonth (year : ℤ) (month : ℕ) : ObjKey :=
  encodeI64 (ofInt (year * 12 + (month - 1)))

def encodeGMonth (month : ℕ) : ObjKey := BitVec.ofNat 64 month

def encodeGDay (day : ℕ) : ObjKey := BitVec.ofNat 64 day

/-- The arithmetic is that of an unsigned 32 bit word. -/
def encodeGMonthDay (month day : ℕ) : ObjKey :=
  ((BitVec.ofNat 32 month - 1#32) * 31#32 + (BitVec.ofNat 32 day - 1#32)).setWidth 64

def encodeYearMonthDur (months : ℤ) : ObjKey := encodeI64 (ofInt months)

def encodeDayTimeDur (micros : ℤ) : ObjKey := encodeI64 (ofInt micros)

end ObjKey

def Date.daysSinceEpoch (d : Date) : ℤ := d.date.day

def Time.microsSinceMidnight (t : Time) : ℕ := t.time.secs * 1000000 + t.time.frac / 1000

/-- The nanoseconds are cut off to microseconds; those of a leap second reach
into the next second. -/
def Instant.timestampMicros (i : Instant) : ℤ :=
  i.timestamp * 1000000 + (i.time.frac / 1000 : ℕ)

def DateTime.epochMicros (d : DateTime) : ℤ := d.instant.timestampMicros

/-- The kinds of the values that are kept inline. -/
inductive ObjKind
  | bool
  | numInt
  | numF64
  | date
  | time
  | dateTime
  | gYear
  | gYearMonth
  | gMonth
  | gDay
  | gMonthDay
  | yearMonthDur
  | dayTimeDur
  deriving DecidableEq

structure OType where
  raw : ℕ
  deriving DecidableEq

namespace OType

def null : OType := ⟨1⟩
def xsdBoolean : OType := ⟨2⟩
def xsdDate : OType := ⟨0x13⟩
def xsdTime : OType := ⟨0x14⟩
def xsdDateTime : OType := ⟨0x15⟩
def xsdGYear : OType := ⟨0x16⟩
def xsdGYearMonth : OType := ⟨0x17⟩
def xsdGMonth : OType := ⟨0x18⟩
def xsdGDay : OType := ⟨0x19⟩
def xsdGMonthDay : OType := ⟨0x1A⟩
def xsdYearMonthDuration : OType := ⟨0x1B⟩
def xsdDayTimeDuration : OType := ⟨0x1C⟩

end OType

namespace FlakeValue

/-- The arms of `CommitResolver::resolve_object` for the values that are kept
inline. There is no result where the value is rejected or kept in a
dictionary. -/
def resolveInline : FlakeValue → Option (ObjKind × ObjKey)
  | .boolean b => some (.bool, ObjKey.encodeBool b)
  | .long v => some (.numInt, ObjKey.encodeI64 v)
  | .double x => (ObjKey.encodeF64 x).toOption.map fun key => (.numF64, key)
  | .date d => some (.date, ObjKey.encodeDate d.daysSinceEpoch)
  | .time t => some (.time, ObjKey.encodeTime t.microsSinceMidnight)
  | .dateTime d => some (.dateTime, ObjKey.encodeDatetime d.epochMicros)
  | .gYear year => some (.gYear, ObjKey.encodeGYear year)
  | .gYearMonth year month => some (.gYearMonth, ObjKey.encodeGYearMonth year month)
  | .gMonth month => some (.gMonth, ObjKey.encodeGMonth month)
  | .gDay day => some (.gDay, ObjKey.encodeGDay day)
  | .gMonthDay month day => some (.gMonthDay, ObjKey.encodeGMonthDay month day)
  | .yearMonthDuration months => some (.yearMonthDur, ObjKey.encodeYearMonthDur months)
  | .dayTimeDuration micros => some (.dayTimeDur, ObjKey.encodeDayTimeDur micros)
  | _ => none

/-- The same arms of `value_to_otype_okey`, for a datatype with the given type
tag. A double that has no key is written as null. -/
def overlayInline (dtOtype : Option OType) : FlakeValue → Option (OType × ObjKey)
  | .boolean b => some (OType.xsdBoolean, ObjKey.encodeBool b)
  | .long v => dtOtype.map fun ot => (ot, ObjKey.encodeI64 v)
  | .double x => dtOtype.map fun ot =>
    match ObjKey.encodeF64 x with
    | .ok key => (ot, key)
    | .error _ => (OType.null, 0#64)
  | .date d => some (OType.xsdDate, ObjKey.encodeDate d.daysSinceEpoch)
  | .time t => some (OType.xsdTime, ObjKey.encodeTime t.microsSinceMidnight)
  | .dateTime d => some (OType.xsdDateTime, ObjKey.encodeDatetime d.epochMicros)
  | .gYear year => some (OType.xsdGYear, ObjKey.encodeGYear year)
  | .gYearMonth year month =>
    some (OType.xsdGYearMonth, ObjKey.encodeGYearMonth year month)
  | .gMonth month => some (OType.xsdGMonth, ObjKey.encodeGMonth month)
  | .gDay day => some (OType.xsdGDay, ObjKey.encodeGDay day)
  | .gMonthDay month day => some (OType.xsdGMonthDay, ObjKey.encodeGMonthDay month day)
  | .yearMonthDuration months =>
    some (OType.xsdYearMonthDuration, ObjKey.encodeYearMonthDur months)
  | .dayTimeDuration micros =>
    some (OType.xsdDayTimeDuration, ObjKey.encodeDayTimeDur micros)
  | _ => none

/-- The values with a key of their own, within the widths of the source's types
and the bounds its parsers check. -/
def keptInline : FlakeValue → Bool
  | .boolean _ | .long _ | .date _ | .time _ | .dateTime _ => true
  | .double x => x.isFinite
  | .gYear year => decide (-2 ^ 31 ≤ year ∧ year < 2 ^ 31)
  | .gYearMonth year month =>
    decide (-2 ^ 31 ≤ year ∧ year < 2 ^ 31 ∧ 1 ≤ month ∧ month ≤ 12)
  | .gMonth month => decide (1 ≤ month ∧ month ≤ 12)
  | .gDay day => decide (1 ≤ day ∧ day ≤ 31)
  | .gMonthDay month day => decide (1 ≤ month ∧ month ≤ 12 ∧ 1 ≤ day ∧ day ≤ 31)
  | .yearMonthDuration months => decide (-2 ^ 31 ≤ months ∧ months < 2 ^ 31)
  | .dayTimeDuration micros => decide (-2 ^ 63 ≤ micros ∧ micros < 2 ^ 63)
  | _ => false

end FlakeValue

/-! ### The order of the encodings -/

namespace ObjKey

theorem toNat_encodeI64 (v : Int64) : ((encodeI64 v).toNat : ℤ) = v.toInt + 2 ^ 63 :=
  toNat_xor_signFlip_eq_toInt v.toBitVec

theorem compare_encodeI64 (v w : Int64) :
    compare (encodeI64 v).toNat (encodeI64 w).toNat = compare v.toInt w.toInt := by
  have hv := toNat_encodeI64 v
  have hw := toNat_encodeI64 w
  rw [compare_eq_compare_iff]
  omega

theorem compare_encodeI64_ofInt {a b : ℤ} (ha : -2 ^ 63 ≤ a ∧ a < 2 ^ 63)
    (hb : -2 ^ 63 ≤ b ∧ b < 2 ^ 63) :
    compare (encodeI64 (ofInt a)).toNat (encodeI64 (ofInt b)).toNat = compare a b := by
  rw [compare_encodeI64, toInt_ofInt_of_le ha.1 ha.2, toInt_ofInt_of_le hb.1 hb.2]

theorem compare_ofNat {a b : ℕ} (ha : a < 2 ^ 64) (hb : b < 2 ^ 64) :
    compare (BitVec.ofNat 64 a).toNat (BitVec.ofNat 64 b).toNat = compare a b := by
  rw [BitVec.toNat_ofNat, BitVec.toNat_ofNat, Nat.mod_eq_of_lt ha, Nat.mod_eq_of_lt hb]

theorem compare_encodeBool (a b : Bool) :
    compare (encodeBool a).toNat (encodeBool b).toNat = compare a b := by
  cases a <;> cases b <;> decide

theorem encodeF64_of_isFinite {x : F64} (h : x.isFinite) :
    encodeF64 x = .ok (flipF64 (canonicalZero x).bits) := by
  have hnan := F64.not_isNaN_of_isFinite h
  have hinf : x.isInfinite = false := by
    rw [F64.isFinite_iff] at h
    exact beq_eq_false_iff_ne.mpr h.ne
  rw [encodeF64, hnan, hinf, if_neg Bool.false_ne_true, if_neg Bool.false_ne_true]

theorem toNat_encodeGMonthDay {month day : ℕ} (hmonth : 1 ≤ month ∧ month ≤ 12)
    (hday : 1 ≤ day ∧ day ≤ 31) :
    (encodeGMonthDay month day).toNat = (month - 1) * 31 + (day - 1) := by
  have hm : (BitVec.ofNat 32 month - 1#32).toNat = month - 1 := by bv_omega
  have hd : (BitVec.ofNat 32 day - 1#32).toNat = day - 1 := by bv_omega
  have hmul : ((BitVec.ofNat 32 month - 1#32) * 31#32).toNat = (month - 1) * 31 := by
    rw [BitVec.toNat_mul, BitVec.toNat_ofNat]
    omega
  rw [encodeGMonthDay, BitVec.toNat_setWidth, BitVec.toNat_add]
  omega

end ObjKey

/-- The offset that takes a date to its instant: none when there is no UTC date
for it. -/
def Date.utcOffset (d : Date) : ℤ :=
  match d.tzOffset with
  | some offset =>
    if (d.date.midnightAt offset).isSome then offset.localMinusUtc else 0
  | none => 0

theorem Instant.cmp_eq_timestamp (i j : Instant) :
    i.cmp j = (compare i.timestamp j.timestamp).then (compare i.time.frac j.time.frac) := by
  have hi := i.time.valid.1
  have hj := j.time.valid.1
  rw [cmp, NaiveDate.cmp, NaiveTime.cmp, ← Ordering.then_assoc]
  congr 1
  rcases lt_trichotomy i.date.day j.date.day with h | h | h
  · have hlt : i.timestamp < j.timestamp := by
      unfold timestamp
      omega
    rw [compare_lt_iff_lt.mpr h, compare_lt_iff_lt.mpr hlt]
    rfl
  · rw [compare_eq_iff_eq.mpr h, timestamp, timestamp]
    show compare i.time.secs j.time.secs = _
    rw [compare_eq_compare_iff]
    omega
  · have hgt : j.timestamp < i.timestamp := by
      unfold timestamp
      omega
    rw [compare_gt_iff_gt.mpr h, compare_gt_iff_gt.mpr hgt]
    rfl

theorem NaiveDate.midnightAt_spec {date : NaiveDate} {offset : FixedOffset} {i : Instant}
    (h : date.midnightAt offset = some i) :
    i.timestamp = date.day * 86400 - offset.localMinusUtc ∧ i.time.frac = 0 := by
  rw [midnightAt, map_eq_some_iff] at h
  obtain ⟨utcDate, hday, rfl⟩ := h
  unfold ofDay at hday
  split at hday
  · cases hday
    refine ⟨?_, rfl⟩
    show (date.day + -offset.localMinusUtc / 86400) * 86400 +
      ((-offset.localMinusUtc % 86400).toNat : ℤ) = _
    omega
  · cases hday

theorem Date.toInstant_spec (d : Date) :
    d.toInstant.timestamp = d.date.day * 86400 - d.utcOffset ∧ d.toInstant.time.frac = 0 := by
  have hmidnight : (⟨d.date, midnight⟩ : Instant).timestamp = d.date.day * 86400 - 0 ∧
      (⟨d.date, midnight⟩ : Instant).time.frac = 0 :=
    ⟨by simp [timestamp, midnight], rfl⟩
  unfold toInstant utcOffset
  cases d.tzOffset with
  | none => exact hmidnight
  | some offset =>
    cases hutc : d.date.midnightAt offset with
    | none =>
      simpa only [hutc, getD_none, isSome_none, Bool.false_eq_true, if_false]
        using hmidnight
    | some i =>
      simpa only [hutc, getD_some, isSome_some, if_true]
        using NaiveDate.midnightAt_spec hutc

theorem Date.cmp_eq_utcOffset (a b : Date) :
    a.cmp b = compare (a.date.day * 86400 - a.utcOffset) (b.date.day * 86400 - b.utcOffset) := by
  obtain ⟨ha, hafrac⟩ := a.toInstant_spec
  obtain ⟨hb, hbfrac⟩ := b.toInstant_spec
  rw [cmp_eq, cmp_eq_timestamp, ha, hb, hafrac, hbfrac]
  exact Ordering.then_eq

theorem Time.frac_toUtcTime (t : Time) : t.toUtcTime.frac = t.time.frac := by
  unfold toUtcTime
  cases t.tzOffset with
  | none => rfl
  | some offset =>
    dsimp only
    generalize (((t.time.secs : ℤ) - offset.localMinusUtc) % 86400).toNat = secs
    show ((fromNumSecondsFromMidnightOpt secs t.time.frac).getD t.time).frac = _
    cases hutc : fromNumSecondsFromMidnightOpt secs t.time.frac with
    | none => rfl
    | some utc =>
      unfold fromNumSecondsFromMidnightOpt at hutc
      split at hutc
      · split at hutc
        · cases hutc
        · cases hutc
          rfl
      · cases hutc

/-! ### When keys are faithful -/

/-- Two dates of one day have one offset, and of two days the offsets do not
turn the order round. -/
def Date.KeysAgree (a b : Date) : Prop :=
  (a.date.day = b.date.day → a.utcOffset = b.utcOffset) ∧
  (a.date.day < b.date.day →
    b.utcOffset - a.utcOffset < 86400 * (b.date.day - a.date.day)) ∧
  (b.date.day < a.date.day →
    a.utcOffset - b.utcOffset < 86400 * (a.date.day - b.date.day))

/-- The same microsecond of the local day is the same time in UTC, to the
nanosecond, and an earlier one is an earlier time in UTC. -/
def Time.KeysAgree (a b : Time) : Prop :=
  (a.microsSinceMidnight = b.microsSinceMidnight →
    a.toUtcTime.secs = b.toUtcTime.secs ∧ a.time.frac = b.time.frac) ∧
  (a.microsSinceMidnight < b.microsSinceMidnight →
    a.toUtcTime.secs < b.toUtcTime.secs ∨
      a.toUtcTime.secs = b.toUtcTime.secs ∧ a.time.frac < b.time.frac) ∧
  (b.microsSinceMidnight < a.microsSinceMidnight →
    b.toUtcTime.secs < a.toUtcTime.secs ∨
      b.toUtcTime.secs = a.toUtcTime.secs ∧ b.time.frac < a.time.frac)

/-- Two instants of one second differ by a microsecond if at all, and of two
seconds no leap second of the first reaches as far as the second. -/
def DateTime.KeysAgree (a b : DateTime) : Prop :=
  (a.instant.timestamp = b.instant.timestamp →
    a.instant.time.frac / 1000 = b.instant.time.frac / 1000 →
      a.instant.time.frac = b.instant.time.frac) ∧
  (a.instant.timestamp < b.instant.timestamp →
    ((a.instant.time.frac / 1000 : ℕ) : ℤ) < (b.instant.time.frac / 1000 : ℕ) +
      1000000 * (b.instant.timestamp - a.instant.timestamp)) ∧
  (b.instant.timestamp < a.instant.timestamp →
    ((b.instant.time.frac / 1000 : ℕ) : ℤ) < (a.instant.time.frac / 1000 : ℕ) +
      1000000 * (a.instant.timestamp - b.instant.timestamp))

variable {a b : FlakeValue}

namespace FlakeValue

/-- Every other inline type has faithful keys. -/
def KeysAgree : FlakeValue → FlakeValue → Prop
  | .date a, .date b => a.KeysAgree b
  | .time a, .time b => a.KeysAgree b
  | .dateTime a, .dateTime b => a.KeysAgree b
  | _, _ => True

/-- Both values have a key, the keys with their tags are equal exactly when the
values are, and they compare as the values do. -/
def Faithful {κ : Type} (encode : FlakeValue → Option (κ × ObjKey)) (a b : FlakeValue) : Prop :=
  ∃ p q, encode a = some p ∧ encode b = some q ∧ (p = q ↔ a.eq b = true) ∧
    compare p.2.toNat q.2.toNat = a.cmp b

/-- The key alone, which does not depend on the tag it stands with. -/
def inlineKey : FlakeValue → ObjKey
  | .boolean b => ObjKey.encodeBool b
  | .long v => ObjKey.encodeI64 v
  | .double x => flipF64 (canonicalZero x).bits
  | .date d => ObjKey.encodeDate d.daysSinceEpoch
  | .time t => ObjKey.encodeTime t.microsSinceMidnight
  | .dateTime d => ObjKey.encodeDatetime d.epochMicros
  | .gYear year => ObjKey.encodeGYear year
  | .gYearMonth year month => ObjKey.encodeGYearMonth year month
  | .gMonth month => ObjKey.encodeGMonth month
  | .gDay day => ObjKey.encodeGDay day
  | .gMonthDay month day => ObjKey.encodeGMonthDay month day
  | .yearMonthDuration months => ObjKey.encodeYearMonthDur months
  | .dayTimeDuration micros => ObjKey.encodeDayTimeDur micros
  | _ => 0#64

/-- Both encoders give two inline values of one type their keys under one tag. -/
theorem encoders_eq (ha : a.keptInline) (hb : b.keptInline)
    (hsame : a.typeDiscriminant = b.typeDiscriminant) (ot : OType) :
    (∃ kind, a.resolveInline = some (kind, a.inlineKey) ∧
      b.resolveInline = some (kind, b.inlineKey)) ∧
    (∃ tag, a.overlayInline (some ot) = some (tag, a.inlineKey) ∧
      b.overlayInline (some ot) = some (tag, b.inlineKey)) := by
  cases a <;> cases b <;> try first | (cases ha; done) | (cases hsame; done)
  case double.double x y =>
    refine ⟨⟨.numF64, ?_⟩, ⟨ot, ?_⟩⟩
    · rw [resolveInline, resolveInline, ObjKey.encodeF64_of_isFinite ha,
        ObjKey.encodeF64_of_isFinite hb]
      exact ⟨rfl, rfl⟩
    · rw [overlayInline, overlayInline, ObjKey.encodeF64_of_isFinite ha,
        ObjKey.encodeF64_of_isFinite hb]
      exact ⟨rfl, rfl⟩
  all_goals exact ⟨⟨_, rfl, rfl⟩, ⟨_, rfl, rfl⟩⟩

/-- With one tag for both keys the order decides the equality as well. -/
theorem faithful_iff {κ : Type} {encode : FlakeValue → Option (κ × ObjKey)}
    (hkeys : ∃ tag, encode a = some (tag, a.inlineKey) ∧ encode b = some (tag, b.inlineKey))
    (heq : a.eq b = true ↔ a.cmp b = .eq) :
    Faithful encode a b ↔ compare a.inlineKey.toNat b.inlineKey.toNat = a.cmp b := by
  obtain ⟨tag, ha, hb⟩ := hkeys
  constructor
  · rintro ⟨p, q, hp, hq, -, hcmp⟩
    obtain rfl : (tag, a.inlineKey) = p := some.inj (ha.symm.trans hp)
    obtain rfl : (tag, b.inlineKey) = q := some.inj (hb.symm.trans hq)
    exact hcmp
  · intro hcmp
    refine ⟨(tag, a.inlineKey), (tag, b.inlineKey), ha, hb, ?_, hcmp⟩
    rw [heq, ← hcmp, compare_eq_iff_eq]
    exact ⟨fun h => congrArg (fun p : κ × ObjKey => p.2.toNat) h,
      fun h => by rw [BitVec.eq_of_toNat_eq h]⟩

/-! ### Type by type -/

theorem compare_date_iff (a b : Date) :
    compare (inlineKey (.date a)).toNat (inlineKey (.date b)).toNat = a.cmp b ↔
      a.KeysAgree b := by
  have harange := a.date.inRange
  have hbrange := b.date.inRange
  unfold minDay maxDay at harange hbrange
  show compare (ObjKey.encodeI64 (ofInt a.date.day)).toNat
    (ObjKey.encodeI64 (ofInt b.date.day)).toNat = _ ↔ _
  rw [ObjKey.compare_encodeI64_ofInt (by omega) (by omega), Date.cmp_eq_utcOffset,
    compare_eq_compare_iff]
  unfold Date.KeysAgree
  omega

theorem compare_time_iff (a b : Time) :
    compare (inlineKey (.time a)).toNat (inlineKey (.time b)).toNat = a.cmp b ↔
      a.KeysAgree b := by
  have hbound : ∀ t : Time, t.microsSinceMidnight < 2 ^ 64 := by
    intro t
    have := t.time.valid
    unfold Time.microsSinceMidnight
    omega
  show compare (BitVec.ofNat 64 a.microsSinceMidnight).toNat
    (BitVec.ofNat 64 b.microsSinceMidnight).toNat = _ ↔ _
  rw [ObjKey.compare_ofNat (hbound a) (hbound b), Time.cmp_eq, NaiveTime.cmp,
    Time.frac_toUtcTime, Time.frac_toUtcTime]
  exact compare_eq_then_iff

theorem compare_dateTime_iff (a b : DateTime) :
    compare (inlineKey (.dateTime a)).toNat (inlineKey (.dateTime b)).toNat = a.cmp b ↔
      a.KeysAgree b := by
  have hbound : ∀ i : Instant, -2 ^ 63 ≤ i.timestampMicros ∧ i.timestampMicros < 2 ^ 63 := by
    intro i
    have hday := i.date.inRange
    have htime := i.time.valid
    unfold minDay maxDay at hday
    unfold timestampMicros timestamp
    omega
  show compare (ObjKey.encodeI64 (ofInt a.instant.timestampMicros)).toNat
    (ObjKey.encodeI64 (ofInt b.instant.timestampMicros)).toNat = _ ↔ _
  rw [ObjKey.compare_encodeI64_ofInt (hbound _) (hbound _), DateTime.cmp,
    cmp_eq_timestamp, compare_eq_then_iff]
  unfold DateTime.KeysAgree timestampMicros
  omega

theorem compare_gYearMonth {y z : ℤ} {m n : ℕ} (hm : 1 ≤ m ∧ m ≤ 12) (hn : 1 ≤ n ∧ n ≤ 12) :
    compare (y * 12 + ((m : ℤ) - 1)) (z * 12 + ((n : ℤ) - 1)) =
      (compare y z).then (compare m n) := by
  rw [compare_eq_then_iff]
  omega

theorem compare_gMonthDay {m n d e : ℕ} (hm : 1 ≤ m ∧ m ≤ 12) (hn : 1 ≤ n ∧ n ≤ 12)
    (hd : 1 ≤ d ∧ d ≤ 31) (he : 1 ≤ e ∧ e ≤ 31) :
    compare (ObjKey.encodeGMonthDay m d).toNat (ObjKey.encodeGMonthDay n e).toNat =
      (compare m n).then (compare d e) := by
  rw [ObjKey.toNat_encodeGMonthDay hm hd, ObjKey.toNat_encodeGMonthDay hn he,
    compare_eq_then_iff]
  omega

theorem compare_double {x y : F64} (hx : x.isFinite) (hy : y.isFinite) :
    compare (inlineKey (.double x)).toNat (inlineKey (.double y)).toNat =
      cmp (.double x) (.double y) := by
  show _ = (x.partialCmp y).getD _
  rw [F64.partialCmp_of_not_isNaN (F64.not_isNaN_of_isFinite hx) (F64.not_isNaN_of_isFinite hy)]
  exact compare_flipF64 x y

/-- Keys compare as the values do, except for the dates and times that do not
agree. -/
theorem compare_inlineKey_iff (ha : a.keptInline) (hb : b.keptInline)
    (hsame : a.typeDiscriminant = b.typeDiscriminant) :
    compare a.inlineKey.toNat b.inlineKey.toNat = a.cmp b ↔ a.KeysAgree b := by
  -- two values of one type, within the bounds of that type
  cases a <;> cases b <;> (try first | (cases ha; done) | (cases hsame; done)) <;>
    simp only [keptInline, decide_eq_true_eq] at *
  case date.date a b => exact compare_date_iff a b
  case time.time a b => exact compare_time_iff a b
  case dateTime.dateTime a b => exact compare_dateTime_iff a b
  all_goals refine iff_of_true ?_ trivial
  case boolean.boolean a b => exact ObjKey.compare_encodeBool a b
  case long.long a b => exact ObjKey.compare_encodeI64 a b
  case double.double x y => exact compare_double ha hb
  case gYearMonth.gYearMonth y m z n =>
    exact (ObjKey.compare_encodeI64_ofInt (by omega) (by omega)).trans
      (compare_gYearMonth ha.2.2 hb.2.2)
  case gMonthDay.gMonthDay m d n e =>
    exact compare_gMonthDay ⟨ha.1, ha.2.1⟩ ⟨hb.1, hb.2.1⟩ ha.2.2 hb.2.2
  case gMonth.gMonth | gDay.gDay => exact ObjKey.compare_ofNat (by omega) (by omega)
  all_goals exact ObjKey.compare_encodeI64_ofInt (by omega) (by omega)

/-! ### The keys of both encoders -/

/-- Whichever encoder writes them, the keys of two inline values of one type are
faithful exactly when the two agree. -/
theorem keys_faithful_iff {a b : FlakeValue} (ha : a.keptInline) (hb : b.keptInline)
    (hsame : a.typeDiscriminant = b.typeDiscriminant) (ot : OType) :
    (Faithful resolveInline a b ↔ a.KeysAgree b) ∧
      (Faithful (overlayInline (some ot)) a b ↔ a.KeysAgree b) := by
  have hkeys := encoders_eq ha hb hsame ot
  have heq : a.eq b ↔ a.cmp b = .eq := eq_iff_cmp_of_not_vector fun x y hvec => by
    rw [hvec.1] at ha
    cases ha
  rw [faithful_iff hkeys.1 heq, faithful_iff hkeys.2 heq]
  exact ⟨compare_inlineKey_iff ha hb hsame, compare_inlineKey_iff ha hb hsame⟩

def jan15 : NaiveDate := ⟨19737, by decide⟩

def utc : FixedOffset := ⟨0, by decide⟩

def fiveHoursEast : FixedOffset := ⟨18000, by decide⟩

theorem jan15_keys_faithful :
    Faithful resolveInline (.date ⟨jan15, some utc⟩) (.date ⟨jan15, none⟩) := by
  refine (keys_faithful_iff (a := .date ⟨jan15, some utc⟩) (b := .date ⟨jan15, none⟩)
    rfl rfl rfl OType.null).1.mpr ⟨fun _ => by decide, ?_, ?_⟩
  · exact fun h => absurd h (by decide)
  · exact fun h => absurd h (by decide)

/-- One key for two values: a date at two offsets, a time at two offsets, and
two instants of one microsecond. One value with two keys: five in the morning
five hours east, and midnight in UTC. -/
theorem keys_not_faithful :
    (resolveInline (.date ⟨jan15, some utc⟩) =
        resolveInline (.date ⟨jan15, some fiveHoursEast⟩) ∧
      eq (.date ⟨jan15, some utc⟩) (.date ⟨jan15, some fiveHoursEast⟩) = false) ∧
    (resolveInline (.time ⟨⟨37800, 0, by decide⟩, some utc⟩) =
        resolveInline (.time ⟨⟨37800, 0, by decide⟩, some fiveHoursEast⟩) ∧
      eq (.time ⟨⟨37800, 0, by decide⟩, some utc⟩)
        (.time ⟨⟨37800, 0, by decide⟩, some fiveHoursEast⟩) = false) ∧
    (resolveInline (.dateTime ⟨jan15, 37800, 1, by decide⟩) =
        resolveInline (.dateTime ⟨jan15, 37800, 2, by decide⟩) ∧
      eq (.dateTime ⟨jan15, 37800, 1, by decide⟩) (.dateTime ⟨jan15, 37800, 2, by decide⟩) =
        false) ∧
    (resolveInline (.time ⟨⟨18000, 0, by decide⟩, some fiveHoursEast⟩) ≠
        resolveInline (.time ⟨midnight, some utc⟩) ∧
      eq (.time ⟨⟨18000, 0, by decide⟩, some fiveHoursEast⟩)
        (.time ⟨midnight, some utc⟩) = true) := by
  decide +kernel

end FlakeValue

end FlureeDb.Core
