import Mathlib.Data.Int.Basic

/-!
Dates and times as far as they are compared and hashed. A calendar date is the
number of its day from 1970-01-01 on, which orders dates as their years, months
and days do; an instant is a date and a time of day in UTC. The text a value
was parsed from is kept for printing only and is left out, and so is the
timezone of the values that are compared without it.
-/

namespace FlureeDb.Core

/-- `NaiveDate::MIN`, the first of January of the year -262143. -/
def minDay : ℤ := -96465292

/-- `NaiveDate::MAX`, the last of December of the year 262142. -/
def maxDay : ℤ := 95026236

structure NaiveDate where
  day : ℤ
  inRange : minDay ≤ day ∧ day ≤ maxDay
  deriving DecidableEq

def NaiveDate.ofDay (day : ℤ) : Option NaiveDate :=
  if h : minDay ≤ day ∧ day ≤ maxDay then some ⟨day, h⟩ else none

/-- A second of the day and the nanoseconds into it. A leap second counts
nanoseconds past one second. -/
structure NaiveTime where
  secs : ℕ
  frac : ℕ
  valid : secs < 86400 ∧ frac < 2000000000
  deriving DecidableEq

def NaiveTime.midnight : NaiveTime := ⟨0, 0, by decide⟩

/-- A leap second is the last of its minute. -/
def NaiveTime.fromNumSecondsFromMidnightOpt (secs nano : ℕ) : Option NaiveTime :=
  if h : secs < 86400 ∧ nano < 2000000000 then
    if nano ≥ 1000000000 ∧ secs % 60 ≠ 59 then none else some ⟨secs, nano, h⟩
  else none

/-- Seconds that local time is ahead of UTC, less than a day either way. -/
structure FixedOffset where
  localMinusUtc : ℤ
  bounded : -86400 < localMinusUtc ∧ localMinusUtc < 86400
  deriving DecidableEq

structure Instant where
  date : NaiveDate
  time : NaiveTime
  deriving DecidableEq

def NaiveDate.cmp (a b : NaiveDate) : Ordering := compare a.day b.day

def NaiveTime.cmp (a b : NaiveTime) : Ordering :=
  (compare a.secs b.secs).then (compare a.frac b.frac)

def Instant.cmp (a b : Instant) : Ordering := (a.date.cmp b.date).then (a.time.cmp b.time)

/-- The start of a date in the given offset, when its UTC date exists. -/
def NaiveDate.midnightAt (date : NaiveDate) (offset : FixedOffset) : Option Instant :=
  (NaiveDate.ofDay (date.day + -offset.localMinusUtc / 86400)).map fun utcDate =>
    ⟨utcDate, (-offset.localMinusUtc % 86400).toNat, 0, by omega, by decide⟩

structure DateTime where
  instant : Instant
  deriving DecidableEq

def DateTime.cmp (a b : DateTime) : Ordering := a.instant.cmp b.instant

structure Date where
  date : NaiveDate
  tzOffset : Option FixedOffset
  deriving DecidableEq

def Date.toInstant (d : Date) : Instant :=
  match d.tzOffset with
  | some offset => (d.date.midnightAt offset).getD ⟨d.date, NaiveTime.midnight⟩
  | none => ⟨d.date, NaiveTime.midnight⟩

def Date.cmp (a b : Date) : Ordering :=
  match a.tzOffset, b.tzOffset with
  | none, none => a.date.cmp b.date
  | _, _ => a.toInstant.cmp b.toInstant

structure Time where
  time : NaiveTime
  tzOffset : Option FixedOffset
  deriving DecidableEq

def Time.toUtcTime (t : Time) : NaiveTime :=
  match t.tzOffset with
  | some offset =>
    (NaiveTime.fromNumSecondsFromMidnightOpt
      (((t.time.secs : ℤ) - offset.localMinusUtc) % 86400).toNat t.time.frac).getD t.time
  | none => t.time

def Time.cmp (a b : Time) : Ordering :=
  match a.tzOffset, b.tzOffset with
  | none, none => a.time.cmp b.time
  | _, _ => a.toUtcTime.cmp b.toUtcTime

/-- Whole months and microseconds; neither measures the other. -/
structure Duration where
  months : ℤ
  micros : ℤ
  deriving DecidableEq

def Duration.partialCmp (a b : Duration) : Option Ordering :=
  match compare a.months b.months, compare a.micros b.micros with
  | .eq, micro => some micro
  | month, .eq => some month
  | .lt, .lt => some .lt
  | .gt, .gt => some .gt
  | _, _ => none

/-- Storage order. -/
def Duration.cmp (a b : Duration) : Ordering :=
  (compare a.months b.months).then (compare a.micros b.micros)

theorem Date.cmp_eq (a b : Date) : a.cmp b = a.toInstant.cmp b.toInstant := by
  unfold cmp
  split
  · next ha hb => simp [toInstant, ha, hb, Instant.cmp, NaiveTime.cmp]
  · rfl

theorem Time.cmp_eq (a b : Time) : a.cmp b = a.toUtcTime.cmp b.toUtcTime := by
  unfold cmp
  split
  · next ha hb => simp [toUtcTime, ha, hb]
  · rfl

theorem NaiveDate.cmp_eq_eq {a b : NaiveDate} : a.cmp b = .eq ↔ a = b := by
  unfold cmp
  cases a
  cases b
  simp

theorem NaiveTime.cmp_eq_eq {a b : NaiveTime} : a.cmp b = .eq ↔ a = b := by
  unfold cmp
  cases a
  cases b
  simp

theorem Instant.cmp_eq_eq {a b : Instant} : a.cmp b = .eq ↔ a = b := by
  unfold cmp
  rw [Ordering.then_eq_eq, NaiveDate.cmp_eq_eq, NaiveTime.cmp_eq_eq]
  cases a
  cases b
  simp

theorem Duration.cmp_eq_eq {a b : Duration} : a.cmp b = .eq ↔ a = b := by
  unfold cmp
  cases a
  cases b
  simp

/-- Where the components disagree there is no answer, and no equality either. -/
theorem Duration.partialCmp_eq_eq {a b : Duration} : a.partialCmp b = some .eq ↔ a = b := by
  rw [← cmp_eq_eq]
  unfold partialCmp cmp
  cases compare a.months b.months <;> cases compare a.micros b.micros <;> simp

end FlureeDb.Core
