import FlureeDb.Lib.Numerals

/-!
The lexical spaces of the XML Schema types that are read here, and what their literals denote. A
year has at least four digits and no zero in front of a longer one. A duration is a sequence of
fields, each a numeral and its unit, in a fixed order with at least one of them; the letter T
stands in front of the fields of the time of day, if there are any. A fraction of a second is cut
off to microseconds.
-/

namespace FlureeDb.Core.Xsd

open Lib.Numerals

def signText (negative : Bool) : List Char := if negative then ['-'] else []

def signed (negative : Bool) (n : ℤ) : ℤ := if negative then -n else n

/-- No timezone, UTC, or an offset of up to fourteen hours. -/
def TimeZone (tz : List Char) : Prop :=
  tz = [] ∨ tz = ['Z'] ∨
    ∃ sign h h' m m', tz = [sign, h, h', ':', m, m'] ∧ (sign = '+' ∨ sign = '-') ∧
      Numeral [h, h'] ∧ Numeral [m, m'] ∧
      (value [h, h'] ≤ 13 ∧ value [m, m'] ≤ 59 ∨ value [h, h'] = 14 ∧ value [m, m'] = 0)

def YearDigits (ds : List Char) : Prop :=
  Numeral ds ∧ 4 ≤ ds.length ∧ (ds.length = 4 ∨ ds.head? ≠ some '0')

variable (s : List Char)

def DenotesYear (year : ℤ) : Prop :=
  ∃ negative ds tz, s = signText negative ++ ds ++ tz ∧ YearDigits ds ∧ TimeZone tz ∧
    year = signed negative (value ds)

def DenotesYearMonth (year : ℤ) (month : ℕ) : Prop :=
  ∃ negative ds m m' tz, s = signText negative ++ ds ++ ['-', m, m'] ++ tz ∧ YearDigits ds ∧
    Numeral [m, m'] ∧ TimeZone tz ∧ year = signed negative (value ds) ∧ month = value [m, m'] ∧
    1 ≤ month ∧ month ≤ 12

def field (digits : Option (List Char)) (unit : Char) : List Char :=
  match digits with
  | some ds => ds ++ [unit]
  | none => []

@[simp] theorem field_none (unit : Char) : field none unit = [] := rfl

@[simp] theorem field_some (ds : List Char) (unit : Char) : field (some ds) unit = ds ++ [unit] :=
  rfl

def fieldValue (digits : Option (List Char)) : ℕ := (digits.map value).getD 0

structure Seconds where
  whole : List Char
  fraction : Option (List Char)

def Seconds.text (sec : Seconds) : List Char :=
  match sec.fraction with
  | some frac => sec.whole ++ '.' :: frac
  | none => sec.whole

def Seconds.Valid (sec : Seconds) : Prop :=
  Numeral sec.whole ∧ ∀ frac ∈ sec.fraction, Numeral frac

def Seconds.micros (sec : Seconds) : ℕ :=
  value sec.whole * 10 ^ 6 +
    match sec.fraction with
    | some frac => value frac * 10 ^ 6 / 10 ^ frac.length
    | none => 0

structure TimeFields where
  hours : Option (List Char)
  minutes : Option (List Char)
  seconds : Option Seconds

def TimeFields.text (t : TimeFields) : List Char :=
  field t.hours 'H' ++ (field t.minutes 'M' ++ field (t.seconds.map Seconds.text) 'S')

def TimeFields.Valid (t : TimeFields) : Prop :=
  (t.hours.isSome ∨ t.minutes.isSome ∨ t.seconds.isSome) ∧ (∀ ds ∈ t.hours, Numeral ds) ∧
    (∀ ds ∈ t.minutes, Numeral ds) ∧ ∀ sec ∈ t.seconds, sec.Valid

def TimeFields.micros (t : TimeFields) : ℕ :=
  fieldValue t.hours * 3600000000 + fieldValue t.minutes * 60000000 +
    (t.seconds.map Seconds.micros).getD 0

structure Fields where
  years : Option (List Char)
  months : Option (List Char)
  days : Option (List Char)
  time : Option TimeFields

def Fields.text (f : Fields) : List Char :=
  field f.years 'Y' ++ (field f.months 'M' ++ (field f.days 'D' ++
    match f.time with
    | some t => 'T' :: t.text
    | none => []))

def Fields.Valid (f : Fields) : Prop :=
  (f.years.isSome ∨ f.months.isSome ∨ f.days.isSome ∨ f.time.isSome) ∧
    (∀ ds ∈ f.years, Numeral ds) ∧ (∀ ds ∈ f.months, Numeral ds) ∧ (∀ ds ∈ f.days, Numeral ds) ∧
    ∀ t ∈ f.time, t.Valid

def Fields.totalMonths (f : Fields) : ℕ := fieldValue f.years * 12 + fieldValue f.months

def Fields.totalMicros (f : Fields) : ℕ :=
  fieldValue f.days * 86400000000 + (f.time.map TimeFields.micros).getD 0

/-- The literal of a duration with the given fields. -/
def IsLiteral (negative : Bool) (f : Fields) : Prop :=
  f.Valid ∧ s = signText negative ++ 'P' :: f.text

def DenotesDuration (months micros : ℤ) : Prop :=
  ∃ negative f, IsLiteral s negative f ∧ months = signed negative f.totalMonths ∧
    micros = signed negative f.totalMicros

/-- The literal of a duration of years and months. -/
def DenotesYearMonthDuration (months : ℤ) : Prop :=
  ∃ negative f, IsLiteral s negative f ∧ f.days = none ∧ f.time = none ∧
    months = signed negative f.totalMonths

/-- The literal of a duration of days and shorter units. -/
def DenotesDayTimeDuration (micros : ℤ) : Prop :=
  ∃ negative f, IsLiteral s negative f ∧ f.years = none ∧ f.months = none ∧
    micros = signed negative f.totalMicros

/-- No sign but a minus in front. -/
def Unsigned : Prop := '+' ∉ s ∧ '-' ∉ s.tail

/-- A point has a digit in front and digits behind it, up to the unit of seconds. -/
def DecimalPoints : Prop :=
  ∀ a b, s = a ++ '.' :: b → (∃ a' d, a = a' ++ [d] ∧ d.isDigit) ∧
    ∃ frac b', b = frac ++ 'S' :: b' ∧ Numeral frac

end FlureeDb.Core.Xsd
