import FlureeDb.Core.Temporal
import FlureeDb.Lib.Numerals
import FlureeDb.Lib.Outcome

/-!
The parsers of the temporal literals. They cut text at byte offsets, read the pieces with the
integer readers of the standard library, and add up what they read in machine integers. A cut
inside a character and an integer that leaves its type are panics. What reads dates and times of
day is a library and is a parameter here.
-/

namespace FlureeDb.Core

open Lib Utf8
open Lib.Outcome (ok err panic orErr orPanic checked)

structure Lexical (α : Type) where
  value : α
  original : String
  deriving DecidableEq

def byteLen (s : List Char) : ℕ := (bytes s).length

def stripPrefix (c : Char) : List Char → Option (List Char)
  | d :: s => if d = c then some s else none
  | [] => none

def stripSuffix (c : Char) (s : List Char) : Option (List Char) :=
  (stripPrefix c s.reverse).map List.reverse

section

variable (s : List Char)

def slice (start stop : ℕ) : Outcome String (List Char) :=
  orPanic ((splitAt s stop).bind fun cut => (splitAt cut.1 start).map Prod.snd)

def isSign (c : Char) : Bool := c == '+' || c == '-'

variable (text : List Char)

def parseI32 : Option ℤ := Numerals.readSigned (2 ^ 31 - 1) text

def parseI64 : Option ℤ := Numerals.readSigned (2 ^ 63 - 1) text

def parseU32 : Option ℕ := Numerals.readUnsigned (2 ^ 32 - 1) text

def isAsciiDigit (b : UInt8) : Bool := '0'.toUInt8 ≤ b && b ≤ '9'.toUInt8

def FixedOffset.eastOpt (secs : ℤ) : Option FixedOffset :=
  if h : -86400 < secs ∧ secs < 86400 then some ⟨secs, h⟩ else none

/-- Hours and minutes as seconds, with the sign in front of them. -/
def totalSecs (sign : Char) (hours mins : ℤ) : Outcome String ℤ := do
  let hours ← checked 32 (hours * 3600)
  let mins ← checked 32 (mins * 60)
  let secs ← checked 32 (hours + mins)
  checked 32 ((if sign = '-' then -1 else 1) * secs)

/-- The text without its last six bytes, and these. -/
def cutTail : Outcome String (List Char × List Char) :=
  orPanic (splitAt s (byteLen s - 6))

/-- Six bytes that start with a sign and have a colon where an offset has it. -/
def offsetLike (tail : List Char) : Bool :=
  tail.head?.any isSign && (bytes tail)[3]? == some ':'.toUInt8

/-- Hours and minutes that are no numbers count as zero, and an offset of a day or more is left
where it is. -/
def parseTzSuffix : Outcome String (List Char × Option FixedOffset) :=
  match stripSuffix 'Z' s with
  | some stripped => ok (stripped, FixedOffset.eastOpt 0)
  | none =>
    if 6 ≤ byteLen s then do
      let (value, tail) ← cutTail s
      if offsetLike tail then
        let hours ← slice tail 1 3
        let mins ← slice tail 4 6
        let secs ← totalSecs (tail.headD '+') ((parseI32 hours).getD 0) ((parseI32 mins).getD 0)
        match FixedOffset.eastOpt secs with
        | some offset => ok (value, some offset)
        | none => ok (s, none)
      else ok (s, none)
    else ok (s, none)

inductive TimeFormat
  /-- `%H:%M:%S%.f` -/
  | fraction
  /-- `%H:%M:%S` -/
  | seconds
  /-- `%H:%M` -/
  | minutes

structure Chrono where
  naiveDate : List Char → Option NaiveDate
  naiveTime : TimeFormat → List Char → Option NaiveTime

def isStrictOffset (tz : List Char) : Bool :=
  if tz = ['Z'] then true
  else if byteLen tz ≠ 6 then false
  else
    let b := bytes tz
    (b[0]? == some '+'.toUInt8 || b[0]? == some '-'.toUInt8) && b[3]? == some ':'.toUInt8 &&
      ((b.drop 1).take 2).all isAsciiDigit && ((b.drop 4).take 2).all isAsciiDigit

def isStrictDateLexical : Bool :=
  let (datePart, tzPart) : List Char × Option (List Char) :=
    match stripSuffix 'Z' s with
    | some stripped => (stripped, some ['Z'])
    | none =>
      match splitLast isSign s with
      | some (front, sign, back) =>
        if byteLen front = 10 then (front, some (sign :: back)) else (s, none)
      | none => (s, none)
  if byteLen datePart ≠ 10 then false
  else
    let b := bytes datePart
    b[4]? == some '-'.toUInt8 && b[7]? == some '-'.toUInt8 && (b.take 4).all isAsciiDigit &&
      ((b.drop 5).take 2).all isAsciiDigit && ((b.drop 8).take 2).all isAsciiDigit &&
      tzPart.all isStrictOffset

/-- Hours, minutes and seconds, with digits behind the point if there is one. -/
def isStrictTimePart (timePart : List Char) : Bool :=
  let main : Option (List Char) :=
    match splitFirst (· == '.') timePart with
    | some (main, _, frac) =>
      if frac.isEmpty || !frac.all Char.isDigit then none else some main
    | none => some timePart
  main.any fun main =>
    let b := bytes main
    b.length == 8 && b[2]? == some ':'.toUInt8 && b[5]? == some ':'.toUInt8 &&
      (b.take 2).all isAsciiDigit && ((b.drop 3).take 2).all isAsciiDigit &&
      ((b.drop 6).take 2).all isAsciiDigit

/-- The time of day and the timezone behind it. -/
def splitTimezone : Outcome String (List Char × Option (List Char)) :=
  match stripSuffix 'Z' s with
  | some stripped => ok (stripped, some ['Z'])
  | none =>
    if 6 ≤ byteLen s then do
      let (front, tail) ← cutTail s
      ok (if offsetLike tail then (front, some tail) else (s, none))
    else ok (s, none)

def isStrictTimeLexical : Outcome String Bool := do
  let (timePart, tzPart) ← splitTimezone s
  ok (isStrictTimePart timePart && tzPart.all isStrictOffset)

/-- The offset behind a sign, if it is two numbers and less than a day. -/
def readOffset (sign : Char) (offsetStr : List Char) : Outcome String (Option FixedOffset) :=
  match splitFirst (· == ':') offsetStr with
  | some (hours, _, mins) =>
    match parseI32 hours, parseI32 mins with
    | some hours, some mins => do
      let secs ← totalSecs sign hours mins
      ok (FixedOffset.eastOpt secs)
    | _, _ => ok none
  | none => ok none

/-- The first reader that takes the text in front of an offset. -/
def tryOffset {α : Type} (front : List Char) (sign : Char) (offsetStr : List Char) :
    List (List Char → Option α) → Outcome String (Option (α × FixedOffset))
  | [] => ok none
  | read :: reads =>
    match read front with
    | some v => do
      match ← readOffset sign offsetStr with
      | some offset => ok (some (v, offset))
      | none => tryOffset front sign offsetStr reads
    | none => tryOffset front sign offsetStr reads

/-- A date and its offset. The sign of an offset is not the first character. -/
def Date.withOffset (chrono : Chrono) (text : List Char) :
    Outcome String (Option (NaiveDate × FixedOffset)) :=
  match splitLast isSign text with
  | some (front, sign, back) =>
    if front ≠ [] ∧ ':' ∈ back then tryOffset front sign back [chrono.naiveDate] else ok none
  | none => ok none

def Date.parse (chrono : Chrono) (s : String) : Outcome String (Lexical Date) :=
  let text := s.toList
  if !isStrictDateLexical text then err s!"Cannot parse date: {s}"
  else
    match (stripSuffix 'Z' text).bind chrono.naiveDate with
    | some date => ok ⟨⟨date, FixedOffset.eastOpt 0⟩, s⟩
    | none => do
      match ← Date.withOffset chrono text with
      | some (date, offset) => ok ⟨⟨date, some offset⟩, s⟩
      | none =>
        match chrono.naiveDate text with
        | some date => ok ⟨⟨date, none⟩, s⟩
        | none => err s!"Cannot parse date: {s}"

def Time.withOffset (chrono : Chrono) (text : List Char) :
    Outcome String (Option (NaiveTime × FixedOffset)) :=
  match splitLast isSign text with
  | some (front, sign, back) =>
    if ':' ∈ back then
      tryOffset front sign back [chrono.naiveTime .fraction, chrono.naiveTime .seconds]
    else ok none
  | none => ok none

def Time.parse (chrono : Chrono) (s : String) : Outcome String (Lexical Time) := do
  let text := s.toList
  if !(← isStrictTimeLexical text) then err s!"Cannot parse time: {s}"
  else
    match (stripSuffix 'Z' text).bind fun part =>
        [TimeFormat.fraction, .seconds].findSome? fun fmt => chrono.naiveTime fmt part with
    | some time => ok ⟨⟨time, FixedOffset.eastOpt 0⟩, s⟩
    | none => do
      match ← Time.withOffset chrono text with
      | some (time, offset) => ok ⟨⟨time, some offset⟩, s⟩
      | none =>
        match [TimeFormat.fraction, .seconds, .minutes].findSome? fun fmt =>
            chrono.naiveTime fmt text with
        | some time => ok ⟨⟨time, none⟩, s⟩
        | none => err s!"Cannot parse time: {s}"

/-! ### Parts of a date -/

structure GYear where
  year : ℤ
  tzOffset : Option FixedOffset
  deriving DecidableEq

structure GYearMonth where
  year : ℤ
  month : ℕ
  tzOffset : Option FixedOffset
  deriving DecidableEq

structure GMonth where
  month : ℕ
  tzOffset : Option FixedOffset
  deriving DecidableEq

structure GDay where
  day : ℕ
  tzOffset : Option FixedOffset
  deriving DecidableEq

structure GMonthDay where
  month : ℕ
  day : ℕ
  tzOffset : Option FixedOffset
  deriving DecidableEq

end

variable (s : String)

def GYear.parse : Outcome String (Lexical GYear) := do
  let (value, tz) ← parseTzSuffix s.toList
  let year ← orErr s!"Cannot parse gYear: {s}" (parseI32 value)
  ok ⟨⟨year, tz⟩, s⟩

/-- A number no less than 1 and no greater than the bound. -/
def checkRange (what type : String) (max n : ℕ) (s : String) : Outcome String Unit :=
  if 1 ≤ n ∧ n ≤ max then ok () else err s!"Invalid {what} {n} in {type}: {s}"

/-- The numbers before and behind the last dash. -/
def GYearMonth.components (text : List Char) : Outcome String (ℤ × ℕ) := do
  let (yearStr, _, monthStr) ←
    orErr s!"Cannot parse gYearMonth: {s}" (splitLast (· == '-') text)
  let year ← orErr s!"Cannot parse gYearMonth year: {s}" (parseI32 yearStr)
  let month ← orErr s!"Cannot parse gYearMonth month: {s}" (parseU32 monthStr)
  ok (year, month)

/-- A dash in front is the sign of the year. -/
def GYearMonth.yearAndMonth (value : List Char) : Outcome String (ℤ × ℕ) :=
  match stripPrefix '-' value with
  | some rest => do
    let (year, month) ← GYearMonth.components s rest
    let year ← checked 32 (-year)
    ok (year, month)
  | none => GYearMonth.components s value

def GYearMonth.parse : Outcome String (Lexical GYearMonth) := do
  let (value, tz) ← parseTzSuffix s.toList
  let (year, month) ← GYearMonth.yearAndMonth s value
  checkRange "month" "gYearMonth" 12 month s
  ok ⟨⟨year, month, tz⟩, s⟩

def GMonth.parse : Outcome String (Lexical GMonth) := do
  match s.toList with
  | '-' :: '-' :: rest => do
    let (value, tz) ← parseTzSuffix rest
    let month ← orErr s!"Cannot parse gMonth: {s}" (parseU32 value)
    checkRange "month" "gMonth" 12 month s
    ok ⟨⟨month, tz⟩, s⟩
  | _ => err s!"gMonth must start with '--': {s}"

def GDay.parse : Outcome String (Lexical GDay) := do
  match s.toList with
  | '-' :: '-' :: '-' :: rest => do
    let (value, tz) ← parseTzSuffix rest
    let day ← orErr s!"Cannot parse gDay: {s}" (parseU32 value)
    checkRange "day" "gDay" 31 day s
    ok ⟨⟨day, tz⟩, s⟩
  | _ => err s!"gDay must start with '---': {s}"

def GMonthDay.parse : Outcome String (Lexical GMonthDay) := do
  match s.toList with
  | '-' :: '-' :: rest => do
    let (value, tz) ← parseTzSuffix rest
    let (monthStr, _, dayStr) ←
      orErr s!"Cannot parse gMonthDay (expected MM-DD): {s}" (splitFirst (· == '-') value)
    let month ← orErr s!"Cannot parse gMonthDay month: {s}" (parseU32 monthStr)
    let day ← orErr s!"Cannot parse gMonthDay day: {s}" (parseU32 dayStr)
    checkRange "month" "gMonthDay" 12 month s
    checkRange "day" "gMonthDay" 31 day s
    ok ⟨⟨month, day, tz⟩, s⟩
  | _ => err s!"gMonthDay must start with '--': {s}"

/-! ### Durations -/

/-- A minus sign in front, and the text behind the letter P. -/
def durationBody (message : String) (s : String) : Outcome String (Bool × List Char) :=
  let (negative, rest) : Bool × List Char :=
    match stripPrefix '-' s.toList with
    | some rest => (true, rest)
    | none => (false, s.toList)
  do
    let body ← orErr message (stripPrefix 'P' rest)
    ok (negative, body)

/-- The text in front of a unit, if the unit is there, and the text behind it. -/
def takeUnit (unit : Char) (remaining : List Char) : Option (List Char) × List Char :=
  match splitFirst (· == unit) remaining with
  | some (before, _, after) => (some before, after)
  | none => (none, remaining)

/-- A number of units, in the smallest unit. -/
def scaled (width : ℕ) (scale : ℤ) (message : String) (text : List Char) : Outcome String ℤ := do
  let n ← orErr message (Numerals.readSigned (2 ^ (width - 1) - 1) text)
  checked width (n * scale)

/-- Adds the value of a component to the total, if the component is there. -/
def addUnit (width : ℕ) (read : List Char → Outcome String ℤ) (total : ℤ) :
    Option (List Char) → Outcome String ℤ
  | some text => do
    let v ← read text
    checked width (total + v)
  | none => ok total

/-- The first six bytes of a fraction, or the fraction filled up with zeros. -/
def padFraction (frac : List Char) : Outcome String (List Char) :=
  if 6 ≤ byteLen frac then orPanic ((splitAt frac 6).map Prod.fst)
  else ok (frac ++ List.replicate (6 - frac.length) '0')

/-- No whole seconds in front of a point are zero seconds. -/
def wholeSeconds (text wholeStr : List Char) : Outcome String ℤ :=
  if wholeStr = [] then ok 0
  else orErr s!"Invalid whole seconds: {String.ofList text}" (parseI64 wholeStr)

def parseSecondsToMicros (text : List Char) : Outcome String ℤ :=
  match splitFirst (· == '.') text with
  | some (wholeStr, _, fracStr) => do
    let whole ← wholeSeconds text wholeStr
    let padded ← padFraction fracStr
    let fracMicros ← orErr s!"Invalid fractional seconds: {String.ofList text}" (parseI64 padded)
    let micros ← checked 64 (whole * 1000000)
    checked 64 (micros + fracMicros)
  | none => do
    let whole ← orErr s!"Invalid seconds: {String.ofList text}" (parseI64 text)
    checked 64 (whole * 1000000)

def secondsOf (type s : String) (text : List Char) : Outcome String ℤ :=
  (parseSecondsToMicros text).mapErr fun e => s!"Invalid seconds in {type} '{s}': {e}"

/-- The time part of a duration, added to the total, and whether it has a component. -/
def addTimePart (type s : String) (total : ℤ) :
    Option (List Char) → Outcome String (ℤ × Bool)
  | none => ok (total, false)
  | some timePart =>
    if timePart = [] then err s!"Empty time part after 'T' in {type}: {s}"
    else do
      let (hours, remaining) := takeUnit 'H' timePart
      let total ← addUnit 64
        (scaled 64 3600000000 s!"Invalid hour component in {type}: {s}") total hours
      let (minutes, remaining) := takeUnit 'M' remaining
      let total ← addUnit 64
        (scaled 64 60000000 s!"Invalid minute component in {type}: {s}") total minutes
      let (seconds, remaining) := takeUnit 'S' remaining
      let total ← addUnit 64 (secondsOf type s) total seconds
      if remaining ≠ [] then err s!"Unexpected trailing content in {type} time part: {s}"
      else ok (total, hours.isSome || minutes.isSome || seconds.isSome)

/-- The parts before and behind the letter T. -/
def splitTime (body : List Char) : List Char × Option (List Char) :=
  match splitFirst (· == 'T') body with
  | some (datePart, _, timePart) => (datePart, some timePart)
  | none => (body, none)

def negateIf (width : ℕ) (negative : Bool) (v : ℤ) : Outcome String ℤ :=
  if negative then checked width (-v) else ok v

structure YearMonthDuration where
  months : ℤ
  deriving DecidableEq

structure DayTimeDuration where
  micros : ℤ
  deriving DecidableEq

/-- A component of years or months, none for the component that is not there. -/
def YearMonthDuration.component (message : String) : Option (List Char) → Outcome String ℤ
  | some text => orErr message (parseI32 text)
  | none => ok 0

def YearMonthDuration.total (negative : Bool) (years months : ℤ) : Outcome String ℤ := do
  let yearMonths ← checked 32 (years * 12)
  let totalMonths ← checked 32 (yearMonths + months)
  negateIf 32 negative totalMonths

/-- The total is computed when the whole literal is read. -/
def YearMonthDuration.parse : Outcome String (Lexical YearMonthDuration) := do
  let (negative, body) ←
    durationBody s!"yearMonthDuration must start with 'P' (or '-P'): {s}" s
  if 'D' ∈ body ∨ 'T' ∈ body then
    err s!"yearMonthDuration must not contain day or time components: {s}"
  else
    let (years, remaining) := takeUnit 'Y' body
    let yearsVal ←
      YearMonthDuration.component s!"Invalid year component in yearMonthDuration: {s}" years
    let (months, remaining) := takeUnit 'M' remaining
    let monthsPart ←
      YearMonthDuration.component s!"Invalid month component in yearMonthDuration: {s}" months
    if !(years.isSome || months.isSome) then
      err s!"yearMonthDuration must have at least Y or M component: {s}"
    else if remaining ≠ [] then
      err s!"Unexpected trailing content in yearMonthDuration: {s}"
    else
      let totalMonths ← YearMonthDuration.total negative yearsVal monthsPart
      ok ⟨⟨totalMonths⟩, s⟩

/-- The days of the part before the letter T, and whether there are any. -/
def DayTimeDuration.daysOf (datePart : List Char) : Outcome String (ℤ × Bool) :=
  if datePart = [] then ok (0, false)
  else
    match takeUnit 'D' datePart with
    | (some text, afterD) => do
      let total ← addUnit 64
        (scaled 64 86400000000 s!"Invalid day component in dayTimeDuration: {s}") 0 (some text)
      if afterD ≠ [] then err s!"Unexpected content after D in dayTimeDuration: {s}"
      else ok (total, true)
    | (none, _) => err s!"Expected 'D' in date part of dayTimeDuration: {s}"

/-- The microseconds of both parts. -/
def DayTimeDuration.total (datePart : List Char) (timePart : Option (List Char)) :
    Outcome String ℤ := do
  let (totalMicros, foundDays) ← DayTimeDuration.daysOf s datePart
  let (totalMicros, foundTime) ← addTimePart "dayTimeDuration" s totalMicros timePart
  if !(foundDays || foundTime) then
    err s!"dayTimeDuration must have at least one of D, H, M, or S: {s}"
  else ok totalMicros

def DayTimeDuration.parse : Outcome String (Lexical DayTimeDuration) := do
  let (negative, body) ← durationBody s!"dayTimeDuration must start with 'P' (or '-P'): {s}" s
  if 'Y' ∈ body then err s!"dayTimeDuration must not contain year component: {s}"
  else
    let (datePart, timePart) := splitTime body
    if 'M' ∈ datePart then err s!"dayTimeDuration must not contain month component: {s}"
    else
      let totalMicros ← DayTimeDuration.total s datePart timePart
      let totalMicros ← negateIf 64 negative totalMicros
      ok ⟨⟨totalMicros⟩, s⟩

/-- The months and the microseconds of both parts. -/
def Duration.total (datePart : List Char) (timePart : Option (List Char)) :
    Outcome String (ℤ × ℤ) := do
  let (years, remaining) := takeUnit 'Y' datePart
  let totalMonths ← addUnit 32
    (scaled 32 12 s!"Invalid year component in duration: {s}") 0 years
  let (months, remaining) := takeUnit 'M' remaining
  let totalMonths ← addUnit 32
    (scaled 32 1 s!"Invalid month component in duration: {s}") totalMonths months
  let (days, remaining) := takeUnit 'D' remaining
  let totalMicros ← addUnit 64
    (scaled 64 86400000000 s!"Invalid day component in duration: {s}") 0 days
  if remaining ≠ [] then err s!"Unexpected content in date part of duration: {s}"
  else
    let (totalMicros, foundTime) ← addTimePart "duration" s totalMicros timePart
    if !(years.isSome || months.isSome || days.isSome || foundTime) then
      err s!"Duration must have at least one component (Y, M, D, H, M, S): {s}"
    else ok (totalMonths, totalMicros)

def Duration.parse : Outcome String (Lexical Duration) := do
  let (negative, body) ← durationBody s!"Duration must start with 'P' (or '-P'): {s}" s
  let (datePart, timePart) := splitTime body
  let (totalMonths, totalMicros) ← Duration.total s datePart timePart
  let totalMonths ← negateIf 32 negative totalMonths
  let totalMicros ← negateIf 64 negative totalMicros
  ok ⟨⟨totalMonths, totalMicros⟩, s⟩

end FlureeDb.Core
