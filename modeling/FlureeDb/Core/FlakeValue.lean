import FlureeDb.Core.Temporal
import FlureeDb.Lib.Float64

/-!
The object of a flake and how two of them compare. Numbers of the four numeric
types compare by value, whichever types they have; the other types compare by
type first. An `i64` keeps its width, because the absolute value taken on the
way may overflow; the remaining machine integers are integers, since the code
only compares them. Arbitrary precision integers are integers, and a decimal is
its digits and its scale.
-/

namespace FlureeDb.Core

open Lib

structure Sid where
  namespaceCode : ℕ
  name : String
  deriving DecidableEq

def Sid.cmp (a b : Sid) : Ordering :=
  (compare a.namespaceCode b.namespaceCode).then (compare a.name b.name)

def rdfType : Sid := ⟨3, "type"⟩

/-- All descendants of a class or a property, without itself. -/
structure SchemaHierarchy where
  subclassesOf : Sid → List Sid
  subpropertiesOf : Sid → List Sid

/-- The number `digits · 10 ^ (-scale)`. -/
structure BigDecimal where
  digits : ℤ
  scale : ℤ
  deriving DecidableEq

namespace BigDecimal

/-- The digits after moving the point, for a scale no smaller than the own. -/
def digitsAt (d : BigDecimal) (scale : ℤ) : ℤ := d.digits * 10 ^ (scale - d.scale).toNat

/-- Comparison by value, at a scale that holds both numbers. There is always an
answer. -/
def partialCmp (a b : BigDecimal) : Option Ordering :=
  some (compare (a.digitsAt (max a.scale b.scale)) (b.digitsAt (max a.scale b.scale)))

def ofInt (v : ℤ) : BigDecimal := ⟨v, 0⟩

/-- The conversion from a double: exact for a finite one, an error otherwise.
A unit of a double is 5¹⁰⁷⁴ at scale 1074. -/
def tryFrom (x : F64) : Option BigDecimal :=
  if x.isFinite then some ⟨x.units * 5 ^ 1074, 1074⟩ else none

end BigDecimal

inductive FlakeValue
  | ref (sid : Sid)
  | boolean (b : Bool)
  | long (v : Int64)
  | double (x : F64)
  | bigInt (v : ℤ)
  | decimal (d : BigDecimal)
  | dateTime (d : DateTime)
  | date (d : Date)
  | time (t : Time)
  | gYear (year : ℤ)
  | gYearMonth (year : ℤ) (month : ℕ)
  | gMonth (month : ℕ)
  | gDay (day : ℕ)
  | gMonthDay (month day : ℕ)
  | yearMonthDuration (months : ℤ)
  | dayTimeDuration (micros : ℤ)
  | duration (d : Duration)
  | string (s : String)
  | vector (elements : List F64)
  | json (s : String)
  | geoPoint (bits : ℕ)
  | null
  deriving DecidableEq

namespace FlakeValue

/-- Position of the type in the order of types. No two types share one, so two
values have the same variant exactly when these agree. -/
def typeDiscriminant : FlakeValue → ℕ
  | .null => 0
  | .ref _ => 1
  | .boolean _ => 2
  | .long _ => 3
  | .bigInt _ => 4
  | .double _ => 5
  | .decimal _ => 6
  | .date _ => 7
  | .time _ => 8
  | .dateTime _ => 9
  | .gYear _ => 10
  | .gYearMonth _ _ => 11
  | .gMonth _ => 12
  | .gDay _ => 13
  | .gMonthDay _ _ => 14
  | .yearMonthDuration _ => 15
  | .dayTimeDuration _ => 16
  | .duration _ => 17
  | .string _ => 18
  | .json _ => 19
  | .geoPoint _ => 20
  | .vector _ => 21

def isNumeric : FlakeValue → Bool
  | .long _ | .double _ | .bigInt _ | .decimal _ => true
  | _ => false

def isTemporal : FlakeValue → Bool
  | .dateTime _ | .date _ | .time _ | .gYear _ | .gYearMonth _ _ | .gMonth _ | .gDay _
  | .gMonthDay _ _ => true
  | _ => false

def isDuration : FlakeValue → Bool
  | .yearMonthDuration _ | .dayTimeDuration _ | .duration _ => true
  | _ => false

/-! ### Numbers -/

/-- `i64::abs` of a release build, which wraps. -/
def wrappingAbs (v : Int64) : Id Int64 := v.abs

/-- `i64::abs` of a build with overflow checks, which has no result for
`i64::MIN`. -/
def checkedAbs (v : Int64) : Option Int64 := if v = Int64.minValue then none else some v.abs

section

variable {m : Type → Type} [Monad m] (abs : Int64 → m Int64)

/-- Is the value exactly representable as a double? -/
def i64FitsF64 (v : Int64) : m Bool := do return decide ((← abs v).toInt ≤ 2 ^ 53)

def longVsDouble (a : Int64) (b : F64) : m (Option Ordering) := do
  if ← i64FitsF64 abs a then return (F64.ofInt a.toInt).partialCmp b
  else return (BigDecimal.tryFrom b).bind (BigDecimal.ofInt a.toInt).partialCmp

def doubleVsBigInt (a : F64) (b : ℤ) : Option Ordering :=
  (BigDecimal.tryFrom a).bind fun a => a.partialCmp (BigDecimal.ofInt b)

def doubleVsDecimal (a : F64) (b : BigDecimal) : Option Ordering :=
  (BigDecimal.tryFrom a).bind fun a => a.partialCmp b

/-- Comparison by mathematical value, over the absolute value of the build. An
arm of the source that calls itself with the sides exchanged is reversed
here. -/
def numericCmpWith (a b : FlakeValue) : m (Option Ordering) :=
  match a, b with
  | .long a, .long b => return some (compare a.toInt b.toInt)
  | .double a, .double b => return (a.partialCmp b).or (some (a.bitsCmp b))
  | .bigInt a, .bigInt b => return some (compare a b)
  | .decimal a, .decimal b => return (a.partialCmp b).or (some .eq)
  | .long a, .double b => longVsDouble abs a b
  | .double a, .long b => do return (← longVsDouble abs b a).map Ordering.swap
  | .long a, .bigInt b => return some (compare a.toInt b)
  | .bigInt a, .long b => return some (compare a b.toInt)
  | .long a, .decimal b => return (BigDecimal.ofInt a.toInt).partialCmp b
  | .decimal a, .long b => return a.partialCmp (BigDecimal.ofInt b.toInt)
  | .double a, .bigInt b => return doubleVsBigInt a b
  | .bigInt a, .double b => return (doubleVsBigInt b a).map Ordering.swap
  | .double a, .decimal b => return doubleVsDecimal a b
  | .decimal a, .double b => return (doubleVsDecimal b a).map Ordering.swap
  | .bigInt a, .decimal b => return (BigDecimal.ofInt a).partialCmp b
  | .decimal a, .bigInt b => return a.partialCmp (BigDecimal.ofInt b)
  | _, _ => return none

end

variable (a b : FlakeValue)

def numericCmp : Option Ordering := Id.run (numericCmpWith wrappingAbs a b)

/-- The same in a build with overflow checks: no result when the absolute value
overflows. -/
def numericCmpChecked : Option (Option Ordering) :=
  numericCmpWith checkedAbs a b

def temporalCmp : Option Ordering :=
  match a, b with
  | .dateTime a, .dateTime b => some (a.cmp b)
  | .date a, .date b => some (a.cmp b)
  | .time a, .time b => some (a.cmp b)
  | .gYear a, .gYear b => some (compare a b)
  | .gYearMonth y m, .gYearMonth y' m' => some ((compare y y').then (compare m m'))
  | .gMonth a, .gMonth b => some (compare a b)
  | .gDay a, .gDay b => some (compare a b)
  | .gMonthDay m d, .gMonthDay m' d' => some ((compare m m').then (compare d d'))
  | .yearMonthDuration a, .yearMonthDuration b => some (compare a b)
  | .dayTimeDuration a, .dayTimeDuration b => some (compare a b)
  | .duration a, .duration b => a.partialCmp b
  | _, _ => none

/-- The first elements that differ decide, then the lengths. -/
def vectorLoop (a b : List F64) : Ordering :=
  (a.zip b).foldr (fun (x, y) rest => (x.cmpOrBits y).then rest) (compare a.length b.length)

/-- The empty vector is the sentinel after all others. -/
def vectorCmp (a b : List F64) : Ordering :=
  if a.isEmpty && b.isEmpty then .eq
  else if a.isEmpty then .gt
  else if b.isEmpty then .lt
  else vectorLoop a b

def sameTypeCmp : Ordering :=
  match a, b with
  | .null, .null => .eq
  | .ref a, .ref b => a.cmp b
  | .boolean a, .boolean b => compare a b
  | .long a, .long b => compare a.toInt b.toInt
  | .double a, .double b => a.cmpOrBits b
  | .bigInt a, .bigInt b => compare a b
  | .decimal a, .decimal b => (a.partialCmp b).getD .eq
  | .dateTime a, .dateTime b => a.cmp b
  | .date a, .date b => a.cmp b
  | .time a, .time b => a.cmp b
  | .gYear a, .gYear b => compare a b
  | .gYearMonth y m, .gYearMonth y' m' => (compare y y').then (compare m m')
  | .gMonth a, .gMonth b => compare a b
  | .gDay a, .gDay b => compare a b
  | .gMonthDay m d, .gMonthDay m' d' => (compare m m').then (compare d d')
  | .yearMonthDuration a, .yearMonthDuration b => compare a b
  | .dayTimeDuration a, .dayTimeDuration b => compare a b
  | .duration a, .duration b => a.cmp b
  | .string a, .string b => compare a b
  | .json a, .json b => compare a b
  | .vector a, .vector b => vectorCmp a b
  | .geoPoint a, .geoPoint b => compare a b
  | _, _ => .eq

def cmp : Ordering :=
  if a.typeDiscriminant = b.typeDiscriminant then a.sameTypeCmp b
  else
    match if a.isNumeric && b.isNumeric then a.numericCmp b else none with
    | some ord => ord
    | none =>
      if (a.isTemporal && b.isTemporal) || (a.isDuration && b.isDuration) then
        (a.temporalCmp b).getD (compare a.typeDiscriminant b.typeDiscriminant)
      else compare a.typeDiscriminant b.typeDiscriminant

/-- Equality of values of one type outside the classes compared by value;
values of two types are not equal. -/
def sameTypeEq : Bool :=
  match a, b with
  | .null, .null => true
  | .ref a, .ref b => a == b
  | .boolean a, .boolean b => a == b
  | .string a, .string b => a == b
  | .json a, .json b => a == b
  | .vector a, .vector b =>
    a.length == b.length && (a.zip b).all fun (x, y) => x.bits == y.bits
  | .geoPoint a, .geoPoint b => a == b
  | _, _ => false

def eq : Bool :=
  if a.isNumeric && b.isNumeric then a.numericCmp b == some .eq
  else if (a.isTemporal && b.isTemporal) || (a.isDuration && b.isDuration) then
    a.temporalCmp b == some .eq
  else a.sameTypeEq b

end FlakeValue

end FlureeDb.Core
