import FlureeDb.Lib.Float64
import FlureeDb.Lib.Numerals
import Mathlib.Data.List.Lex
import Mathlib.Data.Rat.Lemmas
import Mathlib.Algebra.Order.Ring.Rat

/-!
The values that statistics bound. A bound is stored as bytes and decoded by the type of its
column; two values of one type are compared as numbers or by their bytes.
-/

namespace FlureeDb.Iceberg

open Lib List

structure F32 where
  bits : BitVec 32
  deriving DecidableEq

namespace F32

variable (x : F32)

def low : ℕ := x.bits.toNat % 2 ^ 31

def isNaN : Bool := 255 * 2 ^ 23 < x.low

/-- In units of the smallest subnormal, with the infinities above all finite numbers. -/
def magnitude : ℕ :=
  if x.low / 2 ^ 23 = 0 then x.low
  else (2 ^ 23 + x.low % 2 ^ 23) * 2 ^ (x.low / 2 ^ 23 - 1)

def units : ℤ := if 2 ^ 31 ≤ x.bits.toNat then -x.magnitude else x.magnitude

end F32

/-- A string is its UTF-8 bytes. -/
inductive TypedValue
  | boolean (v : Bool)
  | int32 (v : ℤ)
  | int64 (v : ℤ)
  | float32 (v : F32)
  | float64 (v : F64)
  | date (v : ℤ)
  | timestamp (v : ℤ)
  | timestampTz (v : ℤ)
  | string (v : List UInt8)
  | bytes (v : List UInt8)
  | uuid (v : List UInt8)
  | decimal (unscaled : ℤ) (precision : ℕ) (scale : ℤ)
  deriving DecidableEq

inductive ComparisonOp
  | eq | notEq | lt | ltEq | gt | gtEq
  deriving DecidableEq

variable {op : ComparisonOp}

namespace ComparisonOp

variable {κ : Type} [LinearOrder κ]

/-- Of a NaN, only `!=` holds. -/
def holds (op : ComparisonOp) : Option κ → Option κ → Bool
  | some a, some b => match op with
    | .eq => a = b
    | .notEq => a ≠ b
    | .lt => a < b
    | .ltEq => a ≤ b
    | .gt => b < a
    | .gtEq => b ≤ a
  | _, _ => op = .notEq

theorem holds_swap (a b : Option κ) :
    gt.holds a b = lt.holds b a ∧ gtEq.holds a b = ltEq.holds b a := by
  cases a <;> cases b <;> exact ⟨rfl, rfl⟩

theorem holds_mono (hop : op = .lt ∨ op = .ltEq) {a a' b b' : Option κ} (h : op.holds a b)
    (ha : ∀ k ∈ a, ∃ k' ∈ a', k' ≤ k) (hb : ∀ k ∈ b, ∃ k' ∈ b', k ≤ k') :
    op.holds a' b' := by
  unfold holds at h
  split at h
  · next k j =>
    obtain ⟨_, rfl, hle⟩ := ha k rfl
    obtain ⟨_, rfl, hle'⟩ := hb j rfl
    rcases hop with rfl | rfl
    · exact decide_eq_true (hle.trans_lt ((of_decide_eq_true h).trans_le hle'))
    · exact decide_eq_true (hle.trans ((of_decide_eq_true h).trans hle'))
  · rcases hop with rfl | rfl <;> cases h

end ComparisonOp

namespace TypedValue

/-- What values of one type are compared by: a number or a string, and nothing for a NaN. -/
def key : TypedValue → Option (ℚ ×ₗ List ℕ)
  | boolean v => some (toLex (v.toNat, []))
  | int32 v | int64 v | date v | timestamp v | timestampTz v => some (toLex (v, []))
  | float32 v => if v.isNaN then none else some (toLex (v.units, []))
  | float64 v => if v.isNaN then none else some (toLex (v.units, []))
  | string v | bytes v | uuid v => some (toLex (0, v.map UInt8.toNat))
  | decimal unscaled _ scale => some (toLex (unscaled / 10 ^ scale, []))

def sameType (a b : TypedValue) : Bool := a.ctorIdx = b.ctorIdx

/-- The derived equality, which is that of the numbers for floats. -/
def eq (a b : TypedValue) : Bool :=
  match a with
  | float32 _ | float64 _ => a.sameType b && ComparisonOp.eq.holds a.key b.key
  | _ => a = b

/-- `lt` and `le` compare two values of one type, but no UUIDs and no decimals. -/
def compareIf (op : ComparisonOp) (a b : TypedValue) : Option Bool :=
  match a with
  | uuid _ | decimal .. => none
  | _ => if a.sameType b then some (op.holds a.key b.key) else none

def lt (a b : TypedValue) : Option Bool := compareIf .lt a b

def le (a b : TypedValue) : Option Bool := compareIf .ltEq a b

variable {a b : TypedValue}

theorem key_of_eq (h : a.eq b) : a.key = b.key ∧ a.eq a := by
  have hfloat : (a.sameType b && ComparisonOp.eq.holds a.key b.key) →
      a.key = b.key ∧ (a.sameType a && ComparisonOp.eq.holds a.key a.key) := by
    cases a.key <;> cases b.key <;> simp [ComparisonOp.holds, sameType]
  unfold TypedValue.eq at h ⊢
  split at h
  · exact hfloat h
  · exact hfloat h
  · exact ⟨congrArg key (of_decide_eq_true h), decide_eq_true rfl⟩

theorem compareIf_of_holds (h : op.holds a.key b.key) :
    (compareIf op a b).getD true := by
  unfold compareIf
  split
  · rfl
  · rfl
  · split
    · exact h
    · rfl

end TypedValue

/-! ### Decoding -/

def fromLeBytes (bytes : List UInt8) : ℕ := bytes.foldr (fun b n => b.toNat + 256 * n) 0

/-- The bits of a number that is stored in `n` bytes. -/
def leBits (n : ℕ) (bytes : List UInt8) : Option (BitVec (8 * n)) :=
  if bytes.length = n then some (.ofNat (8 * n) (fromLeBytes bytes)) else none

def isUtf8 (bytes : List UInt8) : Bool := (ByteArray.mk bytes.toArray).validateUTF8

/-- Big-endian two's complement, extended to 16 bytes by the sign. -/
def decodeDecimalBytes (bytes : List UInt8) : Option ℤ :=
  match bytes with
  | [] => some 0
  | first :: _ =>
    if 16 < bytes.length then none
    else
      let padding : UInt8 := if first &&& 0x80 != 0 then 0xFF else 0x00
      let padded := List.replicate (16 - bytes.length) padding ++ bytes
      some (BitVec.ofNat 128 (fromLeBytes padded.reverse)).toInt

def isWhitespace (c : Char) : Bool :=
  c.isWhitespace || c.toNat ∈ [0x0B, 0x0C, 0x85, 0xA0, 0x1680, 0x2028, 0x2029, 0x202F, 0x205F, 0x3000]
    || (0x2000 ≤ c.toNat && c.toNat ≤ 0x200A)

def trim (text : List Char) : List Char :=
  ((text.dropWhile isWhitespace).reverse.dropWhile isWhitespace).reverse

def trimStartMatches (pattern : List Char) : ℕ → List Char → List Char
  | 0, text => text
  | fuel + 1, text =>
    if pattern.isPrefixOf text then trimStartMatches pattern fuel (text.drop pattern.length)
    else text

/-- The precision and the scale of a type `decimal(precision, scale)`. -/
def decimalType (type : String) : Option (ℕ × ℤ) := do
  let text := type.toList
  let inner := trimStartMatches "decimal(".toList text.length text
  match ((inner.reverse.dropWhile (· = ')')).reverse).splitOn ',' with
  | [precision, scale] =>
    let precision ← Numerals.readUnsigned 255 (trim precision)
    let scale ← Numerals.readSigned 127 (trim scale)
    some (precision, scale)
  | _ => none

/-- `decode_by_type_string`; a nested type is not spelled out and has no decoder. -/
def decodeByTypeString (bytes : List UInt8) (type : Option String) : Option TypedValue := do
  match ← type with
  | "boolean" => bytes.head?.map fun b => .boolean (b != 0)
  | "int" => (leBits 4 bytes).map fun n => .int32 n.toInt
  | "long" => (leBits 8 bytes).map fun n => .int64 n.toInt
  | "float" => (leBits 4 bytes).map fun n => .float32 ⟨n⟩
  | "double" => (leBits 8 bytes).map fun n => .float64 ⟨n⟩
  | "date" => (leBits 4 bytes).map fun n => .date n.toInt
  | "timestamp" => (leBits 8 bytes).map fun n => .timestamp n.toInt
  | "timestamptz" => (leBits 8 bytes).map fun n => .timestampTz n.toInt
  | "string" => if isUtf8 bytes then some (.string bytes) else none
  | "binary" | "fixed" => some (.bytes bytes)
  | "uuid" => if bytes.length = 16 then some (.uuid bytes) else none
  | type =>
    if "decimal".toList.isPrefixOf type.toList then do
      let (precision, scale) ← decimalType type
      let unscaled ← decodeDecimalBytes bytes
      some (.decimal unscaled precision scale)
    else none

end FlureeDb.Iceberg
