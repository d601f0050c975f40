import FlureeDb.Lib.Utf8
import Mathlib.Algebra.Order.Ring.Int
import Mathlib.Tactic.Ring

/-!
Decimal numerals as a standard library reads them into machine integers. A numeral is one or more
digits. A reader of unsigned integers also takes a plus sign in front, and one of signed integers
a plus or a minus sign; a number that does not fit is no number.
-/

namespace FlureeDb.Lib.Numerals

open List Nat

def Numeral (ds : List Char) : Prop := ds ≠ [] ∧ ∀ c ∈ ds, c.isDigit

instance (ds : List Char) : Decidable (Numeral ds) :=
  @instDecidableAnd _ _ _ (List.decidableBAll _ _)

def digit (c : Char) : ℕ := c.toNat - '0'.toNat

def value (ds : List Char) : ℕ := ds.foldl (fun n c => 10 * n + digit c) 0

theorem foldl_value (ds : List Char) (n : ℕ) :
    ds.foldl (fun n c => 10 * n + digit c) n = n * 10 ^ ds.length + value ds := by
  unfold value
  induction ds generalizing n with
  | nil => simp
  | cons c ds ih =>
    rw [foldl_cons, foldl_cons, ih, ih (10 * 0 + digit c), length_cons]
    ring

theorem value_append (a b : List Char) : value (a ++ b) = value a * 10 ^ b.length + value b := by
  rw [value, foldl_append, foldl_value]
  rfl

theorem value_replicate_zero (n : ℕ) : value (List.replicate n '0') = 0 := by
  induction n with
  | zero => rfl
  | succ n ih =>
    rw [replicate_succ', value_append, ih]
    rfl

theorem digit_lt {c : Char} (h : c.isDigit) : digit c < 10 := by
  have hle : c.toNat ≤ '9'.toNat := by
    rw [Char.isDigit, Bool.and_eq_true, decide_eq_true_iff, decide_eq_true_iff] at h
    exact h.2
  have hnine : '9'.toNat = 57 := rfl
  have hzero : '0'.toNat = 48 := rfl
  unfold digit
  omega

variable {ds : List Char}

theorem value_lt (h : ∀ c ∈ ds, c.isDigit) : value ds < 10 ^ ds.length := by
  induction ds with
  | nil => decide
  | cons c ds ih =>
    have hc := digit_lt (h c (mem_cons_self ..))
    have hds := ih fun d hd => h d (mem_cons_of_mem _ hd)
    have hcons : value (c :: ds) = digit c * 10 ^ ds.length + value ds :=
      value_append [c] ds |>.trans (by simp [value])
    have hmul : digit c * 10 ^ ds.length ≤ 9 * 10 ^ ds.length :=
      mul_le_mul_right _ (by omega)
    rw [length_cons]
    omega

/-- The value of a numeral no greater than `max`. -/
def readDigits (max : ℕ) (ds : List Char) : Option ℕ :=
  if Numeral ds ∧ value ds ≤ max then some (value ds) else none

variable {max : ℕ}

theorem readDigits_eq_some {n : ℕ} :
    readDigits max ds = some n ↔ Numeral ds ∧ value ds ≤ max ∧ n = value ds := by
  unfold readDigits
  split
  · next h => simp [h, eq_comm]
  · next h => exact iff_of_false (by simp) fun hall => h ⟨hall.1, hall.2.1⟩

def readUnsigned (max : ℕ) (text : List Char) : Option ℕ :=
  match text with
  | '+' :: ds => readDigits max ds
  | ds => readDigits max ds

def readSigned (max : ℕ) (text : List Char) : Option ℤ :=
  match text with
  | '+' :: ds => (readDigits max ds).map (↑)
  | '-' :: ds => (readDigits (max + 1) ds).map fun n : ℕ => -(n : ℤ)
  | ds => (readDigits max ds).map (↑)

/-- A numeral no greater than `max`, perhaps with a plus sign in front. -/
def UnsignedNumeral (max : ℕ) (text : List Char) (n : ℕ) : Prop :=
  ∃ ds, (text = ds ∨ text = '+' :: ds) ∧ Numeral ds ∧ value ds ≤ max ∧ n = value ds

/-- The same for a signed integer, which may also be negative and then one greater. -/
def SignedNumeral (max : ℕ) (text : List Char) (v : ℤ) : Prop :=
  (∃ ds, (text = ds ∨ text = '+' :: ds) ∧ Numeral ds ∧ value ds ≤ max ∧ v = value ds) ∨
    ∃ ds, text = '-' :: ds ∧ Numeral ds ∧ value ds ≤ max + 1 ∧ v = -(value ds : ℤ)

theorem Numeral.head_ne_plus {c : Char} {rest : List Char} (h : Numeral ds)
    (hcons : ds = c :: rest) : c ≠ '+' ∧ c ≠ '-' := by
  have hc : c.isDigit := h.2 c (hcons ▸ mem_cons_self ..)
  constructor
  · rintro rfl
    exact absurd hc (by decide)
  · rintro rfl
    exact absurd hc (by decide)

variable {text : List Char}

theorem readSigned_eq_some {v : ℤ} :
    readSigned max text = some v ↔ SignedNumeral max text v := by
  have hdigits : ∀ m ds (f : ℕ → ℤ), (readDigits m ds).map f = some v ↔
      Numeral ds ∧ value ds ≤ m ∧ v = f (value ds) := by
    intro m ds f
    rw [Option.map_eq_some_iff]
    constructor
    · rintro ⟨n, hn, rfl⟩
      obtain ⟨hds, hle, rfl⟩ := readDigits_eq_some.mp hn
      exact ⟨hds, hle, rfl⟩
    · rintro ⟨hds, hle, rfl⟩
      exact ⟨value ds, readDigits_eq_some.mpr ⟨hds, hle, rfl⟩, rfl⟩
  unfold readSigned
  split
  · next ds =>
    rw [hdigits]
    constructor
    · exact fun h => .inl ⟨ds, .inr rfl, h⟩
    · rintro (⟨es, rfl | hes, h⟩ | ⟨es, hes, h⟩)
      · exact absurd rfl (h.1.head_ne_plus rfl).1
      · cases hes
        exact h
      · cases hes
  · next ds =>
    rw [hdigits]
    constructor
    · exact fun h => .inr ⟨ds, rfl, h⟩
    · rintro (⟨es, rfl | hes, h⟩ | ⟨es, hes, h⟩)
      · exact absurd rfl (h.1.head_ne_plus rfl).2
      · cases hes
      · cases hes
        exact h
  · next ds hplus hminus =>
    rw [hdigits]
    constructor
    · exact fun h => .inl ⟨text, .inl rfl, h⟩
    · rintro (⟨es, rfl | hes, h⟩ | ⟨es, hes, h⟩)
      · exact h
      · exact absurd hes (hplus es)
      · exact absurd hes (hminus es)

theorem readUnsigned_eq_some {n : ℕ} :
    readUnsigned max text = some n ↔ UnsignedNumeral max text n := by
  unfold readUnsigned
  split
  · next ds =>
    rw [readDigits_eq_some]
    constructor
    · exact fun h => ⟨ds, .inr rfl, h⟩
    · rintro ⟨es, rfl | hes, h⟩
      · exact absurd rfl (h.1.head_ne_plus rfl).1
      · cases hes
        exact h
  · next hplus =>
    rw [readDigits_eq_some]
    constructor
    · exact fun h => ⟨text, .inl rfl, h⟩
    · rintro ⟨es, rfl | hes, h⟩
      · exact h
      · exact absurd hes (hplus es)

/-- Without a sign in front a signed integer is read as its digits say. -/
theorem SignedNumeral.of_plain {v : ℤ} (h : SignedNumeral max text v) (hplus : '+' ∉ text)
    (hminus : '-' ∉ text) : Numeral text ∧ v = value text := by
  rcases h with ⟨ds, rfl | rfl, hds, -, rfl⟩ | ⟨ds, rfl, -⟩
  · exact ⟨hds, rfl⟩
  · exact absurd (mem_cons_self ..) hplus
  · exact absurd (mem_cons_self ..) hminus

end FlureeDb.Lib.Numerals
