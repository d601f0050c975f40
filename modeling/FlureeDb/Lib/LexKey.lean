import Mathlib.Data.List.Lex
import Mathlib.Tactic.Ring

/-!
Keys that are compared column by column, and their encoding as one string of bytes: each
column big-endian at its width. Comparing the bytes is comparing the columns.
-/

namespace FlureeDb.Lib

open List Nat

-- literals of the widths of columns
instance neZeroWidth16 : NeZero (2 ^ 16) := ⟨by decide⟩

instance neZeroWidth32 : NeZero (2 ^ 32) := ⟨by decide⟩

instance neZeroWidth64 : NeZero (2 ^ 64) := ⟨by decide⟩

/-- Two lists of columns, compared from the left. -/
def cmpColumns : List ℕ → List ℕ → Ordering := List.compareLex compare

theorem cmpColumns_cons (a b : ℕ) (as bs : List ℕ) :
    cmpColumns (a :: as) (b :: bs) = (compare a b).then (cmpColumns as bs) :=
  List.compareLex_cons_cons

theorem cmpColumns_compares (as bs : List ℕ) : (cmpColumns as bs).Compares as bs := by
  induction as generalizing bs with
  | nil =>
    cases bs with
    | nil => rfl
    | cons b bs => exact nil_lt_cons b bs
  | cons a as ih =>
    cases bs with
    | nil => exact nil_lt_cons a as
    | cons b bs =>
      rw [cmpColumns_cons]
      have hab := (compare_iff a b).mp rfl
      cases h : compare a b with
      | lt | gt =>
        rw [h] at hab
        exact cons_lt_cons_iff.mpr (.inl hab)
      | eq =>
        rw [h] at hab
        obtain rfl : a = b := hab
        have hrest := ih bs
        change (cmpColumns as bs).Compares (a :: as) (a :: bs)
        cases hcmp : cmpColumns as bs with
        | lt =>
          rw [hcmp] at hrest
          exact cons_lt_cons_iff.mpr (.inr ⟨rfl, hrest⟩)
        | eq =>
          rw [hcmp] at hrest
          exact congrArg (a :: ·) hrest
        | gt =>
          rw [hcmp] at hrest
          exact cons_lt_cons_iff.mpr (.inr ⟨rfl, hrest⟩)

theorem cmpColumns_append {as bs : List ℕ} (hlength : as.length = bs.length) (as' bs' : List ℕ) :
    cmpColumns (as ++ as') (bs ++ bs') = (cmpColumns as bs).then (cmpColumns as' bs') := by
  induction as generalizing bs with
  | nil =>
    cases bs with
    | nil => rfl
    | cons b => simp at hlength
  | cons a as ih =>
    cases bs with
    | nil => simp at hlength
    | cons b bs =>
      have hlength : as.length = bs.length := by simpa using hlength
      rw [cons_append, cons_append, cmpColumns_cons, cmpColumns_cons, ih hlength,
        Ordering.then_assoc]

theorem isLE_iff_le {K : Type*} [LinearOrder K] {o : Ordering} {a b : K} (h : o.Compares a b) :
    o.isLE = true ↔ a ≤ b := Ordering.isLE_iff_ne_gt.trans h.ne_gt

theorem transCmp_of_compares {α K : Type*} [LinearOrder K] {cmp : α → α → Ordering} {key : α → K}
    (h : ∀ a b, (cmp a b).Compares (key a) (key b)) : Std.TransCmp cmp where
  eq_swap {a b} := (h a b).inj (Ordering.compares_swap.mpr (h b a))
  isLE_trans {a b c} hab hbc := by
    rw [isLE_iff_le (h _ _)] at hab hbc ⊢
    exact hab.trans hbc

/-- By time, the newest first, and at one time by a flag, set before unset. -/
theorem newestFirst_compares (x y : ℕ) (p q : Bool) :
    ((compare y x).then (compare q p)).Compares
      (OrderDual.toDual (2 * x + p.toNat)) (OrderDual.toDual (2 * y + q.toNat)) := by
  have hp := Bool.toNat_le p
  have hq := Bool.toNat_le q
  rcases lt_trichotomy y x with h | rfl | h
  · rw [Nat.compare_eq_lt.mpr h]
    show 2 * y + q.toNat < 2 * x + p.toNat
    omega
  · rw [Nat.compare_eq_eq.mpr rfl]
    cases p <;> cases q <;> first | rfl | exact lt_succ_self _
  · rw [Nat.compare_eq_gt.mpr h]
    show 2 * x + p.toNat < 2 * y + q.toNat
    omega

/-! ### Bytes -/

/-- A number as bytes, the most significant first. -/
def beBytes : ℕ → ℕ → List ℕ
  | 0, _ => []
  | width + 1, n => n / 256 ^ width % 256 :: beBytes width n

theorem length_beBytes (width n : ℕ) : (beBytes width n).length = width := by
  induction width with
  | zero => rfl
  | succ width ih => exact congrArg (· + 1) ih

/-- Comparing the bytes compares what is left of the numbers at this width. -/
theorem cmpColumns_beBytes (width n m : ℕ) :
    cmpColumns (beBytes width n) (beBytes width m) =
      compare (n % 256 ^ width) (m % 256 ^ width) := by
  induction width with
  | zero => simp [beBytes, cmpColumns, mod_one]
  | succ width ih =>
    have hsplit : ∀ x : ℕ, x % 256 ^ (width + 1) =
        256 ^ width * (x / 256 ^ width % 256) + x % 256 ^ width := by
      intro x
      rw [pow_succ, mod_mul, add_comm]
    have hpos : 0 < 256 ^ width := Nat.pow_pos (by omega)
    have hn := mod_lt n hpos
    have hm := mod_lt m hpos
    rw [beBytes, beBytes, cmpColumns_cons, ih, hsplit n, hsplit m]
    generalize n / 256 ^ width % 256 = a
    generalize m / 256 ^ width % 256 = b
    generalize n % 256 ^ width = x at *
    generalize m % 256 ^ width = y at *
    generalize 256 ^ width = base at *
    rcases lt_trichotomy a b with hab | rfl | hab
    · have hstep : base * a + base ≤ base * b := by
        calc base * a + base = base * (a + 1) := by ring
          _ ≤ base * b := mul_le_mul_left base hab
      have hlt : compare (base * a + x) (base * b + y) = .lt := Nat.compare_eq_lt.mpr (by omega)
      rw [Nat.compare_eq_lt.mpr hab, hlt]
      rfl
    · rw [Nat.compare_eq_eq.mpr rfl]
      change compare x y = _
      rcases lt_trichotomy x y with hxy | rfl | hxy
      · rw [Nat.compare_eq_lt.mpr hxy, Nat.compare_eq_lt.mpr (by omega)]
      · rw [Nat.compare_eq_eq.mpr rfl, Nat.compare_eq_eq.mpr rfl]
      · rw [Nat.compare_eq_gt.mpr hxy, Nat.compare_eq_gt.mpr (by omega)]
    · have hstep : base * b + base ≤ base * a := by
        calc base * b + base = base * (b + 1) := by ring
          _ ≤ base * a := mul_le_mul_left base hab
      have hgt : compare (base * a + x) (base * b + y) = .gt := Nat.compare_eq_gt.mpr (by omega)
      rw [Nat.compare_eq_gt.mpr hab, hgt]
      rfl

/-- Comparing the bytes of several columns, each at its width, compares the columns. -/
theorem cmpColumns_flatMap_beBytes {γ : Type*} (width : γ → ℕ) (u v : γ → ℕ) {columns : List γ}
    (hu : ∀ c ∈ columns, u c < 256 ^ width c) (hv : ∀ c ∈ columns, v c < 256 ^ width c) :
    cmpColumns (columns.flatMap fun c => beBytes (width c) (u c))
        (columns.flatMap fun c => beBytes (width c) (v c)) =
      cmpColumns (columns.map u) (columns.map v) := by
  induction columns with
  | nil => rfl
  | cons c columns ih =>
    rw [flatMap_cons, flatMap_cons, map_cons, map_cons, cmpColumns_cons,
      cmpColumns_append (by rw [length_beBytes, length_beBytes]), cmpColumns_beBytes,
      mod_eq_of_lt (hu c mem_cons_self), mod_eq_of_lt (hv c mem_cons_self),
      ih (fun d hd => hu d (mem_cons_of_mem c hd))
        (fun d hd => hv d (mem_cons_of_mem c hd))]

end FlureeDb.Lib
