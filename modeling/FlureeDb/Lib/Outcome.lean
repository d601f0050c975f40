import Mathlib.Algebra.BigOperators.Group.List.Basic
import Mathlib.Algebra.Order.Ring.Int

/-!
Computations that return a value, report an error, or panic. What the caller sees of an error is
its message; a panic, a slice out of range or an integer that leaves its type, is no result at
all. A computation is safe when it does not panic.
-/

namespace FlureeDb.Lib

inductive Outcome (ε α : Type)
  | ok (a : α)
  | err (e : ε)
  | panic
  deriving DecidableEq, Repr

namespace Outcome

variable {ε δ α β : Type}

def bind (x : Outcome ε α) (f : α → Outcome ε β) : Outcome ε β :=
  match x with
  | ok a => f a
  | err e => err e
  | panic => panic

instance : Monad (Outcome ε) where
  pure := ok
  bind := bind

@[simp] theorem pure_eq (a : α) : (pure a : Outcome ε α) = ok a := rfl

@[simp] theorem ok_bind (a : α) (f : α → Outcome ε β) : (ok a >>= f) = f a := rfl

@[simp] theorem err_bind (e : ε) (f : α → Outcome ε β) : (err e >>= f) = err e := rfl

@[simp] theorem panic_bind (f : α → Outcome ε β) : ((panic : Outcome ε α) >>= f) = panic := rfl

section

variable {x : Outcome ε α} {f : α → Outcome ε β}

theorem bind_eq_ok {b : β} : (x >>= f) = ok b ↔ ∃ a, x = ok a ∧ f a = ok b := by
  cases x <;> simp

theorem bind_eq_panic : (x >>= f) = panic ↔ x = panic ∨ ∃ a, x = ok a ∧ f a = panic := by
  cases x <;> simp

/-- What reports no error panics at the start or goes on without one. -/
theorem bind_ne_err (h : ∀ e, (x >>= f) ≠ err e) :
    x = panic ∨ ∃ a, x = ok a ∧ ∀ e, f a ≠ err e := by
  cases x with
  | ok a => exact .inr ⟨a, rfl, h⟩
  | err e => exact absurd rfl (h e)
  | panic => exact .inl rfl

/-- What goes on safely panics where it starts. -/
theorem bind_eq_panic_of_safe (hf : ∀ a, f a ≠ panic) : (x >>= f) = panic ↔ x = panic := by
  rw [bind_eq_panic]
  exact or_iff_left fun ⟨a, _, ha⟩ => hf a ha

end

instance : LawfulMonad (Outcome ε) := LawfulMonad.mk' _
  (fun x => by cases x <;> rfl) (fun _ _ => rfl) (fun x _ _ => by cases x <;> rfl)

def orErr (e : ε) : Option α → Outcome ε α
  | some a => ok a
  | none => err e

def orPanic : Option α → Outcome ε α
  | some a => ok a
  | none => panic

variable {x : Option α} {a : α}

@[simp] theorem orErr_eq_ok {e : ε} : orErr e x = ok a ↔ x = some a := by
  cases x <;> simp [orErr]

@[simp] theorem orErr_ne_panic (e : ε) (x : Option α) : orErr e x ≠ panic := by
  cases x <;> simp [orErr]

@[simp] theorem orPanic_eq_ok : (orPanic x : Outcome ε α) = ok a ↔ x = some a := by
  cases x <;> simp [orPanic]

@[simp] theorem orPanic_eq_panic : (orPanic x : Outcome ε α) = panic ↔ x = none := by
  cases x <;> simp [orPanic]

def mapErr (f : ε → δ) : Outcome ε α → Outcome δ α
  | ok a => ok a
  | err e => err (f e)
  | panic => panic

@[simp] theorem mapErr_eq_ok {f : ε → δ} {x : Outcome ε α} : x.mapErr f = ok a ↔ x = ok a := by
  cases x <;> simp [mapErr]

@[simp] theorem mapErr_eq_panic {f : ε → δ} {x : Outcome ε α} : x.mapErr f = panic ↔ x = panic := by
  cases x <;> simp [mapErr]

/-- The signed integers of so many bits. -/
def Fits (width : ℕ) (v : ℤ) : Prop := -2 ^ (width - 1) ≤ v ∧ v < 2 ^ (width - 1)

instance (width : ℕ) (v : ℤ) : Decidable (Fits width v) :=
  inferInstanceAs (Decidable (_ ∧ _))

/-- The result of an operation on signed integers, unless it overflows. -/
def checked (width : ℕ) (v : ℤ) : Outcome ε ℤ := if Fits width v then ok v else panic

variable {width : ℕ} {v : ℤ}

@[simp] theorem checked_eq_ok {w : ℤ} :
    (checked width v : Outcome ε ℤ) = ok w ↔ Fits width v ∧ v = w := by
  unfold checked
  split <;> simp_all

@[simp] theorem checked_eq_panic : (checked width v : Outcome ε ℤ) = panic ↔ ¬ Fits width v := by
  unfold checked
  split <;> simp_all

end Outcome

end FlureeDb.Lib
