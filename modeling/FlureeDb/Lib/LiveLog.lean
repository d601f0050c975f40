import FlureeDb.Lib.LastOp
import Mathlib.Data.Finset.Max

/-!
The log of a fact in a store that drops repeated asserts. A store that is loaded at once
has the asserts that do not repeat the one before them. This is told by which operations there
are, so that a store may be followed without the order of its log.
-/

namespace FlureeDb.Lib.OpLog

open List

instance (log : OpLog) (t : ℤ) : Decidable (PrevAssert log t) :=
  decidable_of_iff
    (∃ op ∈ log, op.2 = true ∧ op.1 < t ∧ ∀ op' ∈ log, op'.1 < t → op'.1 ≤ op.1) (by
    constructor
    · rintro ⟨⟨u, _⟩, hin, rfl, hlt, hlast⟩
      exact ⟨u, hlt, hin, hlast⟩
    · rintro ⟨u, hlt, hin, hlast⟩
      exact ⟨(u, true), hin, rfl, hlt, hlast⟩)

variable {log log' : OpLog}

theorem prevAssert_congr (h : ∀ op, op ∈ log ↔ op ∈ log') (t : ℤ) :
    PrevAssert log t ↔ PrevAssert log' t := by
  simp only [PrevAssert, h]

/-- What a load keeps: retracts, and asserts that have a retract at their time or do not
follow an assert. -/
def kept (log : OpLog) : OpLog :=
  log.filter fun op => !op.2 || decide ((op.1, false) ∈ log) || !decide (PrevAssert log op.1)

variable {op : ℤ × Bool}

theorem mem_kept :
    op ∈ kept log ↔ op ∈ log ∧ (op.2 = true → (op.1, false) ∈ log ∨ ¬ PrevAssert log op.1) := by
  unfold kept
  rw [mem_filter]
  cases op.2 <;> simp

/-- The walk over the sorted log keeps them. -/
theorem mem_walk_iff_kept {sorted : OpLog} (hsorted : sorted.Pairwise Before)
    (hmem : ∀ op, op ∈ sorted ↔ op ∈ log) : op ∈ walk false sorted ↔ op ∈ kept log := by
  rw [mem_kept]
  obtain ⟨t, asserts⟩ := op
  cases asserts with
  | false =>
    rw [mem_walk_retract, hmem]
    simp
  | true =>
    rw [mem_walk_assert false sorted hsorted, hmem, hmem, prevAssert_congr hmem]
    simp

/-- What a load keeps is read as the whole log. -/
theorem lastAsserts_kept (log : OpLog) (τ : ℤ) : LastAsserts (kept log) τ ↔ LastAsserts log τ := by
  constructor
  · rintro ⟨t, ht, hin, hlast⟩
    have hpart : ∃ op, op ∈ (log.filter fun op => decide (op.1 ≤ τ)).toFinset :=
      ⟨(t, true), by simpa using ⟨(mem_kept.mp hin).1, ht⟩⟩
    obtain ⟨last, hmem, hmax⟩ := Finset.exists_max_image _ Prod.fst hpart
    simp only [mem_toFinset, mem_filter, decide_eq_true_eq] at hmem hmax
    by_cases hkept : last ∈ kept log
    · exact ⟨t, ht, (mem_kept.mp hin).1, fun op hop hle =>
        (hmax op ⟨hop, hle⟩).trans (hlast last hkept hmem.2)⟩
    · -- only asserts are dropped
      have hassert : last.2 = true := by
        by_contra hop
        exact hkept (mem_kept.mpr ⟨hmem.1, fun h => absurd h hop⟩)
      exact ⟨last.1, hmem.2, hassert ▸ hmem.1, fun op hop hle => hmax op ⟨hop, hle⟩⟩
  · -- by the number of operations: a dropped assert has another in front of it
    induction hn : (log.filter fun op => decide (op.1 ≤ τ)).length using Nat.strong_induction_on
      generalizing τ with
    | _ n ih =>
      rintro ⟨t, ht, hin, hlast⟩
      by_cases hkept : (t, true) ∈ kept log
      · exact ⟨t, ht, hkept, fun op hop => hlast op (mem_kept.mp hop).1⟩
      · obtain ⟨hretract, hprev⟩ : (t, false) ∉ log ∧ PrevAssert log t := by
          rw [mem_kept] at hkept
          grind
        obtain ⟨u, hu, hassert, hbefore⟩ := hprev
        have hfewer : (log.filter fun op => decide (op.1 ≤ u)).length < n := by
          have hpart : log.filter (fun op => decide (op.1 ≤ u)) =
              (log.filter fun op => decide (op.1 ≤ τ)).filter fun op => decide (op.1 ≤ u) := by
            rw [filter_filter]
            refine filter_congr fun op _ => ?_
            simpa using fun h : op.1 ≤ u => h.trans (hu.le.trans ht)
          rw [← hn, hpart, length_filter_lt_length_iff_exists]
          exact ⟨(t, true), by simpa using ⟨hin, ht⟩, by simpa using hu⟩
        obtain ⟨w, hw, hwkept, hwlast⟩ := ih _ hfewer u rfl
          ⟨u, le_refl u, hassert, fun op hop hle => hbefore op hop (hle.trans_lt hu)⟩
        refine ⟨w, hw.trans (hu.le.trans ht), hwkept, fun op hop hle => ?_⟩
        have hin' := (mem_kept.mp hop).1
        have hne : op.1 ≠ t := by
          rintro rfl
          obtain ⟨v, asserts⟩ := op
          cases asserts with
          | true => exact hkept hop
          | false => exact hretract hin'
        exact hwlast op hop (hbefore op hin' (lt_of_le_of_ne (hlast op hin' hle) hne))

end FlureeDb.Lib.OpLog
