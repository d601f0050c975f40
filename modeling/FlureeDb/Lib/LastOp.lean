import FlureeDb.Lib.OpLog

/-!
The reading of an operation log in which the last operation decides and, among those
of one time, an assert. A log that is sorted that way is read off its last entry.
-/

namespace FlureeDb.Lib.OpLog

open List

/-- The last operations up to a time have an assert among them. -/
def LastAsserts (log : OpLog) (τ : ℤ) : Prop :=
  ∃ t ≤ τ, (t, true) ∈ log ∧ ∀ op ∈ log, op.1 ≤ τ → op.1 ≤ t

variable {log log' : OpLog} {τ : ℤ}

theorem lastAsserts_congr (h : ∀ op : ℤ × Bool, op.1 ≤ τ → (op ∈ log ↔ op ∈ log')) :
    LastAsserts log τ ↔ LastAsserts log' τ := by
  refine exists_congr fun t => and_congr_right fun ht => ?_
  refine and_congr (h (t, true) ht) ⟨fun hlast op hop hle => ?_, fun hlast op hop hle => ?_⟩
  · exact hlast op ((h op hle).mpr hop) hle
  · exact hlast op ((h op hle).mp hop) hle

instance (log : OpLog) (τ : ℤ) : Decidable (LastAsserts log τ) :=
  decidable_of_iff
    (∃ op ∈ log, op.1 ≤ τ ∧ op.2 = true ∧ ∀ op' ∈ log, op'.1 ≤ τ → op'.1 ≤ op.1) (by
    constructor
    · rintro ⟨⟨t, _⟩, hin, ht, rfl, hlast⟩
      exact ⟨t, ht, hin, hlast⟩
    · rintro ⟨t, ht, hin, hlast⟩
      exact ⟨(t, true), hin, ht, rfl, hlast⟩)

theorem not_lastAsserts_nil (τ : ℤ) : ¬ LastAsserts [] τ := by
  rintro ⟨t, -, hin, -⟩
  cases hin

/-- The last operations of all have an assert among them. -/
def EndsAsserted (log : OpLog) : Prop := ∃ t, (t, true) ∈ log ∧ ∀ op ∈ log, op.1 ≤ t

theorem lastAsserts_iff_endsAsserted (h : ∀ op ∈ log, op.1 ≤ τ) :
    LastAsserts log τ ↔ EndsAsserted log := by
  constructor
  · rintro ⟨t, -, hin, hlast⟩
    exact ⟨t, hin, fun op hop => hlast op hop (h op hop)⟩
  · rintro ⟨t, hin, hlast⟩
    exact ⟨t, h _ hin, hin, fun op hop _ => hlast op hop⟩

/-- Operations at one time behind all others decide, if there are any. -/
theorem endsAsserted_batch {all : OpLog} {t : ℤ} {p : Bool → Prop}
    (hall : ∀ op, op ∈ all ↔ (op.1 = t ∧ p op.2) ∨ op ∈ log) (hlate : ∀ op ∈ log, op.1 < t) :
    EndsAsserted all ↔ p true ∨ (¬ p false ∧ EndsAsserted log) := by
  constructor
  · rintro ⟨u, hin, hmax⟩
    obtain ⟨-, htrue⟩ | hin := (hall _).mp hin
    · exact .inl htrue
    · refine .inr ⟨fun hfalse => ?_, u, hin, fun op hop => hmax op ((hall op).mpr (.inr hop))⟩
      have hle := hmax (t, false) ((hall _).mpr (.inl ⟨rfl, hfalse⟩))
      exact absurd (hlate _ hin) (not_lt.mpr hle)
  · intro h
    by_cases htrue : p true
    · refine ⟨t, (hall _).mpr (.inl ⟨rfl, htrue⟩), fun op hop => ?_⟩
      obtain ⟨ht, -⟩ | hop := (hall op).mp hop
      · exact ht.le
      · exact (hlate op hop).le
    · obtain ⟨hfalse, u, hin, hmax⟩ := h.resolve_left htrue
      refine ⟨u, (hall _).mpr (.inr hin), fun op hop => ?_⟩
      obtain ⟨-, hflag⟩ | hop := (hall op).mp hop
      · cases hop2 : op.2 with
        | true => exact absurd (hop2 ▸ hflag) htrue
        | false => exact absurd (hop2 ▸ hflag) hfalse
      · exact hmax op hop

/-- Some operation of the first log is later than all of the second. -/
def Outlasts (log log' : OpLog) : Prop := ∃ op ∈ log, ∀ op' ∈ log', op'.1 < op.1

theorem not_outlasts_of_subset (h : log ⊆ log') : ¬ Outlasts log log' := by
  rintro ⟨op, hop, hlast⟩
  exact lt_irrefl _ (hlast op (h hop))

theorem not_outlasts_both : ¬ (Outlasts log log' ∧ Outlasts log' log) := by
  rintro ⟨⟨op, hop, hlast⟩, op', hop', hlast'⟩
  exact lt_asymm (hlast op' hop') (hlast' op hop)

theorem endsAsserted_of_subset (h : log ⊆ log') (hlog : EndsAsserted log) :
    EndsAsserted log' ∨ Outlasts log' log := by
  obtain ⟨t, hin, hmax⟩ := hlog
  by_cases hlast : ∀ op ∈ log', op.1 ≤ t
  · exact .inl ⟨t, h hin, hlast⟩
  · push Not at hlast
    obtain ⟨op, hop, hlt⟩ := hlast
    exact .inr ⟨op, hop, fun op' hop' => (hmax op' hop').trans_lt hlt⟩

/-- Of two logs the one that ends later decides; if they end together, either may assert. -/
theorem endsAsserted_union {all : OpLog} (hall : ∀ op, op ∈ all ↔ op ∈ log ∨ op ∈ log') :
    EndsAsserted all ↔
      (EndsAsserted log ∧ ¬ Outlasts log' log) ∨ (EndsAsserted log' ∧ ¬ Outlasts log log') := by
  constructor
  · rintro ⟨t, hin, hmax⟩
    obtain hin | hin := (hall _).mp hin
    · refine .inl ⟨⟨t, hin, fun op hop => hmax op ((hall op).mpr (.inl hop))⟩, ?_⟩
      rintro ⟨op, hop, hlast⟩
      exact absurd (hmax op ((hall op).mpr (.inr hop))) (not_le.mpr (hlast _ hin))
    · refine .inr ⟨⟨t, hin, fun op hop => hmax op ((hall op).mpr (.inr hop))⟩, ?_⟩
      rintro ⟨op, hop, hlast⟩
      exact absurd (hmax op ((hall op).mpr (.inl hop))) (not_le.mpr (hlast _ hin))
  · rintro (⟨⟨t, hin, hmax⟩, hlast⟩ | ⟨⟨t, hin, hmax⟩, hlast⟩)
    · refine ⟨t, (hall _).mpr (.inl hin), fun op hop => ?_⟩
      obtain hop | hop := (hall op).mp hop
      · exact hmax op hop
      · exact not_lt.mp fun hlt => hlast ⟨op, hop, fun op' hop' => (hmax op' hop').trans_lt hlt⟩
    · refine ⟨t, (hall _).mpr (.inr hin), fun op hop => ?_⟩
      obtain hop | hop := (hall op).mp hop
      · exact not_lt.mp fun hlt => hlast ⟨op, hop, fun op' hop' => (hmax op' hop').trans_lt hlt⟩
      · exact hmax op hop

/-- Operations at one time behind a log, beside another log that may go on after them. -/
theorem endsAsserted_beside {all : OpLog} {t : ℤ} {p : Bool → Prop}
    (hall : ∀ op, op ∈ all ↔ (op.1 = t ∧ p op.2) ∨ op ∈ log ∨ op ∈ log')
    (hlate : ∀ op ∈ log, op.1 < t) (hp : ∃ asserts, p asserts) :
    EndsAsserted all ↔
      (p true ∧ ¬ ∃ op ∈ log', t < op.1) ∨ (EndsAsserted log' ∧ ∃ op ∈ log', t ≤ op.1) := by
  constructor
  · rintro ⟨u, hin, hmax⟩
    obtain ⟨asserts, hp⟩ := hp
    have hu : t ≤ u := hmax (t, asserts) ((hall _).mpr (.inl ⟨rfl, hp⟩))
    have hmax' : ∀ op ∈ log', op.1 ≤ u := fun op hop => hmax op ((hall op).mpr (.inr (.inr hop)))
    obtain ⟨hut, htrue⟩ | hin | hin := (hall _).mp hin
    · refine .inl ⟨htrue, ?_⟩
      rintro ⟨op, hop, hlt⟩
      exact absurd (hmax' op hop) (not_le.mpr (hut.trans_lt hlt))
    · exact absurd (hlate _ hin) (not_lt.mpr hu)
    · exact .inr ⟨⟨u, hin, hmax'⟩, _, hin, hu⟩
  · rintro (⟨htrue, hnone⟩ | ⟨⟨u, hin, hmax⟩, op, hop, hle⟩)
    · refine ⟨t, (hall _).mpr (.inl ⟨rfl, htrue⟩), fun op hop => ?_⟩
      obtain ⟨heq, -⟩ | hop | hop := (hall op).mp hop
      · exact heq.le
      · exact (hlate op hop).le
      · exact not_lt.mp fun hlt => hnone ⟨op, hop, hlt⟩
    · have hu : t ≤ u := hle.trans (hmax op hop)
      refine ⟨u, (hall _).mpr (.inr (.inr hin)), fun op hop => ?_⟩
      obtain ⟨heq, -⟩ | hop | hop := (hall op).mp hop
      · exact heq.trans_le hu
      · exact (hlate op hop).le.trans hu
      · exact hmax op hop

/-! ### Sorted logs -/

/-- What the last entry of a log leaves, starting from a flag. -/
def final (flag : Bool) (log : OpLog) : Bool := (log.getLast?.map Prod.snd).getD flag

theorem final_cons (flag : Bool) (op : ℤ × Bool) (log : OpLog) :
    final flag (op :: log) = final op.2 log := by
  unfold final
  cases hlast : log.getLast? with
  | none =>
    rw [getLast?_eq_none_iff.mp hlast]
    rfl
  | some last => rw [getLast?_cons, hlast]; rfl

/-- A sorted log is read off its last entry. -/
theorem lastAsserts_iff_final (hsorted : log.Pairwise Before) (τ : ℤ) :
    LastAsserts log τ ↔ final false (log.filter fun op => decide (op.1 ≤ τ)) = true := by
  have hsorted := hsorted.filter fun op => decide (op.1 ≤ τ)
  have hmem : ∀ op, op ∈ log.filter (fun op => decide (op.1 ≤ τ)) ↔ op ∈ log ∧ op.1 ≤ τ := by
    intro op
    simp
  generalize log.filter (fun op => decide (op.1 ≤ τ)) = part at hsorted hmem
  unfold final
  cases hlast : part.getLast? with
  | none =>
    have hnil := getLast?_eq_none_iff.mp hlast
    refine ⟨fun ⟨t, ht, hin, _⟩ => ?_, fun h => (nomatch h)⟩
    have hpart := (hmem _).mpr ⟨hin, ht⟩
    rw [hnil] at hpart
    cases hpart
  | some last =>
    obtain ⟨init, rfl⟩ := getLast?_eq_some_iff.mp hlast
    have hbefore : ∀ op ∈ init, Before op last := fun op hop =>
      (pairwise_append.mp hsorted).2.2 op hop last (mem_singleton_self last)
    obtain ⟨hin, hle⟩ := (hmem last).mp (mem_append_right _ (mem_singleton_self last))
    have htime : ∀ op ∈ log, op.1 ≤ τ → op.1 ≤ last.1 := by
      intro op hop hle
      obtain hop | hop := mem_append.mp ((hmem op).mpr ⟨hop, hle⟩)
      · obtain hlt | ⟨heq, -⟩ := hbefore op hop
        · exact hlt.le
        · exact heq.le
      · rw [mem_singleton.mp hop]
    change _ ↔ last.2 = true
    constructor
    · rintro ⟨t, ht, hassert, hmax⟩
      have heq : t = last.1 := le_antisymm (htime _ hassert ht) (hmax last hin hle)
      obtain hop | hop := mem_append.mp ((hmem _).mpr ⟨hassert, ht⟩)
      · obtain hlt | ⟨-, himp⟩ := hbefore _ hop
        · exact absurd heq hlt.ne
        · exact himp rfl
      · rw [← mem_singleton.mp hop]
    · intro hassert
      exact ⟨last.1, hle, by rw [← hassert]; exact hin, htime⟩

end FlureeDb.Lib.OpLog
