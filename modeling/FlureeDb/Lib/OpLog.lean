import Mathlib.Data.List.MinMax
import Mathlib.Data.Prod.Lex
import Mathlib.Data.Set.Finite.Lattice
import Mathlib.Data.Int.LeastGreatest

/-!
Logs of asserts and retracts of one fact. An operation is a time and a flag, true
for an assert. The latest operation decides whether the fact holds, and a retract
wins over an assert of the same time; so the order in which operations are
recorded does not matter, and a log may drop an assert of a fact that holds
already.

Two ways to drop such asserts are compared here. One keeps a current state and
looks at it when a batch of operations of one time arrives. The other sorts the
whole log and walks over it with a flag. They agree on a log unless a time has
both operations: the walk then believes that the fact holds, and the state says
that it does not.
-/

namespace FlureeDb.Lib

open List

/-- The operations on one fact: a time, and whether the fact is asserted. -/
abbrev OpLog := List (ℤ × Bool)

variable {log : OpLog} {t : ℤ}

namespace OpLog

/-- Whether an operation replaces the current one: it is later, or it is a retract
of the same time as an assert. -/
def wins (op cur : ℤ × Bool) : Bool :=
  cur.1 < op.1 || (op.1 == cur.1 && cur.2 && !op.2)

def latest : Option (ℤ × Bool) → ℤ × Bool → Option (ℤ × Bool)
  | none, op => some op
  | some cur, op => if wins op cur then some op else some cur

/-- The current operation is an assert. -/
def asserted (cur : Option (ℤ × Bool)) : Bool := (cur.map Prod.snd).getD false

/-- Whether the fact holds at a time, by the operations up to that time. -/
def presentAt (log : OpLog) (τ : ℤ) : Bool :=
  asserted ((log.filter (·.1 ≤ τ)).foldl latest none)

/-- The operation is not later than the other one; at one time an assert is not
later than a retract. -/
def Below (op cur : ℤ × Bool) : Prop :=
  op.1 < cur.1 ∨ (op.1 = cur.1 ∧ (cur.2 = true → op.2 = true))

/-- Operations by how late they are: by time, and at one time a retract after an
assert. -/
def lateness (op : ℤ × Bool) : ℤ ×ₗ Bool := toLex (op.1, !op.2)

variable {cur : ℤ × Bool} {op : ℤ × Bool}

theorem below_iff : Below op cur ↔ lateness op ≤ lateness cur := by
  unfold Below lateness
  rw [Prod.Lex.toLex_le_toLex]
  cases op.2 <;> cases cur.2 <;> simp

theorem wins_iff : wins op cur = true ↔ lateness cur < lateness op := by
  unfold wins lateness
  rw [Prod.Lex.toLex_lt_toLex, eq_comm (a := cur.1)]
  cases op.2 <;> cases cur.2 <;> simp

theorem Below.refl (op : ℤ × Bool) : Below op op := .inr ⟨rfl, id⟩

/-- The operation that decides a log: none of the others is later. -/
def Decides (log : OpLog) (cur : ℤ × Bool) : Prop := cur ∈ log ∧ ∀ op ∈ log, Below op cur

theorem Decides.unique {a b : ℤ × Bool} (ha : Decides log a) (hb : Decides log b) : a = b := by
  have hsame : lateness a = lateness b :=
    le_antisymm (below_iff.mp (hb.2 a ha.1)) (below_iff.mp (ha.2 b hb.1))
  obtain ⟨htime, hop⟩ := Prod.mk.inj (toLex_inj.mp hsame)
  exact Prod.ext htime (Bool.not_inj hop)

theorem foldl_latest_eq_none (log : OpLog) (init : Option (ℤ × Bool))
    (h : log.foldl latest init = none) : init = none ∧ log = [] := by
  induction log generalizing init with
  | nil => exact ⟨h, rfl⟩
  | cons op log ih =>
    have hnone : latest init op = none := (ih _ h).1
    cases init with
    | none => cases hnone
    | some cur => cases hwins : wins op cur <;> simp [latest, hwins] at hnone

/-- Recording a log keeps the operation that is the latest. -/
theorem foldl_latest_iff {init : Option (ℤ × Bool)} :
    log.foldl latest init = some cur ↔ Decides (init.toList ++ log) cur := by
  have hlatest : latest = argAux fun op cur => lateness cur < lateness op := by
    funext init op
    cases init with
    | none => rfl
    | some cur => simp only [latest, argAux, wins_iff]
  have hargmax : log.foldl latest init = (init.toList ++ log).argmax lateness := by
    rw [argmax, ← hlatest]
    cases init <;> rfl
  have hspec {cur : ℤ × Bool} (h : log.foldl latest init = some cur) :
      Decides (init.toList ++ log) cur := by
    rw [hargmax] at h
    exact ⟨argmax_mem h, fun op hop => below_iff.mpr (le_of_mem_argmax hop h)⟩
  refine ⟨hspec, fun h => ?_⟩
  cases hcur : log.foldl latest init with
  | none =>
    obtain ⟨rfl, rfl⟩ := foldl_latest_eq_none log init hcur
    cases h.1
  | some cur' => rw [(hspec hcur).unique h]

variable {log' : OpLog}

/-- The order in which operations are recorded, and how often, makes no difference. -/
theorem foldl_latest_congr (h : ∀ op, op ∈ log ↔ op ∈ log') (init : Option (ℤ × Bool)) :
    log.foldl latest init = log'.foldl latest init := by
  ext cur
  simp only [foldl_latest_iff, Decides, mem_append, h]

/-- Some assert is later than every retract. -/
def Holds (log : OpLog) : Prop :=
  ∃ t, (t, true) ∈ log ∧ ∀ u, (u, false) ∈ log → u < t

theorem asserted_foldl_iff (log : OpLog) (init : Option (ℤ × Bool)) :
    asserted (log.foldl latest init) = true ↔ Holds (init.toList ++ log) := by
  cases hcur : log.foldl latest init with
  | none =>
    obtain ⟨rfl, rfl⟩ := foldl_latest_eq_none log init hcur
    simp [asserted, Holds]
  | some cur =>
    obtain ⟨hmem, hbelow⟩ := foldl_latest_iff.mp hcur
    obtain ⟨t, op⟩ := cur
    constructor
    · intro hop
      subst hop
      refine ⟨t, hmem, fun u hu => ?_⟩
      rcases hbelow (u, false) hu with hlt | ⟨-, himp⟩
      · exact hlt
      · cases himp rfl
    · rintro ⟨u, hu, hlater⟩
      -- a retract as the latest operation would be earlier than the assert at `u`
      cases op with
      | true => rfl
      | false =>
        have hlt : t < u := hlater t hmem
        rcases hbelow (u, true) hu with hgt | ⟨heq, -⟩
        · omega
        · omega

/-- The fact holds at a time: some assert up to then is later than every retract up
to then. -/
def Present (log : OpLog) (τ : ℤ) : Prop :=
  ∃ t ≤ τ, (t, true) ∈ log ∧ ∀ u ≤ τ, (u, false) ∈ log → u < t

theorem presentAt_iff (log : OpLog) (τ : ℤ) : presentAt log τ = true ↔ Present log τ := by
  unfold presentAt
  rw [asserted_foldl_iff]
  simp only [Holds, Option.toList_none, nil_append, mem_filter,
    decide_eq_true_eq]
  constructor
  · rintro ⟨t, ⟨hmem, hle⟩, hlater⟩
    exact ⟨t, hle, hmem, fun u hu hmem => hlater u ⟨hmem, hu⟩⟩
  · rintro ⟨t, hle, hmem, hlater⟩
    exact ⟨t, ⟨hmem, hle⟩, fun u hu => hlater u hu.2 hu.1⟩

theorem present_congr (h : ∀ op, op ∈ log ↔ op ∈ log') (τ : ℤ) :
    Present log τ ↔ Present log' τ := by
  simp only [Present, h]

theorem holds_congr (h : ∀ op, op ∈ log ↔ op ∈ log') : Holds log ↔ Holds log' := by
  simp only [Holds, h]

/-! ### The walk over a sorted log -/

/-- Keeps retracts, and asserts while the flag is down; the flag is up after an
assert and down after a retract. -/
def walk : Bool → OpLog → OpLog
  | _, [] => []
  | _, (t, false) :: log => (t, false) :: walk false log
  | false, (t, true) :: log => (t, true) :: walk true log
  | true, (_, true) :: log => walk true log

/-- By time, and at one time the retracts first. -/
def Before (a b : ℤ × Bool) : Prop := a.1 < b.1 ∨ (a.1 = b.1 ∧ (a.2 = true → b.2 = true))

/-- The last time before the given one at which the log has an operation has an
assert. -/
def PrevAssert (log : OpLog) (t : ℤ) : Prop :=
  ∃ u < t, (u, true) ∈ log ∧ ∀ op ∈ log, op.1 < t → op.1 ≤ u

variable (flag : Bool)

theorem walk_cons (op : ℤ × Bool) (log : OpLog) :
    walk flag (op :: log) = (if op.2 && flag then [] else [op]) ++ walk op.2 log := by
  obtain ⟨t, op⟩ := op
  cases op <;> cases flag <;> rfl

theorem mem_walk_retract (log : OpLog) (t : ℤ) : (t, false) ∈ walk flag log ↔ (t, false) ∈ log := by
  induction log generalizing flag with
  | nil => cases flag <;> rfl
  | cons op log ih =>
    rw [walk_cons, mem_append, ih, mem_cons]
    refine or_congr_left ?_
    split
    next hdropped =>
      refine iff_of_false not_mem_nil ?_
      rintro rfl
      cases hdropped
    next => exact mem_singleton

theorem walk_sublist (log : OpLog) : walk flag log <+ log := by
  induction log generalizing flag with
  | nil => cases flag <;> exact .slnil
  | cons op log ih =>
    rw [walk_cons]
    split
    · exact (ih _).cons _
    · exact (ih _).cons_cons _

theorem time_le_of_before {head : ℤ × Bool} (h : ∀ op ∈ log, Before head op) :
    ∀ op ∈ log, head.1 ≤ op.1 := by
  intro op hop
  rcases h op hop with hlt | ⟨heq, -⟩
  · exact hlt.le
  · exact heq.le

theorem not_prevAssert_of_le (h : ∀ op ∈ log, t ≤ op.1) : ¬ PrevAssert log t := by
  rintro ⟨u, hu, hmem, -⟩
  have hle : t ≤ u := h _ hmem
  omega

variable {u : ℤ}

theorem prevAssert_cons_retract (hle : ∀ op ∈ log, u ≤ op.1) :
    PrevAssert ((u, false) :: log) t ↔ PrevAssert log t := by
  constructor
  · rintro ⟨v, hv, hmem, hlast⟩
    exact ⟨v, hv, by simpa using hmem, fun x hx => hlast x (mem_cons_of_mem _ hx)⟩
  · rintro ⟨v, hv, hmem, hlast⟩
    refine ⟨v, hv, mem_cons_of_mem _ hmem, fun x hx hxt => ?_⟩
    rcases mem_cons.mp hx with rfl | hx
    · exact hle _ hmem
    · exact hlast x hx hxt

theorem prevAssert_cons_assert (hhead : ∀ op ∈ log, Before (u, true) op) (htu : u < t) :
    PrevAssert ((u, true) :: log) t ↔ PrevAssert log t ∨ ∀ op ∈ log, t ≤ op.1 := by
  have hle : ∀ op ∈ log, u ≤ op.1 := time_le_of_before hhead
  constructor
  · rintro ⟨v, hv, hmem, hlast⟩
    by_cases hnone : ∀ op ∈ log, t ≤ op.1
    · exact .inr hnone
    · refine .inl ⟨v, hv, ?_, fun x hx => hlast x (mem_cons_of_mem _ hx)⟩
      push Not at hnone
      obtain ⟨⟨w, op⟩, hx, hxt⟩ := hnone
      rcases mem_cons.mp hmem with heq | hmem
      · -- the operation in between is at the head's time, and so an assert
        have hvu : v = u := congrArg Prod.fst heq
        have hwv : w ≤ v := hlast _ (mem_cons_of_mem _ hx) hxt
        have huw : u ≤ w := hle _ hx
        have hw : w = v := by omega
        rcases hhead _ hx with hlt | ⟨-, hop⟩
        · omega
        · rw [show op = true from hop rfl, hw] at hx
          exact hx
      · exact hmem
  · rintro (⟨v, hv, hmem, hlast⟩ | hnone)
    · refine ⟨v, hv, mem_cons_of_mem _ hmem, fun x hx hxt => ?_⟩
      rcases mem_cons.mp hx with rfl | hx
      · exact hle _ hmem
      · exact hlast x hx hxt
    · refine ⟨u, htu, mem_cons_self, fun x hx hxt => ?_⟩
      rcases mem_cons.mp hx with rfl | hx
      · exact le_refl _
      · have hxt' := hnone x hx
        omega

/-- Which asserts the walk keeps, when it starts with the given flag: those whose
time has a retract as well, and those not preceded by an assert. -/
theorem mem_walk_assert (log : OpLog) (hsorted : log.Pairwise Before) (t : ℤ) :
    (t, true) ∈ walk flag log ↔ (t, true) ∈ log ∧
      ((t, false) ∈ log ∨
        ¬ (PrevAssert log t ∨ ((∀ op ∈ log, t ≤ op.1) ∧ flag = true))) := by
  induction log generalizing flag with
  | nil => cases flag <;> simp [walk]
  | cons head log ih =>
    obtain ⟨hhead, htail⟩ := pairwise_cons.mp hsorted
    obtain ⟨u, op⟩ := head
    have hle : ∀ x ∈ log, u ≤ x.1 := time_le_of_before hhead
    have hle' : ∀ x ∈ (u, op) :: log, u ≤ x.1 := forall_mem_cons.mpr ⟨le_refl u, hle⟩
    rw [walk_cons, mem_append, ih op htail]
    rcases lt_trichotomy t u with htu | rfl | htu
    · have hout : (t, true) ∉ (u, op) :: log := fun hmem => absurd (hle' _ hmem) (not_le.mpr htu)
      refine iff_of_false ?_ fun h => hout h.1
      rintro (hmem | ⟨hmem, -⟩)
      · split at hmem
        · cases hmem
        · exact hout (mem_singleton.mp hmem ▸ mem_cons_self)
      · exact hout (mem_cons_of_mem _ hmem)
    · cases op with
      | false => simp [not_prevAssert_of_le hle]
      | true =>
        have hsame : (t, false) ∉ log := by
          intro hmem
          rcases hhead _ hmem with h | ⟨-, h⟩
          · exact lt_irrefl _ h
          · cases h rfl
        cases flag with
        | false => simp [not_prevAssert_of_le hle']
        | true =>
          -- the flag is up, and no retract is at the time
          refine iff_of_false ?_ ?_
          · rintro (hmem | ⟨-, hmem | hnot⟩)
            · cases hmem
            · exact hsame hmem
            · exact hnot (.inr ⟨hle, rfl⟩)
          · rintro ⟨-, hmem | hnot⟩
            · simp [hsame] at hmem
            · exact hnot (.inr ⟨hle', rfl⟩)
    · have hne : t ≠ u := htu.ne'
      have hhead' : (t, true) ∉ if op && flag then [] else [(u, op)] := by
        split <;> simp [hne]
      have hlater : ¬ ((∀ x ∈ (u, op) :: log, t ≤ x.1) ∧ flag = true) := fun h =>
        absurd (h.1 _ mem_cons_self) (not_le.mpr htu)
      rw [or_iff_left hlater]
      cases op with
      | false =>
        rw [prevAssert_cons_retract hle]
        simp [hne]
      | true =>
        rw [prevAssert_cons_assert hhead htu]
        simp [hne]

/-! ### Dropping asserts by the current state -/

/-- What is kept of a batch: retracts, and asserts if the fact does not hold. -/
def keepBatch (cur : Option (ℤ × Bool)) (batch : OpLog) : OpLog :=
  batch.filter fun op => !(op.2 && asserted cur)

/-- What is kept of batches that arrive one by one, and the current operation
after them. -/
def applyBatches : Option (ℤ × Bool) → List OpLog → OpLog × Option (ℤ × Bool)
  | cur, [] => ([], cur)
  | cur, batch :: batches =>
    let kept := keepBatch cur batch
    let rest := applyBatches (kept.foldl latest cur) batches
    (kept ++ rest.1, rest.2)

/-- The operations of a batch are of one time, and later batches of later times. -/
def Timed : List OpLog → Prop
  | [] => True
  | batch :: batches =>
    (∃ t, (∀ op ∈ batch, op.1 = t) ∧ ∀ op ∈ batches.flatten, t < op.1) ∧ Timed batches

/-- A log that was recorded counts like its operations. -/
theorem holds_foldl_append (log log' : OpLog) (cur : Option (ℤ × Bool)) :
    Holds ((log.foldl latest cur).toList ++ log') ↔ Holds (cur.toList ++ (log ++ log')) := by
  rw [← asserted_foldl_iff, ← asserted_foldl_iff, foldl_append]

theorem asserted_iff_holds (cur : Option (ℤ × Bool)) : asserted cur = true ↔ Holds cur.toList := by
  have h := asserted_foldl_iff [] cur
  rwa [append_nil] at h

variable {cur : Option (ℤ × Bool)}

theorem keepBatch_of_asserted (h : asserted cur = true) (batch : OpLog) :
    keepBatch cur batch = batch.filter fun op => !op.2 := by
  simp [keepBatch, h]

theorem keepBatch_of_not_asserted (h : ¬ asserted cur = true) (batch : OpLog) :
    keepBatch cur batch = batch := by
  simp [keepBatch, h]

theorem mem_keepBatch_retract (cur : Option (ℤ × Bool)) (batch : OpLog) (t : ℤ) :
    (t, false) ∈ keepBatch cur batch ↔ (t, false) ∈ batch := by
  simp [keepBatch]

theorem mem_keepBatch_assert (cur : Option (ℤ × Bool)) (batch : OpLog) (t : ℤ) :
    (t, true) ∈ keepBatch cur batch ↔ (t, true) ∈ batch ∧ ¬ asserted cur = true := by
  simp [keepBatch]

/-- The asserts that a batch loses make no difference to what holds afterwards. -/
theorem holds_keepBatch (cur : Option (ℤ × Bool)) (batch later : OpLog) (t : ℤ)
    (hbatch : ∀ op ∈ batch, op.1 = t) (hlater : ∀ op ∈ later, t < op.1) :
    Holds (((keepBatch cur batch).foldl latest cur).toList ++ later) ↔
      Holds (cur.toList ++ (batch ++ later)) := by
  rw [holds_foldl_append]
  by_cases hcur : asserted cur = true
  · rw [keepBatch_of_asserted hcur]
    constructor
    · rintro ⟨u, hu, hret⟩
      refine ⟨u, ?_, fun v hv => hret v ?_⟩
      · simp only [mem_append, mem_filter] at hu ⊢
        tauto
      · simpa using hv
    · rintro ⟨u, hu, hret⟩
      have hret' : ∀ v, (v, false) ∈ cur.toList ++ (batch.filter (fun op => !op.2) ++ later) →
          v < u := fun v hv => hret v (by simpa using hv)
      by_cases hmem : (u, true) ∈ batch
      · -- nothing is retracted at `t` or later, so the current assert stands
        obtain ⟨w, hw, -⟩ := (asserted_iff_holds cur).mp hcur
        have hcurw : cur = some (w, true) := Option.mem_toList.mp hw
        subst hcurw
        have hut : u = t := hbatch _ hmem
        refine ⟨w, by simp, fun v hv => ?_⟩
        have hvu := hret' v hv
        simp only [Option.toList_some, mem_append, mem_singleton, Prod.mk.injEq,
          Bool.false_eq_true, and_false, mem_filter, false_or] at hv
        rcases hv with ⟨hv, -⟩ | hv
        · have hvt : v = t := hbatch _ hv
          omega
        · have htv : t < v := hlater _ hv
          omega
      · refine ⟨u, ?_, hret'⟩
        simp only [mem_append] at hu ⊢
        tauto
  · rw [keepBatch_of_not_asserted hcur]

theorem filter_lt_eq_nil (h : ∀ op ∈ log, t ≤ op.1) : log.filter (·.1 < t) = [] := by
  rw [filter_eq_nil_iff]
  intro op hop
  have := h op hop
  simpa using this

theorem applyBatches_of_flatten_nil {batches : List OpLog} (h : batches.flatten = [])
    (cur : Option (ℤ × Bool)) : applyBatches cur batches = ([], cur) := by
  induction batches with
  | nil => rfl
  | cons batch batches ih =>
    rw [flatten_cons, append_eq_nil_iff] at h
    obtain ⟨rfl, htail⟩ := h
    exact ih htail

section

variable (cur : Option (ℤ × Bool)) (batches : List OpLog)

theorem applyBatches_retract (t : ℤ) :
    (t, false) ∈ (applyBatches cur batches).1 ↔ (t, false) ∈ batches.flatten := by
  induction batches generalizing cur with
  | nil => rfl
  | cons batch batches ih =>
    change (t, false) ∈ keepBatch cur batch ++ _ ↔ _
    rw [flatten_cons, mem_append, mem_append, mem_keepBatch_retract, ih]

/-- An assert is kept unless the fact held by what came before it, dropped or
not. -/
theorem applyBatches_assert (htimed : Timed batches) (t : ℤ) :
    (t, true) ∈ (applyBatches cur batches).1 ↔ (t, true) ∈ batches.flatten ∧
      ¬ Holds (cur.toList ++ batches.flatten.filter (·.1 < t)) := by
  induction batches generalizing cur with
  | nil => simp [applyBatches]
  | cons batch batches ih =>
    obtain ⟨⟨u, hbatch, hlater⟩, htimed⟩ := htimed
    change (t, true) ∈ keepBatch cur batch ++ _ ↔ _
    rw [flatten_cons, mem_append, mem_append, mem_keepBatch_assert,
      ih _ htimed, filter_append]
    rcases lt_trichotomy t u with htu | rfl | htu
    · have hout : (t, true) ∉ batch := fun h => by
        have : t = u := hbatch _ h
        omega
      have hout' : (t, true) ∉ batches.flatten := fun h => by
        have : u < t := hlater _ h
        omega
      simp only [hout, hout', false_and, or_self]
    · have hout : (t, true) ∉ batches.flatten := fun h => lt_irrefl _ (hlater _ h)
      have hnil : batch.filter (·.1 < t) = [] :=
        filter_lt_eq_nil fun op hop => (hbatch op hop).ge
      have hnil' : batches.flatten.filter (·.1 < t) = [] :=
        filter_lt_eq_nil fun op hop => (hlater op hop).le
      simp only [hnil, hnil', append_nil, asserted_iff_holds, hout, false_and, or_false]
    · have hout : (t, true) ∉ batch := fun h => by
        have : t = u := hbatch _ h
        omega
      have hall : batch.filter (·.1 < t) = batch := by
        rw [filter_eq_self]
        intro op hop
        have := hbatch op hop
        simp only [decide_eq_true_eq]
        omega
      rw [hall, holds_keepBatch cur batch _ u hbatch
        fun op hop => hlater op (mem_of_mem_filter hop)]
      simp only [hout, false_and, false_or]

theorem applyBatches_snd :
    (applyBatches cur batches).2 = (applyBatches cur batches).1.foldl latest cur := by
  induction batches generalizing cur with
  | nil => rfl
  | cons batch batches ih =>
    change _ = (keepBatch cur batch ++ _).foldl latest cur
    rw [foldl_append, ← ih]
    rfl

end

/-! ### Where the two ways agree -/

/-- Asserts and no retract at the time. -/
def AssertsOnly (log : OpLog) (t : ℤ) : Prop := (t, true) ∈ log ∧ (t, false) ∉ log

/-- The last retract before the time has an assert at its side. -/
def SplitBefore (log : OpLog) (t : ℤ) : Prop :=
  ∃ u < t, (u, false) ∈ log ∧ (u, true) ∈ log ∧ ∀ v, u < v → v < t → (v, false) ∉ log

/-- Every earlier assert is retracted before the time. -/
def StartsRun (log : OpLog) (t : ℤ) : Prop :=
  ∀ u < t, (u, true) ∈ log → ∃ v, u ≤ v ∧ v < t ∧ (v, false) ∈ log

/-- The condition on a stored log, a current operation and new operations under
which the walk over all of them tells the same as the batches one by one: an assert
after a time with both operations is dropped by the batches too, and an assert after
a retract alone is stored or kept by them. -/
def Agrees (stored : OpLog) (cur : Option (ℤ × Bool)) (added : OpLog) : Prop :=
  ∀ t, AssertsOnly (stored ++ added) t →
    (SplitBefore (stored ++ added) t →
      (t, true) ∉ stored ∧ Holds (cur.toList ++ added.filter (·.1 < t))) ∧
    (¬ SplitBefore (stored ++ added) t → StartsRun (stored ++ added) t →
      (t, true) ∈ stored ∨ ¬ Holds (cur.toList ++ added.filter (·.1 < t)))

/-- On new operations alone the two ways agree if no time has both. -/
theorem agrees_of_no_pair {added : OpLog}
    (hpair : ∀ t, (t, true) ∈ added → (t, false) ∉ added) : Agrees [] none added := by
  refine fun t _ => ⟨?_, fun _ hstarts => .inr ?_⟩
  · rintro ⟨u, -, hretract, hassert, -⟩
    exact absurd hretract (hpair u hassert)
  · rintro ⟨u, hu, hlast⟩
    obtain ⟨hu, hut⟩ := mem_filter.mp hu
    obtain ⟨v, huv, hvt, hv⟩ := hstarts u (of_decide_eq_true hut) hu
    exact absurd (hlast v (mem_filter.mpr ⟨hv, decide_eq_true hvt⟩)) (not_lt.mpr huv)

/-- Before an assert that starts a run there is an assert only at the side of a
retract. -/
theorem not_prevAssert_of_startsRun (hstart : StartsRun log t) (hsplit : ¬ SplitBefore log t) :
    ¬ PrevAssert log t := by
  rintro ⟨u, hu, hmem, hlast⟩
  obtain ⟨v, huv, hvt, hv⟩ := hstart u hu hmem
  have hvu : v ≤ u := hlast _ hv hvt
  have heq : v = u := by omega
  subst heq
  refine hsplit ⟨v, hu, hv, hmem, fun w hvw hwt hw => ?_⟩
  have hwv : w ≤ v := hlast _ hw hwt
  omega

/-- With an assert at or after the last retract there is an assert last. -/
theorem prevAssert_of_assert (hut : u < t) (hu : (u, true) ∈ log)
    (hret : ∀ v, u < v → v < t → (v, false) ∉ log) : PrevAssert log t := by
  obtain ⟨w, ⟨⟨op, hop⟩, huw, hwt⟩, hmax⟩ := Int.exists_greatest_of_bdd
    (P := fun w => (∃ op, (w, op) ∈ log) ∧ u ≤ w ∧ w < t)
    ⟨t, fun w hw => hw.2.2.le⟩ ⟨u, ⟨true, hu⟩, le_refl u, hut⟩
  have hassert : (w, true) ∈ log := by
    rcases eq_or_lt_of_le huw with rfl | hlt
    · exact hu
    · cases op with
      | true => exact hop
      | false => exact absurd hop (hret w hlt hwt)
  refine ⟨w, hwt, hassert, fun x hx hxt => ?_⟩
  by_cases hux : u ≤ x.1
  · exact hmax x.1 ⟨⟨x.2, hx⟩, hux, hxt⟩
  · omega

theorem startsRun_of_not_prevAssert (hprev : ¬ PrevAssert log t) : StartsRun log t := by
  intro u hut hu
  by_contra hnone
  push Not at hnone
  exact hprev (prevAssert_of_assert hut hu fun v huv hvt => hnone v huv.le hvt)

theorem not_splitBefore_of_not_prevAssert (hprev : ¬ PrevAssert log t) : ¬ SplitBefore log t := by
  rintro ⟨u, hut, -, hu, hret⟩
  exact hprev (prevAssert_of_assert hut hu hret)

/-- Every assert that stands alone belongs to a run that starts somewhere. -/
theorem exists_startsRun (ht : AssertsOnly log t) :
    ∃ u ≤ t, AssertsOnly log u ∧ StartsRun log u ∧
      ∀ v, u ≤ v → v ≤ t → (v, false) ∉ log := by
  obtain ⟨b, hb⟩ := (log.map Prod.fst).toFinset.bddBelow
  obtain ⟨u, ⟨hmem, hut, hret⟩, hmin⟩ := Int.exists_least_of_bdd
    (P := fun u => (u, true) ∈ log ∧ u ≤ t ∧ ∀ v, u ≤ v → v ≤ t → (v, false) ∉ log)
    ⟨b, fun u hu => hb (by simp [hu.1])⟩
    ⟨t, ht.1, le_refl t, fun v htv hvt => by rw [le_antisymm hvt htv]; exact ht.2⟩
  refine ⟨u, hut, ⟨hmem, hret u (le_refl u) hut⟩, ?_, hret⟩
  intro w hwu hw
  by_contra hnone
  push Not at hnone
  have huw : u ≤ w := by
    refine hmin w ⟨hw, by omega, fun v hwv hvt => ?_⟩
    by_cases hvu : v < u
    · exact hnone v hwv hvu
    · exact hret v (by omega) hvt
  omega

variable {stored added sorted kept : OpLog} {cur : Option (ℤ × Bool)}
  (hsorted : sorted.Pairwise Before) (hmem : ∀ op, op ∈ sorted ↔ op ∈ stored ++ added)
  (hretract : ∀ t, (t, false) ∈ kept ↔ (t, false) ∈ added)
  (hassert : ∀ t, (t, true) ∈ kept ↔
    (t, true) ∈ added ∧ ¬ Holds (cur.toList ++ added.filter (·.1 < t)))

include hsorted hmem in
/-- What holds after the walk is an assert that starts a run at no split time. -/
theorem present_walk_iff (τ : ℤ) : Present (walk false sorted) τ ↔
    ∃ t ≤ τ, AssertsOnly (stored ++ added) t ∧ ¬ PrevAssert (stored ++ added) t ∧
      ∀ u ≤ τ, (u, false) ∈ stored ++ added → u < t := by
  have hprev : ∀ t, PrevAssert sorted t ↔ PrevAssert (stored ++ added) t := by
    intro t
    simp only [PrevAssert, hmem]
  constructor
  · rintro ⟨t, htτ, ht, hret⟩
    have hret' : ∀ u ≤ τ, (u, false) ∈ stored ++ added → u < t := by
      intro u hu hmemu
      exact hret u hu ((mem_walk_retract false sorted u).mpr ((hmem _).mpr hmemu))
    have honly : (t, false) ∉ stored ++ added := fun h => lt_irrefl _ (hret' t htτ h)
    rw [mem_walk_assert false sorted hsorted, hmem, hmem, hprev] at ht
    obtain ⟨hin, hor⟩ := ht
    refine ⟨t, htτ, ⟨hin, honly⟩, fun hp => ?_, hret'⟩
    rcases hor with h | h
    · exact honly h
    · exact h (.inl hp)
  · rintro ⟨t, htτ, ⟨hin, -⟩, hp, hret⟩
    refine ⟨t, htτ, ?_, fun u hu hmemu => hret u hu ?_⟩
    · rw [mem_walk_assert false sorted hsorted, hmem, hprev]
      exact ⟨hin, .inr (by simp [hp])⟩
    · exact (hmem _).mp ((mem_walk_retract false sorted u).mp hmemu)

include hretract hassert in
/-- What holds after the batches is an assert that is stored or that they keep. -/
theorem present_kept_iff (τ : ℤ) : Present (stored ++ kept) τ ↔
    ∃ t ≤ τ, AssertsOnly (stored ++ added) t ∧
      ((t, true) ∈ stored ∨ ¬ Holds (cur.toList ++ added.filter (·.1 < t))) ∧
      ∀ u ≤ τ, (u, false) ∈ stored ++ added → u < t := by
  have hret : ∀ u, (u, false) ∈ stored ++ kept ↔ (u, false) ∈ stored ++ added := by
    intro u
    rw [mem_append, mem_append, hretract]
  constructor
  · rintro ⟨t, htτ, ht, hlater⟩
    have hlater' : ∀ u ≤ τ, (u, false) ∈ stored ++ added → u < t :=
      fun u hu hu' => hlater u hu ((hret u).mpr hu')
    have honly : (t, false) ∉ stored ++ added := fun h => lt_irrefl _ (hlater' t htτ h)
    rcases mem_append.mp ht with ht | ht
    · exact ⟨t, htτ, ⟨mem_append_left _ ht, honly⟩, .inl ht, hlater'⟩
    · obtain ⟨hadded, hnot⟩ := (hassert t).mp ht
      exact ⟨t, htτ, ⟨mem_append_right _ hadded, honly⟩, .inr hnot, hlater'⟩
  · rintro ⟨t, htτ, ⟨hin, -⟩, hkept, hlater⟩
    refine ⟨t, htτ, ?_, fun u hu hu' => hlater u hu ((hret u).mp hu')⟩
    rw [mem_append, hassert]
    rcases mem_append.mp hin with hst | hadded
    · exact .inl hst
    · rcases hkept with hst | hnot
      · exact .inl hst
      · exact .inr ⟨hadded, hnot⟩

include hsorted hmem hretract hassert in
/-- The walk and the batches tell the same at every time exactly if they agree. -/
theorem present_iff_agrees :
    (∀ τ, Present (stored ++ kept) τ ↔ Present (walk false sorted) τ) ↔
      Agrees stored cur added := by
  have hwalk := fun τ => present_walk_iff hsorted hmem τ
  have hkept := fun τ => @present_kept_iff stored _ _ _ hretract hassert τ
  constructor
  · intro hsame t ht
    -- at its own time the assert is later than every retract
    have hlast : (∀ u ≤ t, (u, false) ∈ stored ++ added → u < t) := by
      intro u hu hmemu
      rcases eq_or_lt_of_le hu with rfl | hlt
      · exact absurd hmemu ht.2
      · exact hlt
    constructor
    · intro hsplit
      by_contra hnot
      rw [not_and_or, not_not] at hnot
      have hpresent := (hsame t).mp ((hkept t).mpr ⟨t, le_refl t, ht, hnot, hlast⟩)
      obtain ⟨u, hut, -, hprev, hret⟩ := (hwalk t).mp hpresent
      obtain ⟨w, hwt, hw, hw', hnone⟩ := hsplit
      have hwu : w < u := hret w hwt.le hw
      exact not_splitBefore_of_not_prevAssert hprev
        ⟨w, hwu, hw, hw', fun v hv hvu => hnone v hv (by omega)⟩
    · intro hsplit hstart
      have hpresent := (hsame t).mpr ((hwalk t).mpr
        ⟨t, le_refl t, ht, not_prevAssert_of_startsRun hstart hsplit, hlast⟩)
      obtain ⟨u, hut, hu, hor, hret⟩ := (hkept t).mp hpresent
      rcases eq_or_lt_of_le hut with rfl | hlt
      · exact hor
      · obtain ⟨v, huv, hvt, hv⟩ := hstart u hlt hu.1
        have hvu : v < u := hret v hvt.le hv
        omega
  · intro hagrees τ
    rw [hkept, hwalk]
    constructor
    · rintro ⟨t, htτ, ht, hor, hret⟩
      obtain ⟨u, hut, hu, hstart, hnone⟩ := exists_startsRun ht
      have hsplit : ¬ SplitBefore (stored ++ added) t := by
        intro hsplit
        obtain ⟨hst, hholds⟩ := (hagrees t ht).1 hsplit
        rcases hor with h | h
        · exact hst h
        · exact h hholds
      have hsplit' : ¬ SplitBefore (stored ++ added) u := by
        rintro ⟨w, hwu, hw, hw', hbetween⟩
        refine hsplit ⟨w, by omega, hw, hw', fun v hwv hvt => ?_⟩
        by_cases hvu : v < u
        · exact hbetween v hwv hvu
        · exact hnone v (by omega) hvt.le
      refine ⟨u, by omega, hu, not_prevAssert_of_startsRun hstart hsplit', fun v hv hmemv => ?_⟩
      by_contra hvu
      have hvt : v < t := hret v hv hmemv
      exact hnone v (by omega) hvt.le hmemv
    · rintro ⟨t, htτ, ht, hprev, hret⟩
      have hor := (hagrees t ht).2 (not_splitBefore_of_not_prevAssert hprev)
        (startsRun_of_not_prevAssert hprev)
      exact ⟨t, htτ, ht, hor, hret⟩

/-! ### The current operation after the walk -/

/-- The current operation is not earlier than what is stored, and stored itself if
it is a retract. -/
structure Tracks (stored : OpLog) (cur : Option (ℤ × Bool)) : Prop where
  below : ∀ op ∈ stored, ∃ now, cur = some now ∧ Below op now
  retracted : ∀ t, cur = some (t, false) → (t, false) ∈ stored

theorem tracks_empty : Tracks [] none where
  below _ h := by cases h
  retracted _ h := by cases h

section

variable (h : Tracks stored cur)

include h

/-- What is stored is not recorded over the current operation. -/
theorem Tracks.foldl_eq : stored.foldl latest cur = cur := by
  cases cur with
  | none =>
    have hnil : stored = [] := by
      rw [eq_nil_iff_forall_not_mem]
      intro op hop
      obtain ⟨now, hnow, -⟩ := h.below op hop
      cases hnow
    rw [hnil, foldl_nil]
  | some now =>
    refine foldl_latest_iff.mpr ⟨mem_cons_self, fun op hop => ?_⟩
    rcases mem_cons.mp hop with rfl | hop
    · exact Below.refl _
    · obtain ⟨now', hnow, hbelow⟩ := h.below op hop
      rwa [Option.some.inj hnow]

theorem Tracks.append (log : OpLog) :
    Tracks (stored ++ log) (log.foldl latest cur) where
  below op hop := by
    have hfold : (stored ++ log).foldl latest cur = log.foldl latest cur := by
      rw [foldl_append, h.foldl_eq]
    cases hcur : log.foldl latest cur with
    | none =>
      rw [(foldl_latest_eq_none _ _ (hfold.trans hcur)).2] at hop
      cases hop
    | some now =>
      exact ⟨now, rfl, (foldl_latest_iff.mp (hfold.trans hcur)).2 op (mem_append_right _ hop)⟩
  retracted t ht := by
    obtain ⟨hmem, -⟩ := foldl_latest_iff.mp ht
    rcases mem_append.mp hmem with hmem | hmem
    · exact mem_append_left _ (h.retracted t (Option.mem_toList.mp hmem))
    · exact mem_append_right _ hmem

/-- Recording a whole log over the current operation, if it has the retracts of what
was stored. -/
theorem Tracks.record (hret : ∀ t, (t, false) ∈ stored → (t, false) ∈ log) :
    Tracks log (log.foldl latest cur) where
  below op hop := (h.append log).below op (mem_append_right _ hop)
  retracted t ht := (mem_append.mp ((h.append log).retracted t ht)).elim (hret t) id

theorem Tracks.congr (hmem : ∀ op, op ∈ log ↔ op ∈ stored) :
    Tracks log cur where
  below op hop := h.below op ((hmem op).mp hop)
  retracted t ht := (hmem _).mpr (h.retracted t ht)

/-- With a stored log the current operation decides alone. -/
theorem Tracks.holds_iff (log : OpLog) :
    Holds (cur.toList ++ log) ↔ Holds (cur.toList ++ (stored ++ log)) := by
  rw [← holds_foldl_append stored log, h.foldl_eq]

end

/-- Over logs that hold alike and have the same retracts, a current operation that is
one of the retracts, or an assert, decides alike. -/
theorem holds_append_congr (hret : ∀ u, (u, false) ∈ log ↔ (u, false) ∈ log')
    (hholds : Holds log → Holds log') (hcur : ∀ t, cur = some (t, false) → (t, false) ∈ log')
    (h : Holds (cur.toList ++ log)) : Holds (cur.toList ++ log') := by
  obtain ⟨t, ht, hlast⟩ := h
  rcases mem_append.mp ht with ht | ht
  · refine ⟨t, mem_append_left _ ht, fun u hu => hlast u ?_⟩
    rwa [mem_append, hret, ← mem_append]
  · obtain ⟨u, hu, hlast'⟩ := hholds ⟨t, ht, fun u hu => hlast u (mem_append_right _ hu)⟩
    refine ⟨u, mem_append_right _ hu, fun v hv => hlast' v ?_⟩
    rcases mem_append.mp hv with hv | hv
    · exact hcur v (Option.mem_toList.mp hv)
    · exact hv

/-- Logs that tell the same and have the same retracts hold alike. -/
theorem holds_of_present (hsame : ∀ τ, Present log τ ↔ Present log' τ)
    (hret : ∀ u, (u, false) ∈ log' → (u, false) ∈ log) (h : Holds log) : Holds log' := by
  obtain ⟨t, ht, hlast⟩ := h
  obtain ⟨u, -, hu, hlast'⟩ := (hsame t).mp ⟨t, le_refl t, ht, fun v _ => hlast v⟩
  exact ⟨u, hu, fun v hv => hlast' v (hlast v (hret v hv)).le hv⟩

include hsorted hmem hretract hassert in
/-- Where they agree, the current operation after the walk is an assert exactly if
it is one after the batches. -/
theorem holds_walk_iff (htracks : Tracks stored cur) (hagrees : Agrees stored cur added) :
    Holds (cur.toList ++ walk false sorted) ↔ Holds (cur.toList ++ kept) := by
  have hpresent := (present_iff_agrees hsorted hmem hretract hassert).mpr hagrees
  have hret : ∀ u, (u, false) ∈ walk false sorted ↔ (u, false) ∈ stored ++ kept := by
    intro u
    rw [mem_walk_retract, hmem, mem_append, mem_append, hretract]
  have hstored : ∀ t, cur = some (t, false) → (t, false) ∈ stored ++ kept := fun t ht =>
    mem_append_left _ (htracks.retracted t ht)
  rw [htracks.holds_iff kept]
  constructor
  · exact holds_append_congr hret
      (holds_of_present (fun τ => (hpresent τ).symm) fun u => (hret u).mpr) hstored
  · exact holds_append_congr (fun u => (hret u).symm)
      (holds_of_present hpresent fun u => (hret u).mp) fun t ht => (hret t).mpr (hstored t ht)

end OpLog

end FlureeDb.Lib
