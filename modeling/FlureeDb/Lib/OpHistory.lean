import FlureeDb.Lib.OpLog

/-!
A log that drops asserts and is cut off from below, against the history of all
operations given to it. What is cut off lives on in a base: whether the fact held at
the cut. The log and the base are faithful if they tell the presence of the fact at
every time above the cuts as the whole history does. Batches, a walk that agrees with
them, and cuts keep this.
-/

namespace FlureeDb.Lib.OpLog

open List Option OpLog

/-- Presence by the latest operation up to a time, and by the base if there is none. -/
def resolve (base : Bool) (log : OpLog) (τ : ℤ) : Bool :=
  match (log.filter (·.1 ≤ τ)).foldl latest none with
  | some op => op.2
  | none => base

/-- The base counts as long as nothing is retracted. -/
theorem resolve_iff (base : Bool) (log : OpLog) (τ : ℤ) :
    resolve base log τ = true ↔
      Present log τ ∨ (base = true ∧ ∀ u ≤ τ, (u, false) ∉ log) := by
  have hpresent := presentAt_iff log τ
  unfold presentAt at hpresent
  unfold resolve
  cases hcur : (log.filter (·.1 ≤ τ)).foldl latest none with
  | none =>
    rw [hcur] at hpresent
    obtain ⟨-, hnil⟩ := foldl_latest_eq_none _ _ hcur
    have hnone : ∀ u ≤ τ, (u, false) ∉ log := by
      intro u hu hmem
      have hin : (u, false) ∈ log.filter (·.1 ≤ τ) :=
        mem_filter.mpr ⟨hmem, by simpa using hu⟩
      rw [hnil] at hin
      cases hin
    constructor
    · exact fun hbase => .inr ⟨hbase, hnone⟩
    · rintro (h | h)
      · cases hpresent.mpr h
      · exact h.1
  | some op =>
    rw [hcur] at hpresent
    obtain ⟨t, b⟩ := op
    constructor
    · exact fun hb => .inl (hpresent.mp hb)
    · rintro (h | ⟨-, hnone⟩)
      · exact hpresent.mpr h
      · cases b with
        | true => rfl
        | false =>
          obtain ⟨hmem, -⟩ := foldl_latest_iff.mp hcur
          rw [toList_none, nil_append, mem_filter] at hmem
          exact absurd hmem.1 (hnone t (by simpa using hmem.2))

variable {log later : OpLog} {τ : ℤ}

theorem resolve_congr {log' : OpLog} (h : ∀ op, op ∈ log ↔ op ∈ log') (base : Bool) (τ : ℤ) :
    resolve base log τ = resolve base log' τ := by
  rw [Bool.eq_iff_iff, resolve_iff, resolve_iff, present_congr h]
  simp only [h]

theorem filter_append_later (h : ∀ op ∈ later, τ < op.1) :
    (log ++ later).filter (·.1 ≤ τ) = log.filter (·.1 ≤ τ) := by
  have hnone : later.filter (·.1 ≤ τ) = [] := by
    rw [filter_eq_nil_iff]
    intro op hop
    simpa using h op hop
  rw [filter_append, hnone, append_nil]

theorem present_append_later (h : ∀ op ∈ later, τ < op.1) :
    Present (log ++ later) τ ↔ Present log τ := by
  rw [← presentAt_iff, ← presentAt_iff, presentAt, filter_append_later h]
  rfl

theorem resolve_append_later (h : ∀ op ∈ later, τ < op.1) (base : Bool) :
    resolve base (log ++ later) τ = resolve base log τ := by
  unfold resolve
  rw [filter_append_later h]

/-- A base, a stored log and a current operation that stand for a history, as far as it
can be asked for above the cuts. -/
structure Faithful (cuts : List ℤ) (base : Bool) (history stored : OpLog)
    (cur : Option (ℤ × Bool)) : Prop where
  tracks : Tracks stored cur
  coherent : asserted cur = true → Holds stored
  past : ∀ op ∈ cur.toList ++ stored, op ∈ history
  resolves : ∀ τ, (∀ c ∈ cuts, c ≤ τ) → (resolve base stored τ = true ↔ Present history τ)

theorem faithful_empty : Faithful [] false [] [] none where
  tracks := tracks_empty
  coherent h := by cases h
  past _ h := by cases h
  resolves τ _ := by
    constructor
    · intro h
      cases h
    · rintro ⟨t, -, h, -⟩
      cases h

section

variable {cuts : List ℤ} {base : Bool} {history stored batch : OpLog} {cur : Option (ℤ × Bool)}
  {t : ℤ} (h : Faithful cuts base history stored cur) (htime : ∀ op ∈ batch, op.1 = t)
  (hlater : ∀ op ∈ history, op.1 < t)

include h htime hlater

theorem Faithful.holds_keepBatch (hholds : Holds (cur.toList ++ keepBatch cur batch)) :
    Holds (stored ++ keepBatch cur batch) := by
  obtain ⟨u, hu, hret⟩ := hholds
  by_cases hcur : asserted cur = true
  · -- only retracts are kept, and they come after the current assert
    have hkept := keepBatch_of_asserted hcur
    have hnone : ∀ v, (v, false) ∉ batch := by
      intro v hv
      have hvu : v < u := hret v (mem_append_right _
        ((mem_keepBatch_retract cur batch v).mpr hv))
      have hut : u < t := by
        rcases mem_append.mp hu with hu | hu
        · exact hlater _ (h.past _ (mem_append_left _ hu))
        · rw [hkept] at hu
          simp at hu
      have hvt : v = t := htime _ hv
      omega
    have hnil : keepBatch cur batch = [] := by
      rw [hkept, filter_eq_nil_iff]
      rintro ⟨v, b⟩ hv
      cases b with
      | true => simp
      | false => exact absurd hv (hnone v)
    rw [hnil, append_nil]
    exact h.coherent hcur
  · have hbatch := keepBatch_of_not_asserted hcur
    rw [hbatch] at hu hret ⊢
    have hin : (u, true) ∈ batch := by
      rcases mem_append.mp hu with hu | hu
      · rw [mem_toList] at hu
        exact absurd (by rw [mem_def.mp hu]; rfl) hcur
      · exact hu
    refine ⟨u, mem_append_right _ hin, fun v hv => ?_⟩
    rcases mem_append.mp hv with hv | hv
    · have hvt := hlater _ (h.past _ (mem_append_right _ hv))
      have hut : u = t := htime _ hin
      omega
    · exact hret v (mem_append_right _ hv)

/-- From its own time on, a batch decides alone: a retract in it ends the fact, and an
assert without one starts it, or it held already. -/
theorem Faithful.resolve_keepBatch (hτ : t ≤ τ) {op : ℤ × Bool} (hop : op ∈ batch) :
    resolve base (stored ++ keepBatch cur batch) τ = true ↔ Present (history ++ batch) τ := by
  have hin : ∀ x ∈ history ++ batch, x.1 ≤ t := by
    intro x hx
    rcases mem_append.mp hx with hx | hx
    · exact (hlater x hx).le
    · exact (htime x hx).le
  have hkept : ∀ x ∈ stored ++ keepBatch cur batch, x ∈ history ++ batch := by
    intro x hx
    rcases mem_append.mp hx with hx | hx
    · exact mem_append_left _ (h.past x (mem_append_right _ hx))
    · exact mem_append_right _ (mem_of_mem_filter hx)
  rw [resolve_iff]
  by_cases hret : (t, false) ∈ batch
  · have hmem : (t, false) ∈ stored ++ keepBatch cur batch :=
      mem_append_right _ ((mem_keepBatch_retract cur batch t).mpr hret)
    constructor
    · rintro (⟨u, -, hu, hlast⟩ | ⟨-, hnone⟩)
      · have hut := hin _ (hkept _ hu)
        have htu := hlast t hτ hmem
        omega
      · exact absurd hmem (hnone t hτ)
    · rintro ⟨u, -, hu, hlast⟩
      have hut := hin _ hu
      have htu := hlast t hτ (mem_append_right _ hret)
      omega
  · have hassert : (t, true) ∈ batch := by
      obtain ⟨u, b⟩ := op
      obtain rfl : u = t := htime _ hop
      cases b with
      | true => exact hop
      | false => exact absurd hop hret
    have hnone : ∀ u, (u, false) ∈ history ++ batch → u < t := by
      intro u hu
      rcases mem_append.mp hu with hu | hu
      · exact hlater _ hu
      · obtain rfl : u = t := htime _ hu
        exact absurd hu hret
    refine iff_of_true (.inl ?_) ⟨t, hτ, mem_append_right _ hassert, fun u _ => hnone u⟩
    by_cases hcur : asserted cur = true
    · obtain ⟨u, hu, hlast⟩ := h.coherent hcur
      refine ⟨u, ?_, mem_append_left _ hu, fun v hv hmem => ?_⟩
      · have := hin _ (hkept _ (mem_append_left _ hu))
        omega
      · rcases mem_append.mp hmem with hmem | hmem
        · exact hlast v hmem
        · rw [mem_keepBatch_retract] at hmem
          obtain rfl : v = t := htime _ hmem
          exact absurd hmem hret
    · refine ⟨t, hτ, mem_append_right _ ?_, fun u _ hu => hnone u (hkept _ hu)⟩
      rw [keepBatch_of_not_asserted hcur]
      exact hassert

theorem Faithful.keepBatch :
    Faithful cuts base (history ++ batch) (stored ++ keepBatch cur batch)
      ((keepBatch cur batch).foldl latest cur) where
  tracks := h.tracks.append _
  coherent hasserted :=
    h.holds_keepBatch htime hlater ((asserted_foldl_iff _ _).mp hasserted)
  past op hop := by
    have hkept : ∀ x ∈ OpLog.keepBatch cur batch, x ∈ history ++ batch :=
      fun x hx => mem_append_right _ (mem_of_mem_filter hx)
    have hpast : ∀ x ∈ cur.toList ++ stored, x ∈ history ++ batch :=
      fun x hx => mem_append_left _ (h.past x hx)
    rcases mem_append.mp hop with hop | hop
    · obtain ⟨hmem, -⟩ := foldl_latest_iff.mp (mem_def.mp (mem_toList.mp hop))
      rcases mem_append.mp hmem with hmem | hmem
      · exact hpast op (mem_append_left _ hmem)
      · exact hkept op hmem
    · rcases mem_append.mp hop with hop | hop
      · exact hpast op (mem_append_right _ hop)
      · exact hkept op hop
  resolves τ hτ := by
    by_cases hlt : τ < t
    · rw [resolve_append_later fun op hop => ?_, present_append_later fun op hop => ?_,
        h.resolves τ hτ]
      · rw [htime op hop]
        exact hlt
      · rw [htime op (mem_of_mem_filter hop)]
        exact hlt
    · cases batch with
      | nil =>
        have hnil : keepBatch cur [] = [] := rfl
        rw [hnil, append_nil, append_nil, h.resolves τ hτ]
      | cons op =>
        exact h.resolve_keepBatch htime hlater (not_lt.mp hlt) mem_cons_self

end

variable {history stored : OpLog}
  {cuts : List ℤ} {base : Bool} {cur : Option (ℤ × Bool)} {batches : List OpLog}

theorem Faithful.applyBatches (h : Faithful cuts base history stored cur) (htimed : Timed batches)
    (hlater : ∀ op ∈ history, ∀ op' ∈ batches.flatten, op.1 < op'.1) :
    Faithful cuts base (history ++ batches.flatten)
      (stored ++ (applyBatches cur batches).1) (applyBatches cur batches).2 := by
  induction batches generalizing history stored cur with
  | nil =>
    rw [flatten_nil, append_nil]
    change Faithful cuts base history (stored ++ []) cur
    rw [append_nil]
    exact h
  | cons batch batches ih =>
    obtain ⟨⟨t, htime, hafter⟩, htimed⟩ := htimed
    have hnext : Faithful cuts base (history ++ batch) (stored ++ OpLog.keepBatch cur batch)
        ((OpLog.keepBatch cur batch).foldl latest cur) := by
      cases batch with
      | nil =>
        have hnil : OpLog.keepBatch cur [] = [] := rfl
        rw [hnil, append_nil, append_nil]
        exact h
      | cons op =>
        refine h.keepBatch htime fun x hx => ?_
        rw [← htime op mem_cons_self]
        exact hlater x hx op (by simp)
    have hrest := ih hnext htimed fun x hx op hop => by
      rcases mem_append.mp hx with hx | hx
      · exact hlater x hx op (by exact mem_append_right _ hop)
      · rw [htime x hx]
        exact hafter op hop
    rw [append_assoc, append_assoc] at hrest
    exact hrest

/-- A walk that agrees with the batches keeps a log faithful. -/
theorem Faithful.walk {sorted : OpLog} (h : Faithful cuts base history stored cur)
    (htimed : Timed batches) (hlater : ∀ op ∈ history, ∀ op' ∈ batches.flatten, op.1 < op'.1)
    (hsorted : sorted.Pairwise Before) (hmem : ∀ op, op ∈ sorted ↔ op ∈ stored ++ batches.flatten)
    (hagrees : Agrees stored cur batches.flatten) :
    Faithful cuts base (history ++ batches.flatten) (walk false sorted)
      ((walk false sorted).foldl latest cur) := by
  have hbatches := h.applyBatches htimed hlater
  have hretract := applyBatches_retract cur batches
  have hassert := applyBatches_assert cur batches htimed
  have hpresent := (present_iff_agrees hsorted hmem hretract hassert).mpr hagrees
  have hret : ∀ u, (u, false) ∈ OpLog.walk false sorted ↔
      (u, false) ∈ stored ++ (OpLog.applyBatches cur batches).1 := by
    intro u
    rw [mem_walk_retract, hmem, mem_append, mem_append, hretract]
  constructor
  · refine h.tracks.record fun t ht => ?_
    rw [hret]
    exact mem_append_left _ ht
  · intro hasserted
    rw [asserted_foldl_iff, holds_walk_iff hsorted hmem hretract hassert h.tracks hagrees,
      ← asserted_foldl_iff, ← applyBatches_snd] at hasserted
    exact holds_of_present hpresent (fun u => (hret u).mp) (hbatches.coherent hasserted)
  · have hwalk : ∀ op ∈ OpLog.walk false sorted, op ∈ history ++ batches.flatten := by
      intro op hop
      rcases mem_append.mp ((hmem op).mp ((walk_sublist _ _).mem hop)) with hop | hop
      · exact mem_append_left _ (h.past op (mem_append_right _ hop))
      · exact mem_append_right _ hop
    intro op hop
    rcases mem_append.mp hop with hop | hop
    · obtain ⟨hin, -⟩ := foldl_latest_iff.mp (mem_def.mp (mem_toList.mp hop))
      rcases mem_append.mp hin with hin | hin
      · exact mem_append_left _ (h.past op (mem_append_left _ hin))
      · exact hwalk op hin
    · exact hwalk op hop
  · intro τ hτ
    rw [← hbatches.resolves τ hτ, resolve_iff, resolve_iff, hpresent]
    simp only [hret]

/-- An earlier operation is forgotten. -/
theorem foldl_latest_of_later {init : Option (ℤ × Bool)} {cur : ℤ × Bool}
    (hcur : log.foldl latest none = some cur) (h : ∀ op ∈ init.toList, op.1 < cur.1) :
    log.foldl latest init = some cur := by
  obtain ⟨hmem, hbelow⟩ := foldl_latest_iff.mp hcur
  refine foldl_latest_iff.mpr ⟨mem_append_right _ hmem, fun op hop => ?_⟩
  rcases mem_append.mp hop with hop | hop
  · exact .inl (h op hop)
  · exact hbelow op hop

/-- What is resolved above a cut does not see it. -/
theorem resolve_cut (base : Bool) (log : OpLog) {c : ℤ} (h : c ≤ τ) :
    resolve (resolve base log c) (log.filter (c < ·.1)) τ = resolve base log τ := by
  have hsplit : (log.filter (·.1 ≤ τ)).foldl latest none =
      ((log.filter (c < ·.1)).filter (·.1 ≤ τ)).foldl latest
        ((log.filter (·.1 ≤ c)).foldl latest none) := by
    rw [← foldl_append]
    refine foldl_latest_congr (fun op => ?_) none
    by_cases hop : op ∈ log
    · simp only [mem_append, mem_filter, decide_eq_true_eq, hop, true_and]
      omega
    · simp [hop]
  unfold resolve
  rw [hsplit]
  cases hcur : ((log.filter (c < ·.1)).filter (·.1 ≤ τ)).foldl latest none with
  | none =>
    obtain ⟨-, hnil⟩ := foldl_latest_eq_none _ _ hcur
    rw [hnil]
    rfl
  | some cur =>
    have habove := (foldl_latest_iff.mp hcur).1
    rw [foldl_latest_of_later hcur]
    intro op hop
    have hbelow := (foldl_latest_iff.mp (mem_def.mp (mem_toList.mp hop))).1
    simp only [toList_none, nil_append, mem_filter, decide_eq_true_eq] at habove hbelow
    omega

/-- Operations up to a cut may be dropped for the presence at the cut. -/
theorem Faithful.cut (h : Faithful cuts base history stored cur) (c : ℤ) :
    Faithful (c :: cuts) (resolve base stored c) history (stored.filter (c < ·.1))
      ((stored.filter (c < ·.1)).foldl latest none) where
  tracks := tracks_empty.record fun t ht => by cases ht
  coherent hasserted := (asserted_foldl_iff _ _).mp hasserted
  past op hop := by
    have hin : op ∈ stored.filter (c < ·.1) := by
      rcases mem_append.mp hop with hop | hop
      · exact (foldl_latest_iff.mp (mem_def.mp (mem_toList.mp hop))).1
      · exact hop
    exact h.past op (mem_append_right _ (mem_of_mem_filter hin))
  resolves τ hτ := by
    rw [resolve_cut base stored (hτ c mem_cons_self)]
    exact h.resolves τ fun c' hc' => hτ c' (mem_cons_of_mem _ hc')

theorem Faithful.cut_nil (h : Faithful cuts base history [] cur) (c : ℤ) :
    Faithful (c :: cuts) base history [] cur where
  tracks := h.tracks
  coherent := h.coherent
  past := h.past
  resolves τ hτ := h.resolves τ fun c' hc' => hτ c' (mem_cons_of_mem _ hc')

theorem Faithful.congr {stored' : OpLog} (h : Faithful cuts base history stored cur)
    (hmem : ∀ op, op ∈ stored' ↔ op ∈ stored) : Faithful cuts base history stored' cur where
  tracks := h.tracks.congr hmem
  coherent hasserted := (holds_congr hmem).mpr (h.coherent hasserted)
  past op hop := by
    rw [mem_append, hmem, ← mem_append] at hop
    exact h.past op hop
  resolves τ hτ := by
    rw [resolve_congr hmem]
    exact h.resolves τ hτ

end FlureeDb.Lib.OpLog
