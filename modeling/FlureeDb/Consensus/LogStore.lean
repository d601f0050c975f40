import Mathlib.Data.Set.Finite.Lattice
import Mathlib.Algebra.Order.Group.Nat

/-!
The log of a Raft node on disk: one file per entry, named by its index, and a marker of
what has been purged. Directory operations of a call are made durable together at its end.
A crash before that keeps any of them, so it can leave a gap. The end of the log is found
by a scan that stops at the first gap, but the files behind the gap stay.
-/

namespace FlureeDb.Consensus.LogStore

open List Nat

variable {P : Type}

structure LogId where
  term : ℕ
  index : ℕ
  deriving DecidableEq

structure LogEntry (P : Type) where
  logId : LogId
  payload : P
  deriving DecidableEq

def LogEntry.index (e : LogEntry P) : ℕ := e.logId.index

/-- The storage root. The entry files are listed in the order of their names. -/
structure Disk (P : Type) where
  lastPurged : Option LogId
  log : List (LogEntry P)

structure LogState where
  lastPurged : Option LogId
  lastLog : Option LogId
  deriving DecidableEq

def writeAndRename (log : List (LogEntry P)) (e : LogEntry P) : List (LogEntry P) :=
  log.filter (·.index < e.index) ++ e :: log.filter (e.index < ·.index)

namespace Disk

def listEntryIndices (disk : Disk P) : List ℕ := disk.log.map LogEntry.index

def readEntry (disk : Disk P) (index : ℕ) : Option (LogEntry P) :=
  disk.log.find? (·.index = index)

/-- The renames of an append that are `done`: all of them, unless there is a crash. -/
def append (done : ℕ → Bool) (disk : Disk P) (entries : List (LogEntry P)) : Disk P :=
  { disk with log := (entries.filter fun e => done e.index).foldl writeAndRename disk.log }

def readRange (disk : Disk P) (lo hi : ℕ) : List (LogEntry P) :=
  (disk.listEntryIndices.filter fun i => lo ≤ i ∧ i < hi).filterMap disk.readEntry

def truncateFrom (done : ℕ → Bool) (disk : Disk P) (fromIndex : ℕ) : Disk P :=
  { disk with log := disk.log.filter fun e => ¬ (fromIndex ≤ e.index ∧ done e.index) }

/-- The marker is made durable before the first file is removed. -/
def purgeThrough (marked : Bool) (done : ℕ → Bool) (disk : Disk P) (logId : LogId) : Disk P :=
  if disk.lastPurged.any (logId.index ≤ ·.index) ∨ marked = false then disk
  else ⟨some logId, disk.log.filter fun e => ¬ (e.index ≤ logId.index ∧ done e.index)⟩

end Disk

def firstExpected (purged : Option LogId) : ℕ := purged.elim 1 (·.index + 1)

/-- The run of indices that the scan for the end of the log accepts. -/
def scan : ℕ → List ℕ → List ℕ
  | _, [] => []
  | expected, idx :: rest => if idx = expected then idx :: scan (expected + 1) rest else []

def Disk.logState (disk : Disk P) : LogState :=
  let indices := disk.listEntryIndices.filter fun idx => disk.lastPurged.all (·.index < idx)
  let lastIndex := (scan (firstExpected disk.lastPurged) indices).getLast?
  ⟨disk.lastPurged, (lastIndex.bind disk.readEntry).map LogEntry.logId⟩

inductive Call (P : Type)
  | append (entries : List (LogEntry P))
  | truncateFrom (fromIndex : ℕ)
  | purgeThrough (logId : LogId)

/-- A call returns, or a crash keeps those of its directory operations that are `done`. -/
inductive Fate
  | completed
  | crashed (marked : Bool) (done : ℕ → Bool)

def Fate.marked : Fate → Bool
  | completed => true
  | crashed marked _ => marked

def Fate.done : Fate → ℕ → Bool
  | completed => fun _ => true
  | crashed _ done => done

def Disk.after (disk : Disk P) (fate : Fate) : Call P → Disk P
  | .append entries => disk.append fate.done entries
  | .truncateFrom fromIndex => disk.truncateFrom fate.done fromIndex
  | .purgeThrough logId => disk.purgeThrough fate.marked fate.done logId

/-! ### The log of a node -/

def Sorted (log : List (LogEntry P)) : Prop := log.Pairwise fun a b => a.index < b.index

/-- No index is left out, and terms do not decrease. Before the first purge the log may
begin with index 0 or 1. -/
structure Contiguous (purged : Option LogId) (entries : List (LogEntry P)) : Prop where
  sorted : Sorted entries
  terms : entries.Pairwise fun a b => a.logId.term ≤ b.logId.term
  above : ∀ e ∈ entries, ∀ id ∈ purged, id.index < e.index
  filled : ∀ e ∈ entries, ∀ n, firstExpected purged ≤ n → n < e.index → ∃ x ∈ entries, x.index = n

@[ext] structure Log (P : Type) where
  purged : Option LogId
  entries : List (LogEntry P)
  contiguous : Contiguous purged entries

namespace Log

def fresh : Log P := ⟨none, [], .nil, .nil, by simp, by simp⟩

variable (log : Log P)

/-- The calls a node makes: an append continues the log. -/
def Takes : Call P → Prop
  | .append entries => Contiguous log.purged (log.entries ++ entries)
  | _ => True

def truncated (fromIndex : ℕ) : List (LogEntry P) :=
  log.entries.filter (·.index < fromIndex)

/-- The log that a purge which returns leaves behind. -/
def Purged (logId : LogId) (after : Log P) : Prop :=
  if log.purged.any (logId.index ≤ ·.index) then after = log
  else after.purged = some logId ∧ after.entries = log.entries.filter (logId.index < ·.index)

/-- What a call may leave behind. A crash keeps a first part of what is appended, or of what
is cut off, and a purge does all or nothing. -/
def Leaves (log after : Log P) : Call P → Fate → Prop
  | .append entries, .completed => after.purged = log.purged ∧ after.entries = log.entries ++ entries
  | .append entries, .crashed .. => after.purged = log.purged ∧
      log.entries <+: after.entries ∧ after.entries <+: log.entries ++ entries
  | .truncateFrom i, .completed => after.purged = log.purged ∧ after.entries = log.truncated i
  | .truncateFrom i, .crashed .. => after.purged = log.purged ∧
      log.truncated i <+: after.entries ∧ after.entries <+: log.entries
  | .purgeThrough logId, .completed => log.Purged logId after
  | .purgeThrough logId, .crashed .. => after = log ∨ log.Purged logId after

/-- What is left of the call has no gap, and the log does not begin with index 0. -/
def NoGap (fate : Fate) : Call P → Prop
  | .append entries => ∀ e ∈ entries, fate.done e.index = true →
      e.index ≠ 0 ∧ ∀ x ∈ entries, x.index < e.index → fate.done x.index = true
  | .truncateFrom i => ∀ e ∈ log.entries, i ≤ e.index → fate.done e.index = true →
      ∀ x ∈ log.entries, e.index < x.index → fate.done x.index = true
  | .purgeThrough logId => fate.marked = true →
      ∀ e ∈ log.entries, e.index ≤ logId.index → fate.done e.index = true

end Log

/-- What a reader of the store sees is the log. -/
structure Shows (disk : Disk P) (log : Log P) : Prop where
  state : disk.logState = ⟨log.purged, log.entries.getLast?.map LogEntry.logId⟩
  range : ∀ lo hi, disk.readRange lo hi = log.entries.filter fun e => lo ≤ e.index ∧ e.index < hi

/-- Whenever the node makes its next call, the store shows a log that the call may leave. -/
def Survives (disk : Disk P) (log : Log P) : List (Call P × Fate) → Prop
  | [] => True
  | (call, fate) :: rest => log.Takes call → ∃ after, log.Leaves after call fate ∧
      Shows (disk.after fate call) after ∧ Survives (disk.after fate call) after rest

def Gapless (disk : Disk P) (log : Log P) : List (Call P × Fate) → Prop
  | [] => True
  | (call, fate) :: rest => log.Takes call → log.NoGap fate call ∧
      ∀ after, Shows (disk.after fate call) after → Gapless (disk.after fate call) after rest

/-! ### Parts of a log -/

variable {e : LogEntry P}

section

variable {l k : List (LogEntry P)} {purged : Option LogId}

theorem filter_isPrefix {p : LogEntry P → Bool} (hsorted : Sorted l)
    (hclosed : ∀ e ∈ l, p e = true → ∀ x ∈ l, x.index < e.index → p x = true) :
    l.filter p <+: l := by
  induction l with
  | nil => exact prefix_rfl
  | cons a l ih =>
    obtain ⟨hbelow, hsorted⟩ := pairwise_cons.mp hsorted
    by_cases ha : p a = true
    · rw [filter_cons_of_pos ha, prefix_cons_inj]
      exact ih hsorted fun e he hp x hx => hclosed e (.tail _ he) hp x (.tail _ hx)
    · have hnone : l.filter p = [] := filter_eq_nil_iff.mpr fun e he hp =>
        ha (hclosed e (.tail _ he) hp a (.head _) (hbelow e he))
      rw [filter_cons_of_neg ha, hnone]
      exact nil_prefix

theorem mem_of_isPrefix (hsorted : Sorted l) (hk : k <+: l) {x : LogEntry P} (hx : x ∈ k)
    (he : e ∈ l) (hlt : e.index < x.index) : e ∈ k := by
  obtain ⟨rest, rfl⟩ := hk
  refine (mem_append.mp he).resolve_right fun hrest => ?_
  exact absurd ((pairwise_append.mp hsorted).2.2 x hx e hrest) (by omega)

theorem Contiguous.part {after : Option LogId} (h : Contiguous purged l) (hk : k <+ l)
    (hfirst : firstExpected purged ≤ firstExpected after)
    (habove : ∀ e ∈ k, ∀ id ∈ after, id.index < e.index)
    (hclosed : ∀ e ∈ k, ∀ x ∈ l, firstExpected after ≤ x.index → x.index < e.index → x ∈ k) :
    Contiguous after k where
  sorted := h.sorted.sublist hk
  terms := h.terms.sublist hk
  above := habove
  filled e he n hn hlt := by
    obtain ⟨x, hx, rfl⟩ := h.filled e (hk.subset he) n (hfirst.trans hn) hlt
    exact ⟨x, hclosed e he x hx hn hlt, rfl⟩

theorem foldl_writeAndRename (h : Sorted (l ++ k)) : k.foldl writeAndRename l = l ++ k := by
  induction k generalizing l with
  | nil => simp
  | cons e k ih =>
    have hlast : writeAndRename l e = l ++ [e] := by
      have hbelow : ∀ a ∈ l, a.index < e.index := fun a ha =>
        (pairwise_append.mp h).2.2 a ha e (.head _)
      rw [writeAndRename, filter_eq_self.mpr (by simpa using hbelow)]
      simpa using fun a ha => (hbelow a ha).le
    rw [foldl_cons, hlast, ih (by simpa using h), append_assoc, singleton_append]

end

section

/-- The store in which exactly the files of the log are left. -/
def Log.stored (log : Log P) : Disk P := ⟨log.purged, log.entries⟩

theorem Log.stored_injective : Function.Injective (Log.stored (P := P)) := fun _ _ h =>
  Log.ext (congrArg Disk.lastPurged h) (congrArg Disk.log h)

variable {disk : Disk P} {log : Log P}

theorem find?_index {l : List (LogEntry P)} (hsorted : Sorted l) (he : e ∈ l) :
    l.find? (·.index = e.index) = some e := by
  induction l with
  | nil => cases he
  | cons a l ih =>
    obtain ⟨hbelow, hsorted⟩ := pairwise_cons.mp hsorted
    rcases mem_cons.mp he with rfl | he
    · simp
    · rw [find?_cons_of_neg (by simpa using (hbelow e he).ne), ih hsorted he]

theorem readRange_eq (hsorted : Sorted disk.log) (lo hi : ℕ) :
    disk.readRange lo hi = disk.log.filter fun e => lo ≤ e.index ∧ e.index < hi := by
  rw [Disk.readRange, Disk.listEntryIndices, filter_map, filterMap_map]
  have hread : ∀ e ∈ disk.log.filter fun e => decide (lo ≤ e.index ∧ e.index < hi),
      disk.readEntry e.index = some e := fun e he => find?_index hsorted (mem_filter.mp he).1
  exact (filterMap_congr hread).trans filterMap_some

theorem scan_eq_self {expected : ℕ} {l : List ℕ} (hsorted : l.Pairwise (· < ·))
    (hlow : ∀ i ∈ l, expected ≤ i)
    (hfilled : ∀ i ∈ l, ∀ n, expected ≤ n → n < i → n ∈ l) : scan expected l = l := by
  induction l generalizing expected with
  | nil => rfl
  | cons i l ih =>
    obtain ⟨hbelow, hsorted⟩ := pairwise_cons.mp hsorted
    have hi : i = expected := by
      by_contra hne
      have hlt : expected < i := lt_of_le_of_ne (hlow i (.head _)) (symm hne)
      rcases mem_cons.mp (hfilled i (.head _) expected le_rfl hlt) with heq | hmem
      · exact hne heq.symm
      · exact absurd (hbelow _ hmem) (by omega)
    subst hi
    rw [scan, if_pos rfl, ih hsorted (fun j hj => hbelow j hj)]
    intro j hj n hn hlt
    refine (mem_cons.mp (hfilled j (.tail _ hj) n (by omega) hlt)).resolve_left (by omega)

theorem Log.logState_stored (log : Log P) (hzero : ∀ e ∈ log.entries, e.index ≠ 0) :
    log.stored.logState = ⟨log.purged, log.entries.getLast?.map LogEntry.logId⟩ := by
  obtain ⟨hsorted, -, habove, hfilled⟩ := log.contiguous
  have hlow : ∀ i ∈ log.entries.map LogEntry.index, firstExpected log.purged ≤ i := by
    simp only [forall_mem_map]
    intro e he
    cases hp : log.purged with
    | none => exact pos_of_ne_zero (hzero e he)
    | some id => exact habove e he id hp
  have hkept : ((log.entries.map LogEntry.index).filter fun idx =>
      log.purged.all (·.index < idx)) = log.entries.map LogEntry.index := by
    refine filter_eq_self.mpr (forall_mem_map.mpr fun e he => ?_)
    simpa [Option.all_eq_true] using habove e he
  have hscan := scan_eq_self (pairwise_map.mpr hsorted) hlow
    (forall_mem_map.mpr fun e he n hn hlt => mem_map.mpr (hfilled e he n hn hlt))
  simp only [Disk.logState, Disk.listEntryIndices, stored, hkept, hscan, getLast?_map]
  congr 1
  cases hlast : log.entries.getLast? with
  | none => rfl
  | some => simp [Disk.readEntry, find?_index hsorted (mem_of_getLast? hlast)]

theorem Log.lastLog_stored (log : Log P) (he : e ∈ log.entries) (h : e.index = 0) :
    log.stored.logState.lastLog = none := by
  obtain ⟨hsorted, -, habove, -⟩ := log.contiguous
  have hpurged : log.purged = none := Option.eq_none_iff_forall_not_mem.mpr fun id hid =>
    absurd (habove e he id hid) (by omega)
  cases hentries : log.entries with
  | nil => rw [hentries] at he; cases he
  | cons a =>
    have ha : a.index = 0 := by
      rw [hentries] at he hsorted
      rcases mem_cons.mp he with rfl | he
      · exact h
      · exact absurd ((pairwise_cons.mp hsorted).1 e he) (by omega)
    simp [Disk.logState, Disk.listEntryIndices, stored, hpurged, hentries, firstExpected, scan, ha]

theorem shows_iff (hsorted : Sorted disk.log) :
    Shows disk log ↔ disk = log.stored ∧ ∀ e ∈ log.entries, e.index ≠ 0 := by
  constructor
  · intro h
    have hpurged : disk.lastPurged = log.purged := congrArg LogState.lastPurged h.state
    have hlog : disk.log = log.entries := by
      obtain ⟨hi, hmax⟩ := ((disk.log ++ log.entries).map LogEntry.index).toFinset.bddAbove
      have hbound : ∀ e ∈ disk.log ++ log.entries, decide (0 ≤ e.index ∧ e.index < hi + 1) = true := by
        intro e he
        have := hmax (mem_toFinset.mpr (mem_map_of_mem he))
        simpa using lt_succ_of_le this
      have hall := h.range 0 (hi + 1)
      rw [readRange_eq hsorted, filter_eq_self.mpr fun e he => hbound e (mem_append_left _ he),
        filter_eq_self.mpr fun e he => hbound e (mem_append_right _ he)] at hall
      exact hall
    have hdisk : disk = log.stored := by rw [Log.stored, ← hpurged, ← hlog]
    refine ⟨hdisk, fun e he hzero => ?_⟩
    have hlast := congrArg LogState.lastLog h.state
    rw [hdisk, log.lastLog_stored he hzero] at hlast
    have hnil : log.entries = [] := by simpa using hlast.symm
    rw [hnil] at he
    cases he
  · rintro ⟨rfl, hzero⟩
    exact ⟨log.logState_stored hzero, readRange_eq log.contiguous.sorted⟩

end

/-! ### One call -/

/-- After the call the files are those of a log that it may leave. -/
def Log.Keeps (log : Log P) (fate : Fate) (call : Call P) : Prop :=
  ∃ after, log.Leaves after call fate ∧ log.stored.after fate call = after.stored ∧
    ∀ e ∈ after.entries, e.index ≠ 0

section

variable (log : Log P) (fate : Fate) {entries : List (LogEntry P)} {call : Call P}

theorem after_append (h : log.Takes (.append entries)) :
    log.stored.after fate (.append entries) =
      ⟨log.purged, log.entries ++ entries.filter fun e => fate.done e.index⟩ := by
  have hpart : log.entries ++ entries.filter (fun e => fate.done e.index) <+ log.entries ++ entries :=
    (Sublist.refl _).append filter_sublist
  simp only [Disk.after, Disk.append, Log.stored, foldl_writeAndRename (h.sorted.sublist hpart)]

theorem after_sorted (h : log.Takes call) : Sorted (log.stored.after fate call).log := by
  cases call with
  | append =>
    rw [after_append log fate h]
    exact h.sorted.sublist ((Sublist.refl _).append filter_sublist)
  | truncateFrom => exact log.contiguous.sorted.filter _
  | purgeThrough =>
    simp only [Disk.after, Disk.purgeThrough]
    split
    · exact log.contiguous.sorted
    · exact log.contiguous.sorted.filter _

variable (hzero : ∀ e ∈ log.entries, e.index ≠ 0)

include hzero

theorem append_keeps_iff (h : log.Takes (.append entries)) :
    log.Keeps fate (.append entries) ↔ log.NoGap fate (.append entries) := by
  rw [Log.Keeps, after_append log fate h]
  have hsorted := (pairwise_append.mp h.sorted).2.1
  constructor
  · rintro ⟨after, hleaves, hstored, hnone⟩ e he hdone
    have hentries : after.entries = _ := (congrArg Disk.log hstored).symm
    have hkept : e ∈ entries.filter fun e => fate.done e.index := mem_filter.mpr ⟨he, hdone⟩
    refine ⟨hnone e (hentries ▸ mem_append_right _ hkept), fun x hx hlt => ?_⟩
    cases fate with
    | completed => rfl
    | crashed =>
      obtain ⟨-, -, hfront⟩ := hleaves
      rw [hentries, prefix_append_right_inj] at hfront
      exact (mem_filter.mp (mem_of_isPrefix hsorted hfront hkept hx hlt)).2
  · intro hgap
    have hfront := filter_isPrefix hsorted fun e he hdone => (hgap e he hdone).2
    have hwhole := (prefix_append_right_inj log.entries).mpr hfront
    refine ⟨⟨log.purged, _, h.part hwhole.sublist le_rfl ?_ ?_⟩, ?_, rfl, ?_⟩
    · exact fun e he => h.above e (hwhole.subset he)
    · exact fun e he x hx _ hlt => mem_of_isPrefix h.sorted hwhole he hx hlt
    · cases fate with
      | completed => exact ⟨rfl, by simp [Fate.done]⟩
      | crashed => exact ⟨rfl, prefix_append .., hwhole⟩
    · intro e he
      rcases mem_append.mp he with he | he
      · exact hzero e he
      · obtain ⟨he, hdone⟩ := mem_filter.mp he
        exact (hgap e he hdone).1

theorem truncateFrom_keeps_iff (i : ℕ) :
    log.Keeps fate (.truncateFrom i) ↔ log.NoGap fate (.truncateFrom i) := by
  have hsorted := log.contiguous.sorted
  constructor
  · rintro ⟨after, hleaves, hstored, -⟩ e he hi hdone x hx hlt
    have hentries : after.entries = _ := (congrArg Disk.log hstored).symm
    cases fate with
    | completed => rfl
    | crashed marked =>
      by_contra hstays
      have hkept : x ∈ after.entries := by
        rw [hentries]
        exact mem_filter.mpr ⟨hx, by simp_all [Fate.done]⟩
      have hcut := mem_of_isPrefix hsorted hleaves.2.2 hkept he hlt
      rw [hentries] at hcut
      simpa [hi, hdone] using (mem_filter.mp hcut).2
  · intro hgap
    have hfront := filter_isPrefix (p := fun e => ¬ (i ≤ e.index ∧ fate.done e.index)) hsorted <| by
      simp only [decide_eq_true_eq]
      exact fun e he hstays x hx hlt hcut =>
        hstays ⟨hcut.1.trans hlt.le, hgap x hx hcut.1 hcut.2 e he hlt⟩
    have hcontiguous := log.contiguous.part hfront.sublist le_rfl
      (fun e he => log.contiguous.above e (hfront.subset he))
      (fun e he x hx _ hlt => mem_of_isPrefix hsorted hfront he hx hlt)
    refine ⟨⟨log.purged, _, hcontiguous⟩, ?_, rfl, fun e he => hzero e (hfront.subset he)⟩
    cases fate with
    | completed => exact ⟨rfl, by simp [Fate.done, Log.truncated]⟩
    | crashed =>
      refine ⟨rfl, ?_, hfront⟩
      have hbelow := filter_isPrefix (p := (·.index < i)) hcontiguous.sorted <| by
        simp only [decide_eq_true_eq]
        exact fun e _ he x _ hlt => hlt.trans he
      rw [filter_filter] at hbelow
      convert hbelow using 1
      refine filter_congr fun e _ => ?_
      by_cases hi : e.index < i
      · simp [not_le.mpr hi]
      · simp [hi]

theorem purgeThrough_keeps_iff (id : LogId) :
    log.Keeps fate (.purgeThrough id) ↔ log.NoGap fate (.purgeThrough id) := by
  by_cases hearly : log.purged.any (id.index ≤ ·.index) = true
  · refine iff_of_true ⟨log, ?_, by simp [Disk.after, Disk.purgeThrough, Log.stored, hearly], hzero⟩ ?_
    · cases fate <;> simp [Log.Leaves, Log.Purged, hearly]
    · intro _ e he hle
      obtain ⟨last, hlast, hcovers⟩ := Option.any_eq_true _ _ |>.mp hearly
      exact absurd (log.contiguous.above e he last hlast) (by simp at hcovers; omega)
  · cases hmarked : fate.marked with
    | false =>
      refine iff_of_true ⟨log, ?_, by simp [Disk.after, Disk.purgeThrough, hmarked], hzero⟩
        (by simp [Log.NoGap, hmarked])
      cases fate with
      | completed => cases hmarked
      | crashed => exact .inl rfl
    | true =>
      have hdisk : log.stored.after fate (.purgeThrough id) =
          ⟨some id, log.entries.filter fun e => ¬ (e.index ≤ id.index ∧ fate.done e.index)⟩ := by
        simp [Disk.after, Disk.purgeThrough, Log.stored, hmarked, hearly]
      rw [Log.Keeps, hdisk]
      constructor
      · rintro ⟨after, hleaves, hstored, -⟩ _ e he hle
        obtain ⟨hmarker, hentries⟩ := Disk.mk.inj hstored
        have hpurged : log.Purged id after := by
          cases fate with
          | completed => exact hleaves
          | crashed =>
            refine hleaves.resolve_left fun hsame => hearly ?_
            simp [← hsame, ← hmarker]
        rw [Log.Purged, if_neg hearly, ← hentries] at hpurged
        by_contra hstays
        have hkept : e ∈ log.entries.filter (id.index < ·.index) := by
          rw [← hpurged.2]
          exact mem_filter.mpr ⟨he, by simp [hstays]⟩
        exact absurd (mem_filter.mp hkept).2 (by simpa using hle)
      · intro hgap
        have hrest : (log.entries.filter fun e => ¬ (e.index ≤ id.index ∧ fate.done e.index)) =
            log.entries.filter (id.index < ·.index) := by
          refine filter_congr fun e he => decide_eq_decide.mpr ?_
          rw [← not_le, not_iff_not]
          exact and_iff_left_of_imp (hgap hmarked e he)
        have hfirst : firstExpected log.purged ≤ firstExpected (some id) := by
          cases hp : log.purged with
          | none => exact Nat.le_add_left ..
          | some => simp_all [firstExpected, le_of_lt]
        have hcontiguous := log.contiguous.part filter_sublist hfirst
          (k := log.entries.filter (id.index < ·.index)) (by simp) fun e _ x hx hn _ =>
            mem_filter.mpr ⟨hx, decide_eq_true hn⟩
        rw [hrest]
        refine ⟨⟨some id, _, hcontiguous⟩, ?_, rfl, fun e he => hzero e (mem_filter.mp he).1⟩
        have hpurged : log.Purged id ⟨some id, _, hcontiguous⟩ := by simp [Log.Purged, hearly]
        cases fate with
        | completed => exact hpurged
        | crashed => exact .inr hpurged

/-- The store shows a log that the call may leave if and only if nothing is left behind a gap. -/
theorem call_survives_iff (h : log.Takes call) :
    (∃ after, log.Leaves after call fate ∧ Shows (log.stored.after fate call) after) ↔
      log.NoGap fate call := by
  simp only [shows_iff (after_sorted log fate h)]
  change log.Keeps fate call ↔ _
  cases call with
  | append => exact append_keeps_iff log fate hzero h
  | truncateFrom i => exact truncateFrom_keeps_iff log fate hzero i
  | purgeThrough id => exact purgeThrough_keeps_iff log fate hzero id

end

/-! ### Whole runs -/

theorem survives_iff_gapless (calls : List (Call P × Fate)) (log : Log P)
    (hzero : ∀ e ∈ log.entries, e.index ≠ 0) :
    Survives log.stored log calls ↔ Gapless log.stored log calls := by
  induction calls generalizing log with
  | nil => rfl
  | cons step calls ih =>
    obtain ⟨call, fate⟩ := step
    refine forall_congr' fun h => ?_
    have hshown : ∀ after, Shows (log.stored.after fate call) after →
        log.stored.after fate call = after.stored ∧ (Survives after.stored after calls ↔
          Gapless after.stored after calls) := fun after hafter =>
      ((shows_iff (after_sorted log fate h)).mp hafter).imp_right (ih after)
    rw [← call_survives_iff log fate hzero h]
    constructor
    · rintro ⟨after, hleaves, hafter, hrest⟩
      refine ⟨⟨after, hleaves, hafter⟩, fun other hother => ?_⟩
      obtain ⟨hdisk, hiff⟩ := hshown after hafter
      obtain rfl : after = other := Log.stored_injective (hdisk.symm.trans (hshown other hother).1)
      rw [hdisk] at hrest ⊢
      exact hiff.mp hrest
    · rintro ⟨⟨after, hleaves, hafter⟩, hrest⟩
      refine ⟨after, hleaves, hafter, ?_⟩
      have hnext := hrest after hafter
      obtain ⟨hdisk, hiff⟩ := hshown after hafter
      rw [hdisk] at hnext ⊢
      exact hiff.mpr hnext

/-- From an empty store, every call and every reopening shows the log it should, exactly for
the runs in which no crash leaves a gap and the log does not begin with index 0. -/
theorem log_survives_iff (calls : List (Call P × Fate)) :
    Survives Log.fresh.stored .fresh calls ↔ Gapless Log.fresh.stored .fresh calls :=
  survives_iff_gapless calls .fresh (by simp [Log.fresh])

def entry (term index : ℕ) : LogEntry Unit := ⟨⟨term, index⟩, ()⟩

/-- Three entries are appended and a crash keeps the last. -/
def torn : Disk Unit :=
  Log.fresh.stored.append (· == 3) [entry 1 1, entry 1 2, entry 1 3]

/-- The log is empty after the crash, and the append of two entries of a later term brings the
old third entry back. A log that begins with index 0 is not seen at all. -/
theorem stale_entry_returns :
    torn.logState = ⟨none, none⟩ ∧
      (torn.append (fun _ => true) [entry 2 1, entry 2 2]).logState = ⟨none, some ⟨1, 3⟩⟩ ∧
      (Log.fresh.stored.append (fun _ => true) [entry 1 0]).logState = ⟨none, none⟩ := by
  decide

end FlureeDb.Consensus.LogStore
