import FlureeDb.Consensus.Transition
import FlureeDb.Lib.Run

/-!
The registry and its queues stay well formed along every log, and a refused
command changes nothing.

A transition changes a state in a few places at a time, so the shape is shown
to survive each kind of change on its own: new heads, a listed or unlisted
branch, a replaced queue, other markers. The transitions are then compositions
of such changes.
-/

namespace FlureeDb.Consensus

open FlureeDb.Core Lib List HashMap Option NameServiceState

variable {key : RefKey} {ledgerId : String}

section

variable {s : NameServiceState} {refs : HashMap RefKey RefEntry}

section

variable (hs : WellFormed s)

include hs

theorem WellFormed.withRefs (h : ∀ key entry, refs.lookup key = some entry → s.Registered key) :
    WellFormed { s with refs := refs } :=
  { hs with refs_registered := h }

theorem WellFormed.withRef (hkey : s.Registered key) (entry : RefEntry) :
    WellFormed { s with refs := s.refs.insert key entry } := by
  apply hs.withRefs
  intro a found ha
  rw [lookup_insert_eq] at ha
  split at ha
  · subst a
    exact hkey
  · exact hs.refs_registered a found ha

theorem WellFormed.withMarkers {markers : HashMap RefKey ClearMarker}
    (h : ∀ key marker, markers.lookup key = some marker → s.queues.lookup key = none) :
    WellFormed { s with recentlyCleared := markers } :=
  { hs with marker_no_queue := h }

theorem WellFormed.withoutMarker (key : RefKey) :
    WellFormed { s with recentlyCleared := s.recentlyCleared.erase key } := by
  apply hs.withMarkers
  intro a marker ha
  rw [lookup_erase_eq] at ha
  split at ha
  · cases ha
  · exact hs.marker_no_queue a marker ha

theorem WellFormed.withRetracted {retracted : Finset RefKey}
    (h : ∀ key ∈ retracted, s.Registered key ∧ s.queues.lookup key = none) :
    WellFormed { s with retracted := retracted } :=
  { hs with
    retracted_registered := fun key hkey => (h key hkey).1
    queue_not_retracted := fun key queue hqueue hkey => by simp [(h key hkey).2] at hqueue }

variable {ledger : LedgerRecord}

theorem WellFormed.withLedger (hne : ledger.branches ≠ []) (hnodup : ledger.branches.Nodup)
    (hgrows : ∀ old, s.ledgers.lookup ledgerId = some old → old.branches ⊆ ledger.branches) :
    WellFormed { s with ledgers := s.ledgers.insert ledgerId ledger } := by
  have hregistered (key : RefKey) (hkey : s.Registered key) :
      Registered { s with ledgers := s.ledgers.insert ledgerId ledger } key := by
    obtain ⟨old, hold, hmem⟩ := hkey
    by_cases hname : key.ledgerName = ledgerId
    · subst hname
      exact ⟨ledger, Finmap.lookup_insert _, hgrows old hold hmem⟩
    · exact ⟨old, by simp [hname, hold], hmem⟩
  refine { hs with
    refs_registered := fun key entry h => hregistered key (hs.refs_registered key entry h)
    retracted_registered := fun key h => hregistered key (hs.retracted_registered key h)
    queues_registered := fun key queue h => hregistered key (hs.queues_registered key queue h)
    branches_ne_nil := ?_
    branches_nodup := ?_ }
  all_goals
    intro a found ha
    simp only [lookup_insert_eq] at ha
    split at ha
  · cases ha
    exact hne
  · exact hs.branches_ne_nil a found ha
  · cases ha
    exact hnodup
  · exact hs.branches_nodup a found ha

theorem WellFormed.withBranch (ledgerId : String) {branch : String}
    (hnew : branch ∉ ledger.branches) (hnodup : ledger.branches.Nodup)
    (hsame : ∀ old, s.ledgers.lookup ledgerId = some old → old = ledger) :
    WellFormed { s with ledgers := s.ledgers.insert ledgerId (ledger.pushBranch branch) } := by
  apply hs.withLedger
  · simp [LedgerRecord.pushBranch]
  · simp only [LedgerRecord.pushBranch, nodup_append]
    refine ⟨hnodup, nodup_singleton _, ?_⟩
    intro a ha b hb hab
    rw [mem_singleton.mp hb] at hab
    exact hnew (hab ▸ ha)
  · intro old hold
    rw [hsame old hold]
    exact subset_append_left _ _

theorem WellFormed.withoutBranch (key : RefKey) (hrefs : s.refs.lookup key = none)
    (hretracted : key ∉ s.retracted) (hqueue : s.queues.lookup key = none) :
    WellFormed { s with ledgers := removeBranch s.ledgers key.ledgerName key.branch } := by
  have hregistered (a : RefKey) (hne : a ≠ key) (ha : s.Registered a) :
      Registered
        { s with ledgers := removeBranch s.ledgers key.ledgerName key.branch } a := by
    obtain ⟨ledger, hledger, hmem⟩ := ha
    unfold Registered
    simp only [lookup_removeBranch]
    by_cases hname : a.ledgerName = key.ledgerName
    · have hbranch : a.branch ≠ key.branch := by
        intro h
        apply hne
        cases a
        simp_all
      have hkept : a.branch ∈ (ledger.retainOthers key.branch).branches := by
        simp [LedgerRecord.retainOthers, hmem, hbranch]
      refine ⟨ledger.retainOthers key.branch, ?_, hkept⟩
      have hstays : (ledger.retainOthers key.branch).branches ≠ [] := ne_nil_of_mem hkept
      rw [← hname, hledger]
      simp [hstays]
    · exact ⟨ledger, by simp [hname, hledger], hmem⟩
  have hlisted (ledgerId : String) (ledger : LedgerRecord)
      (h : (removeBranch s.ledgers key.ledgerName key.branch).lookup ledgerId = some ledger) :
      ledger.branches ≠ [] ∧ ledger.branches.Nodup := by
    rw [lookup_removeBranch] at h
    split at h
    · rw [filter_eq_some_iff, map_eq_some_iff] at h
      obtain ⟨⟨old, hold, rfl⟩, hne⟩ := h
      refine ⟨by simpa using hne, ?_⟩
      exact (hs.branches_nodup _ old hold).filter _
    · exact ⟨hs.branches_ne_nil _ _ h, hs.branches_nodup _ _ h⟩
  refine { hs with
    refs_registered := fun a entry h => hregistered a ?_ (hs.refs_registered a entry h)
    retracted_registered := fun a h => hregistered a ?_ (hs.retracted_registered a h)
    queues_registered := fun a queue h => hregistered a ?_ (hs.queues_registered a queue h)
    branches_ne_nil := fun ledgerId ledger h => (hlisted ledgerId ledger h).1
    branches_nodup := fun ledgerId ledger h => (hlisted ledgerId ledger h).2 }
  · rintro rfl
    simp [hrefs] at h
  · rintro rfl
    exact hretracted h
  · rintro rfl
    simp [hqueue] at h

end

/-- Replacing one queue moves the total by the difference of the lengths. -/
theorem globalDepth_putQueue (s : NameServiceState) (key : RefKey) (queue : List QueueEntry) :
    globalDepth { s with queues := putQueue s.queues key queue } +
        (s.queueOf key).length =
      s.globalDepth + queue.length := by
  have hnew : globalDepth { s with queues := putQueue s.queues key queue } =
      queue.length + sumBy (fun _ queue => queue.length) (s.queues.erase key) := by
    unfold globalDepth putQueue
    cases queue with
    | nil => simp
    | cons =>
      exact sumBy_insert _ _ _ _
  have hold : s.globalDepth = (s.queueOf key).length +
      sumBy (fun _ queue => queue.length) (s.queues.erase key) := by
    unfold globalDepth
    cases h : s.queues.lookup key with
    | none => simp [queueOf_eq_nil_of_lookup h, erase_of_lookup_none h]
    | some =>
      rw [queueOf_eq_of_lookup h]
      exact sumBy_of_lookup _ h
  omega

theorem WellFormed.withQueue (hs : WellFormed s) (key : RefKey) (queue : List QueueEntry)
    (hregistered : queue ≠ [] → s.Registered key) (hlive : queue ≠ [] → key ∉ s.retracted)
    (hmarker : queue ≠ [] → s.recentlyCleared.lookup key = none)
    (hbranch : queue.length ≤ s.queueConfig.perBranchCap)
    (hglobal : s.globalDepth + queue.length ≤
      s.queueConfig.globalCap + (s.queueOf key).length) :
    WellFormed { s with queues := putQueue s.queues key queue } := by
  have hstored (a : RefKey) (found : List QueueEntry)
      (h : (putQueue s.queues key queue).lookup a = some found) :
      (a = key ∧ found = queue ∧ queue ≠ []) ∨ s.queues.lookup a = some found := by
    rw [lookup_putQueue] at h
    split at h
    · split at h
      · cases h
      · cases h
        exact .inl ⟨‹_›, rfl, ‹_›⟩
    · exact .inr h
  have hdepth := globalDepth_putQueue s key queue
  refine { hs with
    queues_registered := ?_, queue_ne_nil := ?_, queue_not_retracted := ?_, queue_le_cap := ?_,
    global_le_cap := ?_, marker_no_queue := ?_ }
  · intro a found h
    rcases hstored a found h with ⟨rfl, -, hne⟩ | h
    · exact hregistered hne
    · exact hs.queues_registered a found h
  · intro a found h
    rcases hstored a found h with ⟨-, rfl, hne⟩ | h
    · exact hne
    · exact hs.queue_ne_nil a found h
  · intro a found h
    rcases hstored a found h with ⟨rfl, -, hne⟩ | h
    · exact hlive hne
    · exact hs.queue_not_retracted a found h
  · intro a found h
    rcases hstored a found h with ⟨-, rfl, -⟩ | h
    · exact hbranch
    · exact hs.queue_le_cap a found h
  · change globalDepth { s with queues := putQueue s.queues key queue } ≤
      s.queueConfig.globalCap
    omega
  · intro a marker h
    have hnone := hs.marker_no_queue a marker h
    rw [lookup_putQueue]
    split
    · subst a
      split
      · rfl
      · simp [hmarker ‹_›] at h
    · exact hnone

theorem WellFormed.withPopped (hs : WellFormed s) {entry : QueueEntry} {rest : List QueueEntry}
    (hqueue : s.queues.lookup key = some (entry :: rest)) :
    WellFormed { s with queues := putQueue s.queues key rest } := by
  have hcap := hs.queue_le_cap _ _ hqueue
  have hglobal := hs.global_le_cap
  have hold : s.queueOf key = entry :: rest := queueOf_eq_of_lookup hqueue
  apply hs.withQueue
  · exact fun _ => hs.queues_registered _ _ hqueue
  · exact fun _ => hs.queue_not_retracted _ _ hqueue
  · refine fun _ => eq_none_iff_forall_ne_some.mpr fun marker hmarker => ?_
    simp [hs.marker_no_queue _ _ hmarker] at hqueue
  · simp only [length_cons] at hcap
    omega
  · simp only [hold, length_cons]
    omega

theorem WellFormed.cleared (hs : WellFormed s) (key : RefKey) (reason : ClearReason) (millis : ℕ) :
    WellFormed
      { s with
        queues := s.queues.erase key
        recentlyCleared := stampCleared s key reason millis } := by
  have hglobal := hs.global_le_cap
  have herased : WellFormed { s with queues := putQueue s.queues key [] } := by
    apply hs.withQueue
    · exact fun h => absurd rfl h
    · exact fun h => absurd rfl h
    · exact fun h => absurd rfl h
    · exact Nat.zero_le _
    · simp only [length_nil]
      omega
  refine herased.withMarkers ?_
  intro a marker h
  change (s.queues.erase key).lookup a = none
  rw [lookup_erase_eq]
  split
  · rfl
  · rename_i hne
    unfold stampCleared at h
    split at h
    · exact hs.marker_no_queue a marker h
    · rw [lookup_insert_eq, if_neg hne] at h
      exact hs.marker_no_queue a marker h

theorem lookup_removedRefs_some {a : RefKey} {entry : RefEntry}
    (h : (removedRefs refs key).lookup a = some entry) :
    a ≠ key ∧ ∃ old, refs.lookup a = some old := by
  unfold removedRefs at h
  have herased (found : RefEntry) (h : (refs.erase key).lookup a = some found) :
      a ≠ key ∧ ∃ old, refs.lookup a = some old := by
    rw [lookup_erase_eq] at h
    split at h
    · cases h
    · exact ⟨‹_›, found, h⟩
  split at h
  · rw [lookup_modify] at h
    split at h
    · subst a
      obtain ⟨old, hold, -⟩ := map_eq_some_iff.mp h
      exact herased old hold
    · exact herased entry h
  · exact herased entry h

theorem WellFormed.removed (hs : WellFormed s) (key : RefKey) (reason : ClearReason)
    (millis : ℕ) : WellFormed (removed s key reason millis) := by
  have hcleared := hs.cleared key reason millis
  have hrefs : WellFormed
      { s with
        refs := removedRefs s.refs key
        queues := s.queues.erase key
        recentlyCleared := stampCleared s key reason millis } := by
    apply hcleared.withRefs
    intro a entry h
    obtain ⟨-, old, hold⟩ := lookup_removedRefs_some h
    exact hs.refs_registered a old hold
  have hretracted : WellFormed
      { s with
        refs := removedRefs s.refs key
        retracted := s.retracted.erase key
        queues := s.queues.erase key
        recentlyCleared := stampCleared s key reason millis } := by
    apply hrefs.withRetracted
    intro a ha
    have hmem := Finset.mem_of_mem_erase ha
    refine ⟨hs.retracted_registered a hmem, ?_⟩
    rw [lookup_erase_eq, if_neg (Finset.ne_of_mem_erase ha)]
    exact eq_none_iff_forall_ne_some.mpr fun queue hqueue =>
      hs.queue_not_retracted a queue hqueue hmem
  refine hretracted.withoutBranch key ?_ ?_ ?_
  · exact eq_none_iff_forall_ne_some.mpr fun entry h => (lookup_removedRefs_some h).1 rfl
  · simp
  · simp

end

/-! ### The shape along a log -/

variable {order : CacheOrder} {command : Command} {response : Response} {logIndex : ℕ}
  {s s' : NameServiceState}

theorem Transition.wellFormed (h : Transition order logIndex s command s' response)
    (hs : WellFormed s) : WellFormed s' := by
  cases h with
  | refused => exact hs
  | markerConsumed => exact hs.withoutMarker _
  | statusPushed | configPushed | peripheral => exact { hs with }
  | @ledgerCreated args hnew =>
    unfold ledgerFor
    cases hledger : s.ledgers.lookup args.ledgerId with
    | none => exact hs.withBranch _ (by simp) (by simp) (by simp [hledger])
    | some ledger =>
      have hbranch : args.branch ∉ ledger.branches := fun h => hnew ⟨ledger, hledger, h⟩
      refine hs.withBranch _ hbranch (hs.branches_nodup _ _ hledger) ?_
      intro old hold
      simpa [hledger] using hold.symm
  | @branchForked args ledger source hledger hnew hsource =>
    have hlisted := hs.withBranch args.ledgerId hnew (hs.branches_nodup _ _ hledger)
      (fun old hold => by simpa [hledger] using hold.symm)
    have hsourceKey := hlisted.refs_registered _ source hsource
    refine (hlisted.withRef hsourceKey _).withRef ?_ _
    exact ⟨_, Finmap.lookup_insert _, by simp [LedgerRecord.pushBranch]⟩
  | branchDropped | branchPurged => exact hs.removed _ _ _
  | headErased =>
    apply (hs.cleared _ _ _).withRefs
    intro a entry ha
    rw [lookup_erase_eq] at ha
    split at ha
    · cases ha
    · exact hs.refs_registered a entry ha
  | headRewritten hknown => exact (hs.cleared _ _ _).withRef hknown _
  | branchRetracted hknown =>
    apply (hs.cleared _ _ _).withRetracted
    intro a ha
    rcases Finset.mem_insert.mp ha with rfl | ha
    · exact ⟨hknown, by simp⟩
    · refine ⟨hs.retracted_registered a ha, eq_none_iff_forall_ne_some.mpr fun queue hqueue => ?_⟩
      rw [lookup_erase_eq] at hqueue
      split at hqueue
      · cases hqueue
      · exact hs.queue_not_retracted a queue hqueue ha
  | indexPublished hcommand hlive hentry | indexSwapped hkind hlive hentry =>
    exact hs.withRef (hs.refs_registered _ _ hentry) _
  | commitSwapped hkind hknown => exact hs.withRef hknown _
  | @enqueued args hknown hlive =>
    have hmarkers := hs.withoutMarker ⟨args.ledgerId, args.branch⟩
    have hqueued := hmarkers.withQueue ⟨args.ledgerId, args.branch⟩
      (s.queueOf ⟨args.ledgerId, args.branch⟩ ++ [queuedEntry s logIndex args])
      (fun _ => hknown) (fun _ => hlive) (fun _ => by simp)
      (by simp only [length_append, length_singleton]; omega)
      (by
        change s.globalDepth + _ ≤ _ + (s.queueOf ⟨args.ledgerId, args.branch⟩).length
        simp only [length_append, length_singleton]
        omega)
    rw [putQueue, if_neg (by simp)] at hqueued
    exact { hqueued with }
  | headApplied hlive hqueue =>
    exact { (hs.withPopped hqueue).withRef (hs.queues_registered _ _ hqueue) _ with }
  | poisoned hqueue => exact { hs.withPopped hqueue with }
  | evicted =>
    refine { hs with marker_no_queue := fun a marker ha => ?_ }
    rw [lookup_retain, filter_eq_some_iff] at ha
    exact hs.marker_no_queue a marker ha.1

/-- A committed entry as a node applies it: its log index, its command, and the
order in which that node's cache happens to iterate. -/
structure LogEntry where
  index : ℕ
  command : Command
  order : CacheOrder

def applyEntry (s : NameServiceState) (entry : LogEntry) : NameServiceState × Response :=
  apply entry.order s entry.command entry.index

abbrev AppliedStep := Step NameServiceState LogEntry Response

variable (log : List LogEntry)

def replay : NameServiceState :=
  Run.final applyEntry new log

def replaySteps : List AppliedStep :=
  Run.trace applyEntry new log

theorem replay_concat (entry : LogEntry) :
    replay (log ++ [entry]) = (applyEntry (replay log) entry).1 := by
  rw [replay, Run.final_append]
  rfl

theorem replaySteps_concat (entry : LogEntry) :
    replaySteps (log ++ [entry]) =
      replaySteps log ++ [Run.stepOf applyEntry (replay log) entry] := by
  rw [replaySteps, Run.trace_append]
  rfl

theorem applyEntry_transition (hs : WellFormed s) (entry : LogEntry) :
    Transition entry.order entry.index s entry.command (applyEntry s entry).1
      (applyEntry s entry).2 :=
  apply_transition entry.order entry.index hs entry.command

theorem applyEntry_wellFormed (hs : WellFormed s) (entry : LogEntry) :
    WellFormed (applyEntry s entry).1 :=
  (applyEntry_transition hs entry).wellFormed hs

theorem replay_wellFormed : WellFormed (replay log) := by
  induction log using reverseRecOn with
  | nil => exact wellFormed_new
  | append_singleton log entry ih =>
    rw [replay_concat]
    exact applyEntry_wellFormed ih entry

/-! ### Removals -/

/-- The branch a successful drop or purge removed. -/
def removedBranch : Command → Response → Option RefKey
  | .dropBranch ledgerId branch _, .branchDropped _ _ _ => some ⟨ledgerId, branch⟩
  | .purgeBranch ledgerId branch _, .purged _ _ => some ⟨ledgerId, branch⟩
  | _, _ => none

theorem Transition.of_removedBranch (h : Transition order logIndex s command s' response)
    (hremoved : removedBranch command response = some key) :
    s.childrenOf key = none ∧ ∃ reason millis, s' = removed s key reason millis := by
  unfold removedBranch at hremoved
  split at hremoved
  · cases hremoved
    cases h with
    | refused h | peripheral hcommand h => cases h
    | branchDropped hknown hchildren => exact ⟨hchildren, _, _, rfl⟩
  · cases hremoved
    cases h with
    | refused h | peripheral hcommand h => cases h
    | branchPurged hknown hchildren => exact ⟨hchildren, _, _, rfl⟩
  · cases hremoved

theorem Transition.unchanged_of_isRefusal (h : Transition order logIndex s command s' response)
    (hresponse : response.isRefusal = true) : s' = s := by
  cases h with
  | refused => rfl
  | peripheral hcommand h =>
    cases response <;> simp [Response.isRefusal, Response.isPeripheral] at hresponse h
  | _ => cases hresponse

/-- **Refusals are atomic.** After any log, a command that is refused or finds
nothing to do leaves the state as it was, and one that finds its queue cleared
removes that branch's marker and nothing else. -/
theorem refusal_leaves_state (log : List LogEntry) (entry : LogEntry) :
    ((applyEntry (replay log) entry).2.isRefusal = true →
      (applyEntry (replay log) entry).1 = replay log) ∧
    ∀ ledgerId requested reason,
      (applyEntry (replay log) entry).2 =
          .queueDesync ledgerId requested (.queueCleared reason) →
        ∃ key, entry.command.refKey = some key ∧ key.ledgerId = ledgerId ∧
          (applyEntry (replay log) entry).1 =
            { replay log with
              recentlyCleared := (replay log).recentlyCleared.erase key } := by
  have h := applyEntry_transition (replay_wellFormed log) entry
  refine ⟨h.unchanged_of_isRefusal, ?_⟩
  intro ledgerId requested reason hresponse
  rw [hresponse] at h
  generalize (applyEntry (replay log) entry).1 = s', entry.command = command at h ⊢
  cases h with
  | refused h | peripheral hcommand h => cases h
  | markerConsumed hcommand => exact ⟨_, hcommand, rfl, rfl⟩

/-! ### A small log

Concrete entries for the evaluations that follow a general statement. -/

namespace Sample

def cid (n : UInt8) : ContentId := ⟨1, [n]⟩

noncomputable def entry (index : ℕ) (command : Command) : LogEntry :=
  ⟨index, command, HashMap.IterOrder.listed _ _⟩

noncomputable def created : List LogEntry := [entry 1 (.createLedger ⟨"db", "main", 0⟩)]

def submission (n : UInt8) : QueueSubmission :=
  ⟨"db", "main", none, cid n, cid n, .jsonLdInsert, 0⟩

/-- The commit of the front entry of `db:main`. -/
def head (queueId : ℕ) (commitT : ℤ) : StagedHead :=
  ⟨"db", "main", queueId, cid 7, commitT, 0, none, 0⟩

/-- A worker gives up on an entry of `db:main`. -/
def poisoning (queueId : ℕ) : EntryPoisoning := ⟨"db", "main", queueId, .workerPanic "", 0⟩

noncomputable def cleared : List LogEntry :=
  created ++ [entry 2 (.enqueueCommand (submission 1)), entry 3 (.retractLedger "db" "main" 0)]

end Sample

/-- Creating a ledger twice is refused; a commit whose queue was cleared by a
retraction consumes the marker. -/
theorem refusal_leaves_state_sample :
    (applyEntry (replay Sample.created) (Sample.entry 2 (.createLedger ⟨"db", "main", 0⟩))).1 =
        replay Sample.created ∧
      ∃ key, (Sample.entry 4 (.poisonQueueEntry (Sample.poisoning 0))).command.refKey =
          some key ∧ key.ledgerId = "db:main" ∧
        (applyEntry (replay Sample.cleared)
            (Sample.entry 4 (.poisonQueueEntry (Sample.poisoning 0)))).1 =
          { replay Sample.cleared with
            recentlyCleared := (replay Sample.cleared).recentlyCleared.erase key } :=
  ⟨(refusal_leaves_state Sample.created
      (Sample.entry 2 (.createLedger ⟨"db", "main", 0⟩))).1 rfl,
    (refusal_leaves_state Sample.cleared
      (Sample.entry 4 (.poisonQueueEntry (Sample.poisoning 0)))).2
      "db:main" 0 .branchRetracted rfl⟩

end FlureeDb.Consensus
