import FlureeDb.Consensus.Command
import Mathlib.Data.List.Sort

/-!
The replicated nameservice as a function: a state, a command and the log index
the command was committed at give the next state and a response. The
definitions follow the apply paths one by one and in their order, so that a
path which mutates before it knows its answer mutates here as well.

The only thing the code reads besides its arguments is the iteration order of
the idempotency map, in the eviction path; it is an argument here.
-/

namespace FlureeDb.Consensus

open FlureeDb.Core Lib RefEntry

abbrev CacheOrder := HashMap.IterOrder IdempotencyCacheKey ApplyOutcome

variable (s : NameServiceState)

def NameServiceState.knows (ledgerId branch : String) : Bool :=
  match s.ledgers.lookup ledgerId with
  | some ledger => branch ∈ ledger.branches
  | none => false

def applySetWorkerEligibility (args : WorkerEligibility) : NameServiceState × Response :=
  if args.voter ∉ s.configuredVoters then
    (s, .workerEligibilityRefused args.voter args.eligible .voterNotConfigured)
  else if args.eligible then
    ({ s with workerEligibleVoters := insert args.voter s.workerEligibleVoters },
      .workerEligibilitySet args.voter args.eligible (args.voter ∉ s.workerEligibleVoters))
  else
    ({ s with workerEligibleVoters := s.workerEligibleVoters.erase args.voter },
      .workerEligibilitySet args.voter args.eligible (args.voter ∈ s.workerEligibleVoters))

/-- Clear a per-branch queue as a side effect of a head-mutating admin command,
stamping a marker when the queue held entries. Returns the drained envelopes. -/
def clearQueueForAdmin (key : RefKey) (reason : ClearReason) (appliedAtMillis : ℕ) :
    NameServiceState × List (String × ContentId) :=
  match s.queues.lookup key with
  | none => (s, [])
  | some queue =>
    let s := { s with queues := s.queues.erase key }
    if queue.isEmpty then (s, [])
    else
      ({ s with recentlyCleared := s.recentlyCleared.insert key ⟨reason, appliedAtMillis⟩ },
        queue.map fun entry => (key.ledgerId, entry.requestCid))

/-- Saturating decrement of a parent's child counter; the count after it, or
zero if the parent is gone. -/
def decrementChildCount (ledgerId parentBranch : String) : NameServiceState × ℕ :=
  match s.refs.lookup ⟨ledgerId, parentBranch⟩ with
  | some parent =>
    ({ s with
        refs := s.refs.insert ⟨ledgerId, parentBranch⟩
          { parent with branches := parent.branches - 1 } }, parent.branches - 1)
  | none => (s, 0)

def LedgerRecord.pushBranch (ledger : LedgerRecord) (branch : String) : LedgerRecord :=
  { ledger with branches := ledger.branches ++ [branch] }

def LedgerRecord.retainOthers (ledger : LedgerRecord) (branch : String) : LedgerRecord :=
  { ledger with branches := ledger.branches.filter (· ≠ branch) }

/-- Take a branch off its ledger's list, and the ledger off the registry when
the list empties. -/
def removeBranch (ledgers : HashMap String LedgerRecord) (ledgerId branch : String) :
    HashMap String LedgerRecord :=
  match ledgers.lookup ledgerId with
  | some ledger =>
    let ledger := ledger.retainOthers branch
    if ledger.branches.isEmpty then ledgers.erase ledgerId
    else ledgers.insert ledgerId ledger
  | none => ledgers

/-! ### Ledger lifecycle -/

def createLedger (logIndex : ℕ) (args : NewLedger) : NameServiceState × Response :=
  -- The record is inserted before the duplicate check, as `or_insert_with` does.
  let ledger := (s.ledgers.lookup args.ledgerId).getD ⟨args.createdAtMillis, logIndex, []⟩
  let s := { s with ledgers := s.ledgers.insert args.ledgerId ledger }
  if args.branch ∈ ledger.branches then
    (s, .alreadyExists (formatLedgerId args.ledgerId args.branch))
  else
    ({ s with ledgers := s.ledgers.insert args.ledgerId (ledger.pushBranch args.branch) },
      .created (formatLedgerId args.ledgerId args.branch))

variable (ledgerId branch : String) (appliedAtMillis : ℕ)

def retractLedger : NameServiceState × Response :=
  let key : RefKey := ⟨ledgerId, branch⟩
  if !s.knows ledgerId branch then (s, .alreadyRetracted key.ledgerId)
  else if key ∈ s.retracted then (s, .alreadyRetracted key.ledgerId)
  else
    let s := { s with retracted := insert key s.retracted }
    let cleared := clearQueueForAdmin s key .branchRetracted appliedAtMillis
    (cleared.1, .retracted key.ledgerId cleared.2)

/-- The guard that `purgeBranch` and `dropBranch` share: the child count of a
born branch that still has children. -/
def NameServiceState.childrenOf (key : RefKey) : Option ℕ :=
  match s.refs.lookup key with
  | some entry => if 0 < entry.branches then some entry.branches else none
  | none => none

def purgeBranch : NameServiceState × Response :=
  let key : RefKey := ⟨ledgerId, branch⟩
  match s.childrenOf key with
  | some children => (s, .branchHasChildren key.ledgerId children)
  | none =>
    let removedRef := (s.refs.lookup key).isSome
    let removedSource := (s.refs.lookup key).bind sourceBranch
    let removedRetraction : Bool := key ∈ s.retracted
    let removedBranch := s.knows ledgerId branch
    let s := { s with refs := s.refs.erase key, retracted := s.retracted.erase key }
    let s := { s with ledgers := removeBranch s.ledgers ledgerId branch }
    let s := match removedSource with
      | some parent => (decrementChildCount s ledgerId parent).1
      | none => s
    let cleared := clearQueueForAdmin s key .branchPurged appliedAtMillis
    if removedRef || removedRetraction || removedBranch then
      (cleared.1, .purged key.ledgerId cleared.2)
    else (cleared.1, .alreadyPurged key.ledgerId)

/-- `u32::saturating_add(1)`. -/
def saturatingSucc32 (n : ℕ) : ℕ := min (n + 1) (2 ^ 32 - 1)

def createBranch (logIndex : ℕ) (args : NewBranch) : NameServiceState × Response :=
  match s.ledgers.lookup args.ledgerId with
  | none => (s, .ledgerNotFound args.ledgerId)
  | some ledger =>
    let key : RefKey := ⟨args.ledgerId, args.branch⟩
    if args.branch ∈ ledger.branches then (s, .alreadyExists key.ledgerId)
    else
      let sourceKey : RefKey := ⟨args.ledgerId, args.sourceBranch⟩
      match s.refs.lookup sourceKey with
      | none => (s, .sourceBranchNotFound sourceKey.ledgerId)
      | some source =>
        let (head, t) := args.atCommit.getD (source.head, source.t)
        let s := { s with
          ledgers := s.ledgers.insert args.ledgerId (ledger.pushBranch args.branch) }
        let s := { s with
          refs := s.refs.insert sourceKey
            { source with branches := saturatingSucc32 source.branches } }
        let s := { s with
          refs := s.refs.insert key
            { head := head, t := t, lastAdvancedAtMillis := args.appliedAtMillis,
              lastAdvancedIndex := logIndex, index := none,
              sourceBranch := some args.sourceBranch, branches := 0 } }
        (s, .branchCreated key.ledgerId head t)

def dropBranch : NameServiceState × Response :=
  let key : RefKey := ⟨ledgerId, branch⟩
  if !s.knows ledgerId branch then (s, .ledgerNotFound key.ledgerId)
  else
    match s.childrenOf key with
    | some children => (s, .branchHasChildren key.ledgerId children)
    | none =>
      let removedSource := (s.refs.lookup key).bind sourceBranch
      let s := { s with refs := s.refs.erase key, retracted := s.retracted.erase key }
      let s := { s with ledgers := removeBranch s.ledgers ledgerId branch }
      let (s, parentBranches) := match removedSource with
        | some parent =>
          let decremented := decrementChildCount s ledgerId parent
          (decremented.1, some decremented.2)
        | none => (s, none)
      let cleared := clearQueueForAdmin s key .branchDropped appliedAtMillis
      (cleared.1, .branchDropped key.ledgerId parentBranches cleared.2)

def resetHead (snapshot : ResetHeadSnapshot) (appliedAtMillis : ℕ) : NameServiceState × Response :=
  let key : RefKey := ⟨ledgerId, branch⟩
  if !s.knows ledgerId branch then (s, .ledgerNotFound key.ledgerId)
  else if key ∈ s.retracted then (s, .ledgerRetracted key.ledgerId)
  else
    match snapshot.commitHeadId with
    | none =>
      -- An unborn snapshot removes the entry; the branch keeps its slot.
      let s := { s with refs := s.refs.erase key }
      let cleared := clearQueueForAdmin s key .branchHeadReset appliedAtMillis
      (cleared.1, .headReset key.ledgerId cleared.2)
    | some head =>
      let prior := s.refs.lookup key
      let s := { s with
        refs := s.refs.insert key
          { head := head, t := snapshot.commitT, lastAdvancedAtMillis := 0,
            lastAdvancedIndex := 0,
            index := snapshot.indexHeadId.map fun head => ⟨head, snapshot.indexT⟩,
            sourceBranch := prior.bind sourceBranch,
            branches := (prior.map branches).getD 0 } }
      let cleared := clearQueueForAdmin s key .branchHeadReset appliedAtMillis
      (cleared.1, .headReset key.ledgerId cleared.2)

/-! ### Index heads and compare-and-set -/

variable (args : NewIndexHead)

/-- Install a new index head subject to the staleness rule `isStale existing new`. -/
def setIndexHead (isStale : ℤ → ℤ → Bool) : NameServiceState × Response :=
  let key : RefKey := ⟨args.ledgerId, args.branch⟩
  match s.ledgers.lookup args.ledgerId with
  | none => (s, .ledgerNotFound args.ledgerId)
  | some _ =>
    if key ∈ s.retracted then (s, .ledgerRetracted key.ledgerId)
    else
      match s.refs.lookup key with
      | none => (s, .ledgerNotFound args.ledgerId)
      | some entry =>
        match entry.index.filter fun existing => isStale existing.t args.t with
        | some existing => (s, .indexStale existing.t)
        | none =>
          if entry.t < args.t then (s, .indexAhead entry.t args.t)
          else
            ({ s with
                refs := s.refs.insert key
                  { entry with
                    index := some ⟨args.newIndexHead, args.t⟩,
                    lastAdvancedAtMillis := args.appliedAtMillis } },
              .indexAdvanced args.t args.newIndexHead)

def advanceIndexHead : NameServiceState × Response :=
  setIndexHead s args fun existingT newT => newT ≤ existingT

def rewriteIndexHead : NameServiceState × Response :=
  setIndexHead s args fun existingT newT => newT < existingT

/-- The current commit or index ref of a branch; nothing if the branch is not
registered, an id of `none` at time zero if there is no such head. -/
def currentRefValue (key : RefKey) (kind : RefKind) : Option RefValue :=
  if !s.knows key.ledgerName key.branch then none
  else
    let entry := s.refs.lookup key
    match kind with
    | .commitHead => some ⟨entry.map head, (entry.map t).getD 0⟩
    | .indexHead =>
      some ⟨(entry.bind index).map IndexState.head,
        ((entry.bind index).map IndexState.t).getD 0⟩

/-- Whether the expectation of a compare-and-set meets the current value. -/
def expectedMatches (expected : Option RefValue) (current : RefValue) : Bool :=
  match expected with
  | none => current.id.isNone
  | some value => current = value

/-- Commit heads advance strictly; index heads may stay. -/
def RefKind.monotonic (kind : RefKind) (newT currentT : ℤ) : Bool :=
  match kind with
  | .commitHead => currentT < newT
  | .indexHead => currentT ≤ newT

def applyCompareAndSetRef (logIndex : ℕ) (args : RefCas) : NameServiceState × Response :=
  let key : RefKey := ⟨args.ledgerId, args.branch⟩
  match currentRefValue s key args.kind with
  | none => (s, .ledgerNotFound key.ledgerId)
  | some current =>
    if key ∈ s.retracted then (s, .ledgerRetracted key.ledgerId)
    else if !expectedMatches args.expected current then (s, .refCasConflict (some current))
    else if !args.kind.monotonic args.new.t current.t then
      (s, .refCasConflict (some current))
    else
      let prior := s.refs.lookup key
      match args.kind with
      | .commitHead =>
        match args.new.id with
        | none => (s, .refCasConflict (some current))
        | some head =>
          ({ s with
              refs := s.refs.insert key
                { head := head, t := args.new.t,
                  lastAdvancedAtMillis := args.appliedAtMillis,
                  lastAdvancedIndex := logIndex,
                  index := prior.bind index,
                  sourceBranch := prior.bind sourceBranch,
                  branches := (prior.map branches).getD 0 } },
            .refCasUpdated)
      | .indexHead =>
        match prior with
        | none => (s, .indexAhead 0 args.new.t)
        | some entry =>
          if entry.t < args.new.t then (s, .indexAhead entry.t args.new.t)
          else
            ({ s with
                refs := s.refs.insert key
                  { entry with
                    index := args.new.id.map fun head => ⟨head, args.new.t⟩,
                    lastAdvancedAtMillis := args.appliedAtMillis } },
              .refCasUpdated)

/-! ### Status, config and graph sources -/

/-- A branch-scoped, CAS-updated value with a strictly advancing version. -/
class VersionedValue (T : Type) extends BEq T where
  absent : T
  v : T → ℤ
  conflict : Option T → Response
  updated : Response

instance : VersionedValue StoredStatus where
  absent := .initial
  v := StoredStatus.v
  conflict := .statusConflict
  updated := .statusUpdated

instance : VersionedValue StoredConfig where
  absent := .unborn
  v := StoredConfig.v
  conflict := .configConflict
  updated := .configUpdated

def currentValue {T : Type} [VersionedValue T] (values : HashMap String T)
    (ledgerId : String) : T :=
  (values.lookup ledgerId).getD VersionedValue.absent

/-- The apply body shared by the status and config pushes. The map is keyed by
the command's ledger ID verbatim. -/
def applyVersionedPush {T : Type} [VersionedValue T] (s : NameServiceState)
    (values : HashMap String T) (ledgerId : String) (expected : Option T) (new : T) :
    HashMap String T × Response :=
  match splitLedgerId ledgerId with
  | .error _ => (values, VersionedValue.conflict (none : Option T))
  | .ok (name, branch) =>
    if !s.knows name branch then (values, VersionedValue.conflict (none : Option T))
    else
      let current := currentValue values ledgerId
      if !(expected == some current) then (values, VersionedValue.conflict (some current))
      else if VersionedValue.v new ≤ VersionedValue.v current then
        (values, VersionedValue.conflict (some current))
      else (values.insert ledgerId new, VersionedValue.updated (T := T))

def applyPushStatus (ledgerId : String) (expected : Option StoredStatus) (new : StoredStatus) :
    NameServiceState × Response :=
  let pushed := applyVersionedPush s s.status ledgerId expected new
  ({ s with status := pushed.1 }, pushed.2)

def applyPushConfig (args : ConfigUpdate) : NameServiceState × Response :=
  let pushed := applyVersionedPush s s.config args.ledgerId args.expected args.new
  ({ s with config := pushed.1 }, pushed.2)

def applyPublishGraphSource (name branch : String) (sourceType : GraphSourceType)
    (config : String) (dependencies : List String) : NameServiceState × Response :=
  let graphSourceId := formatLedgerId name branch
  let record := match s.graphSources.lookup graphSourceId with
    | some record =>
      { record with sourceType := sourceType, config := config, dependencies := dependencies }
    | none => .new name branch sourceType config dependencies
  ({ s with graphSources := s.graphSources.insert graphSourceId record },
    .graphSourcePublished)

def applyPublishGraphSourceIndex (name branch : String) (indexId : ContentId) (indexT : ℤ) :
    NameServiceState × Response :=
  let graphSourceId := formatLedgerId name branch
  match s.graphSources.lookup graphSourceId with
  | none => (s, .graphSourceNotFound graphSourceId)
  | some record =>
    if indexT ≤ record.indexT then (s, .graphSourceIndexStale record.indexT)
    else
      ({ s with
          graphSources := s.graphSources.insert graphSourceId
            { record with indexId := some indexId, indexT := indexT } },
        .graphSourceIndexAdvanced indexT)

def applyRetractGraphSource (name branch : String) : NameServiceState × Response :=
  let graphSourceId := formatLedgerId name branch
  match s.graphSources.lookup graphSourceId with
  | none => (s, .graphSourceAlreadyRetracted graphSourceId)
  | some record =>
    if record.retracted then (s, .graphSourceAlreadyRetracted graphSourceId)
    else
      ({ s with
          graphSources := s.graphSources.insert graphSourceId
            { record with retracted := true } },
        .graphSourceRetracted graphSourceId)

/-! ### The command queue -/

def NameServiceState.queueOf (key : RefKey) : List QueueEntry :=
  (s.queues.lookup key).getD []

def NameServiceState.globalDepth : ℕ :=
  HashMap.sumBy (fun _ queue => queue.length) s.queues

/-- The answer a cached outcome gives to a submission with this body. -/
def ApplyOutcome.answer (outcome : ApplyOutcome) (bodyCid : ContentId) : Response :=
  if outcome.bodyCid ≠ bodyCid then .bodyHashMismatch
  else
    match outcome with
    | .applied record => .idempotencyHit record
    | .failed record => .idempotencyFailed record

/-- The answer a queued entry with the same key gives to a submission with this
body. -/
def QueueEntry.answer (entry : QueueEntry) (ledgerId : String) (bodyCid : ContentId) : Response :=
  if entry.bodyCid = bodyCid then .inFlight ledgerId entry.queueId else .bodyHashMismatch

/-- The response of a keyed submission that was seen before: first the
idempotency cache, then the entries in flight on the branch. -/
def seenBefore (args : QueueSubmission) : Option Response :=
  let key : RefKey := ⟨args.ledgerId, args.branch⟩
  match args.idempotency with
  | none => none
  | some cacheKey =>
    match s.idempotency.lookup cacheKey with
    | some outcome => some (outcome.answer args.bodyCid)
    | none =>
      ((s.queueOf key).find? fun entry => entry.idempotency = some cacheKey).map
        fun entry => entry.answer key.ledgerId args.bodyCid

def applyEnqueueCommand (logIndex : ℕ) (args : QueueSubmission) : NameServiceState × Response :=
  let key : RefKey := ⟨args.ledgerId, args.branch⟩
  if !s.knows args.ledgerId args.branch then (s, .ledgerNotFound key.ledgerId)
  else if key ∈ s.retracted then (s, .ledgerRetracted key.ledgerId)
  else
    match seenBefore s args with
    | some response => (s, response)
    | none =>
      if s.queueConfig.perBranchCap ≤ (s.queueOf key).length then
        (s, .queueFull key.ledgerId (s.queueOf key).length s.queueConfig.perBranchCap
          .perBranch)
      else if s.queueConfig.globalCap ≤ s.globalDepth then
        (s, .queueFull key.ledgerId s.globalDepth s.queueConfig.globalCap .global)
      else
        let entry : QueueEntry :=
          { queueId := s.nextQueueId, enqueuedIndex := logIndex,
            enqueuedAtMillis := args.appliedAtMillis, idempotency := args.idempotency,
            requestCid := args.requestCid, bodyCid := args.bodyCid,
            bodyKind := args.bodyKind }
        ({ s with
            recentlyCleared := s.recentlyCleared.erase key
            nextQueueId := (s.nextQueueId + 1) % 2 ^ 64
            queues := s.queues.insert key (s.queueOf key ++ [entry]) },
          .enqueued key.ledgerId s.nextQueueId)

/-- Validate the queue front against the worker's claim and pop it. A marker is
consumed whatever the queue holds; a popped queue stays, empty or not. -/
def popValidatedFront (key : RefKey) (requestedQueueId : ℕ) :
    NameServiceState × Except Response QueueEntry :=
  match s.recentlyCleared.lookup key with
  | some marker =>
    ({ s with recentlyCleared := s.recentlyCleared.erase key },
      .error (.queueDesync key.ledgerId requestedQueueId (.queueCleared marker.reason)))
  | none =>
    match s.queues.lookup key with
    | some (front :: rest) =>
      if front.queueId ≠ requestedQueueId then
        (s, .error (.queueDesync key.ledgerId requestedQueueId
          (.wrongFront front.queueId)))
      else ({ s with queues := s.queues.insert key rest }, .ok front)
    | _ =>
      (s, .error (.queueDesync key.ledgerId requestedQueueId (.invariantViolated
        "queue missing or empty without recently_cleared marker")))

def dropQueueIfEmpty (key : RefKey) : NameServiceState :=
  match s.queues.lookup key with
  | some [] => { s with queues := s.queues.erase key }
  | _ => s

/-- The head an applied commit leaves: an existing entry keeps its index and
lineage, a fresh branch starts without either. -/
def advancedEntry (prior : Option RefEntry) (logIndex : ℕ) (args : StagedHead) : RefEntry :=
  match prior with
  | some existing =>
    { existing with
      head := args.commitId, t := args.commitT,
      lastAdvancedAtMillis := args.appliedAtMillis, lastAdvancedIndex := logIndex }
  | none =>
    { head := args.commitId, t := args.commitT,
      lastAdvancedAtMillis := args.appliedAtMillis, lastAdvancedIndex := logIndex,
      index := none, sourceBranch := none, branches := 0 }

/-- Self-healing branch registration. -/
def registerBranch (ledgers : HashMap String LedgerRecord) (ledgerId branch : String) :
    HashMap String LedgerRecord :=
  match ledgers.lookup ledgerId with
  | some ledger =>
    if branch ∈ ledger.branches then ledgers
    else ledgers.insert ledgerId (ledger.pushBranch branch)
  | none => ledgers

variable (entry : QueueEntry)

/-- Retire a popped entry. A keyed entry's outcome is recorded and holds the
envelope; a keyless entry's envelope is handed back for release. -/
def settleEntry (outcome : ApplyOutcome) : NameServiceState × Option ContentId :=
  match entry.idempotency with
  | some cacheKey =>
    ({ s with idempotency := s.idempotency.insert cacheKey outcome }, none)
  | none => (s, some entry.requestCid)

variable (logIndex : ℕ)

def appliedOutcome (args : StagedHead) : ApplyOutcome :=
  .applied
    { requestCid := entry.requestCid, bodyCid := entry.bodyCid, bodyKind := entry.bodyKind,
      recordedAtMillis := args.appliedAtMillis, head := args.commitId, t := args.commitT,
      recordedIndex := logIndex, tally := args.tally, flakeCount := args.flakeCount }

def failedOutcome (args : EntryPoisoning) : ApplyOutcome :=
  .failed
    { requestCid := entry.requestCid, bodyCid := entry.bodyCid, reason := args.reason,
      recordedIndex := logIndex, recordedAtMillis := args.appliedAtMillis }

def applyHead (args : StagedHead) : NameServiceState × Response :=
  let key : RefKey := ⟨args.ledgerId, args.branch⟩
  if key ∈ s.retracted then (s, .ledgerRetracted key.ledgerId)
  else
    match popValidatedFront s key args.queueId with
    | (s, .error response) => (s, response)
    | (s, .ok entry) =>
      match (s.refs.lookup key).filter fun existing => args.commitT ≤ existing.t with
      | some existing =>
        -- Push the popped entry back so the worker can retry.
        ({ s with queues := HashMap.modify s.queues key fun queue => entry :: queue },
          .queueDesync key.ledgerId args.queueId
            (.headNotMonotonic existing.t args.commitT))
      | none =>
        let s := dropQueueIfEmpty s key
        let s := { s with
          refs := s.refs.insert key (advancedEntry (s.refs.lookup key) logIndex args) }
        let s := { s with
          ledgers := registerBranch s.ledgers args.ledgerId args.branch }
        let settled := settleEntry s entry (appliedOutcome entry logIndex args)
        (settled.1, .headApplied key.ledgerId args.commitId args.commitT settled.2)

def applyPoisonQueueEntry (args : EntryPoisoning) : NameServiceState × Response :=
  let key : RefKey := ⟨args.ledgerId, args.branch⟩
  match popValidatedFront s key args.queueId with
  | (s, .error response) => (s, response)
  | (s, .ok entry) =>
    let s := dropQueueIfEmpty s key
    let settled := settleEntry s entry (failedOutcome entry logIndex args)
    (settled.1, .poisoned key.ledgerId args.queueId args.reason settled.2)

/-! ### Eviction -/

def evictBatchSize : ℕ := 1024

structure Expired where
  recordedAt : ℕ
  recordedIndex : ℕ
  key : IdempotencyCacheKey

/-- The order candidates are evicted in: by time, then by log index. -/
def Expired.le (a b : Expired) : Prop :=
  a.recordedAt < b.recordedAt ∨
    (a.recordedAt = b.recordedAt ∧ a.recordedIndex ≤ b.recordedIndex)

instance : DecidableRel Expired.le := fun a b => by
  unfold Expired.le
  infer_instance

/-- The candidate an entry of the cache makes, if it is old enough. -/
def expiredAt (cutoffMillis : ℕ) (entry : IdempotencyCacheKey × ApplyOutcome) : Option Expired :=
  if entry.2.recordedAtMillis < cutoffMillis then
    some ⟨entry.2.recordedAtMillis, entry.2.recordedIndex, entry.1⟩
  else none

variable (order : CacheOrder)

/-- The keys one eviction removes, oldest first. -/
def evictionBatch (s : NameServiceState) (cutoffMillis : ℕ) : List IdempotencyCacheKey :=
  ((((order.iter s.idempotency).filterMap (expiredAt cutoffMillis)).insertionSort
    Expired.le).take evictBatchSize).map Expired.key

/-- One round of the eviction loop: remove a key and remember its envelope. -/
def evictOne (acc : HashMap IdempotencyCacheKey ApplyOutcome × List (String × ContentId))
    (key : IdempotencyCacheKey) :
    HashMap IdempotencyCacheKey ApplyOutcome × List (String × ContentId) :=
  match acc.1.lookup key with
  | some outcome => (acc.1.erase key, acc.2 ++ [(key.ledgerId, outcome.requestCid)])
  | none => (acc.1.erase key, acc.2)

def applyEvictIdempotency (s : NameServiceState)
    (cutoffMillis markerCutoffMillis : ℕ) : NameServiceState × Response :=
  let batch := evictionBatch order s cutoffMillis
  let evicted := batch.foldl evictOne (s.idempotency, [])
  ({ s with
      idempotency := evicted.1
      evictedIdempotencyCount := (s.evictedIdempotencyCount + batch.length) % 2 ^ 64
      recentlyCleared := HashMap.retain s.recentlyCleared
        fun _ marker => markerCutoffMillis ≤ marker.appliedAtMillis },
    .evictionApplied batch.length evicted.2)

def apply (s : NameServiceState) (command : Command) (logIndex : ℕ) : NameServiceState × Response :=
  match command with
  | .advanceIndexHead args => advanceIndexHead s args
  | .rewriteIndexHead args => rewriteIndexHead s args
  | .createLedger args => createLedger s logIndex args
  | .createBranch args => createBranch s logIndex args
  | .dropBranch ledgerId branch millis => dropBranch s ledgerId branch millis
  | .resetHead ledgerId branch snapshot millis => resetHead s ledgerId branch snapshot millis
  | .retractLedger ledgerId branch millis => retractLedger s ledgerId branch millis
  | .purgeBranch ledgerId branch millis => purgeBranch s ledgerId branch millis
  | .releaseContent _ => (s, .noOp)
  | .compareAndSetRef args => applyCompareAndSetRef s logIndex args
  | .pushStatus ledgerId expected new => applyPushStatus s ledgerId expected new
  | .pushConfig args => applyPushConfig s args
  | .publishGraphSource name branch sourceType config dependencies =>
    applyPublishGraphSource s name branch sourceType config dependencies
  | .publishGraphSourceIndex name branch indexId indexT =>
    applyPublishGraphSourceIndex s name branch indexId indexT
  | .retractGraphSource name branch => applyRetractGraphSource s name branch
  | .enqueueCommand args => applyEnqueueCommand s logIndex args
  | .applyHead args => applyHead s logIndex args
  | .poisonQueueEntry args => applyPoisonQueueEntry s logIndex args
  | .evictIdempotency cutoff markerCutoff =>
    applyEvictIdempotency order s cutoff markerCutoff
  | .setWorkerEligibility args => applySetWorkerEligibility s args

end FlureeDb.Consensus
