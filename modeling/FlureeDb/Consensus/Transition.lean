import FlureeDb.Consensus.WellFormed

/-!
What applying one command can do to a well-formed state, said once. A command
is refused and leaves the state alone, or it makes exactly one of the changes
below under the guards listed with it. Every invariant of the state machine is
a case analysis over `Transition`; none of them unfolds an apply path.
-/

namespace FlureeDb.Consensus

open FlureeDb.Core Lib List Bool Option HashMap RefEntry

def Command.refKey : Command → Option RefKey
  | .advanceIndexHead args | .rewriteIndexHead args => some ⟨args.ledgerId, args.branch⟩
  | .createLedger args => some ⟨args.ledgerId, args.branch⟩
  | .createBranch args => some ⟨args.ledgerId, args.branch⟩
  | .dropBranch ledgerId branch _ | .resetHead ledgerId branch _ _
  | .retractLedger ledgerId branch _ | .purgeBranch ledgerId branch _ =>
    some ⟨ledgerId, branch⟩
  | .compareAndSetRef args => some ⟨args.ledgerId, args.branch⟩
  | .enqueueCommand args => some ⟨args.ledgerId, args.branch⟩
  | .applyHead args => some ⟨args.ledgerId, args.branch⟩
  | .poisonQueueEntry args => some ⟨args.ledgerId, args.branch⟩
  | _ => none

/-- Responses of the commands that touch neither registry nor queues. -/
def Response.isPeripheral : Response → Bool
  | .graphSourcePublished | .graphSourceIndexAdvanced _ | .graphSourceRetracted _
  | .workerEligibilitySet _ _ _ => true
  | _ => false

variable (s : NameServiceState)

/-- The record a new branch is listed in: the ledger's own, or a fresh one. -/
def NameServiceState.ledgerFor (logIndex : ℕ) (args : NewLedger) : LedgerRecord :=
  (s.ledgers.lookup args.ledgerId).getD ⟨args.createdAtMillis, logIndex, []⟩

def forkedEntry (source : RefEntry) (logIndex : ℕ) (args : NewBranch) : RefEntry where
  head := (args.atCommit.getD (source.head, source.t)).1
  t := (args.atCommit.getD (source.head, source.t)).2
  lastAdvancedAtMillis := args.appliedAtMillis
  lastAdvancedIndex := logIndex
  index := none
  sourceBranch := some args.sourceBranch
  branches := 0

/-- The heads after a fork: the source counts one more child. -/
def forkedRefs (source : RefEntry) (logIndex : ℕ) (args : NewBranch) : HashMap RefKey RefEntry :=
  (s.refs.insert ⟨args.ledgerId, args.sourceBranch⟩
    { source with branches := saturatingSucc32 source.branches }).insert
      ⟨args.ledgerId, args.branch⟩ (forkedEntry source logIndex args)

/-- The heads after a branch was removed: its source counts one child less. -/
def removedRefs (refs : HashMap RefKey RefEntry) (key : RefKey) : HashMap RefKey RefEntry :=
  match (refs.lookup key).bind sourceBranch with
  | some parent =>
    modify (refs.erase key) ⟨key.ledgerName, parent⟩ decrement
  | none => refs.erase key

/-- The state after a branch was removed and its queue drained. -/
def removed (key : RefKey) (reason : ClearReason) (appliedAtMillis : ℕ) : NameServiceState :=
  { s with
    refs := removedRefs s.refs key
    retracted := s.retracted.erase key
    ledgers := removeBranch s.ledgers key.ledgerName key.branch
    queues := s.queues.erase key
    recentlyCleared := stampCleared s key reason appliedAtMillis }

/-- The head a reset or a commit compare-and-set installs: lineage is carried
over from the entry it replaces. -/
def replacedEntry (prior : Option RefEntry) (head : ContentId) (t : ℤ) (millis logIndex : ℕ)
    (index : Option IndexState) : RefEntry where
  head := head
  t := t
  lastAdvancedAtMillis := millis
  lastAdvancedIndex := logIndex
  index := index
  sourceBranch := prior.bind sourceBranch
  branches := (prior.map branches).getD 0

/-- The entry an accepted submission appends. -/
def queuedEntry (logIndex : ℕ) (args : QueueSubmission) :
    QueueEntry where
  queueId := s.nextQueueId
  enqueuedIndex := logIndex
  enqueuedAtMillis := args.appliedAtMillis
  idempotency := args.idempotency
  requestCid := args.requestCid
  bodyCid := args.bodyCid
  bodyKind := args.bodyKind

variable (cache : HashMap IdempotencyCacheKey ApplyOutcome)

/-- The cache after an entry retired: a keyed one is recorded. -/
def recordedOutcome (entry : QueueEntry)
    (outcome : ApplyOutcome) : HashMap IdempotencyCacheKey ApplyOutcome :=
  match entry.idempotency with
  | some cacheKey => cache.insert cacheKey outcome
  | none => cache

/-- The envelope a retired entry hands back at once: a keyless one's. -/
def QueueEntry.releasedNow (entry : QueueEntry) : Option ContentId :=
  match entry.idempotency with
  | some _ => none
  | none => some entry.requestCid

/-- The envelope the record of a key holds. -/
def heldEnvelope (key : IdempotencyCacheKey) : Option (String × ContentId) :=
  (cache.lookup key).map fun outcome => (key.ledgerId, outcome.requestCid)

/-- One applied command, by what it changed. -/
inductive Transition (order : CacheOrder) (logIndex : ℕ) (s : NameServiceState) :
    Command → NameServiceState → Response → Prop
  | refused {command : Command} {response : Response} (h : response.isRefusal = true) :
      Transition order logIndex s command s response
  | markerConsumed {command : Command} {key : RefKey} {marker : ClearMarker} {requested : ℕ}
      (hcommand : command.refKey = some key)
      (hmarker : s.recentlyCleared.lookup key = some marker) :
      Transition order logIndex s command
        { s with recentlyCleared := s.recentlyCleared.erase key }
        (.queueDesync key.ledgerId requested (.queueCleared marker.reason))
  | statusPushed {ledgerId : String} {expected : Option StoredStatus} {new : StoredStatus}
      (hv : (currentValue s.status ledgerId).v < new.v) :
      Transition order logIndex s (.pushStatus ledgerId expected new)
        { s with status := s.status.insert ledgerId new } .statusUpdated
  | configPushed {args : ConfigUpdate}
      (hv : (currentValue s.config args.ledgerId).v < args.new.v) :
      Transition order logIndex s (.pushConfig args)
        { s with config := s.config.insert args.ledgerId args.new } .configUpdated
  | peripheral {command : Command} {response : Response}
      {sources : HashMap String GraphSourceRecord} {voters : Finset NodeId}
      (hcommand : command.refKey = none) (h : response.isPeripheral = true) :
      Transition order logIndex s command
        { s with graphSources := sources, workerEligibleVoters := voters } response
  | ledgerCreated {args : NewLedger} (hnew : ¬ s.Registered ⟨args.ledgerId, args.branch⟩) :
      Transition order logIndex s (.createLedger args)
        { s with
          ledgers := s.ledgers.insert args.ledgerId
            ((s.ledgerFor logIndex args).pushBranch args.branch) }
        (.created (formatLedgerId args.ledgerId args.branch))
  | branchForked {args : NewBranch} {ledger : LedgerRecord} {source : RefEntry}
      (hledger : s.ledgers.lookup args.ledgerId = some ledger)
      (hnew : args.branch ∉ ledger.branches)
      (hsource : s.refs.lookup ⟨args.ledgerId, args.sourceBranch⟩ = some source) :
      Transition order logIndex s (.createBranch args)
        { s with
          ledgers := s.ledgers.insert args.ledgerId (ledger.pushBranch args.branch)
          refs := forkedRefs s source logIndex args }
        (.branchCreated (formatLedgerId args.ledgerId args.branch)
          (forkedEntry source logIndex args).head (forkedEntry source logIndex args).t)
  | branchDropped {ledgerId branch : String} {millis : ℕ} {parentBranches : Option ℕ}
      (hknown : s.Registered ⟨ledgerId, branch⟩)
      (hchildren : s.childrenOf ⟨ledgerId, branch⟩ = none) :
      Transition order logIndex s (.dropBranch ledgerId branch millis)
        (removed s ⟨ledgerId, branch⟩ .branchDropped millis)
        (.branchDropped (formatLedgerId ledgerId branch) parentBranches
          (drainedEnvelopes s ⟨ledgerId, branch⟩))
  | branchPurged {ledgerId branch : String} {millis : ℕ}
      (hknown : s.Registered ⟨ledgerId, branch⟩)
      (hchildren : s.childrenOf ⟨ledgerId, branch⟩ = none) :
      Transition order logIndex s (.purgeBranch ledgerId branch millis)
        (removed s ⟨ledgerId, branch⟩ .branchPurged millis)
        (.purged (formatLedgerId ledgerId branch) (drainedEnvelopes s ⟨ledgerId, branch⟩))
  | headErased {ledgerId branch : String} {snapshot : ResetHeadSnapshot} {millis : ℕ}
      (hknown : s.Registered ⟨ledgerId, branch⟩)
      (hlive : (⟨ledgerId, branch⟩ : RefKey) ∉ s.retracted)
      (hsnapshot : snapshot.commitHeadId = none) :
      Transition order logIndex s (.resetHead ledgerId branch snapshot millis)
        { s with
          refs := s.refs.erase ⟨ledgerId, branch⟩
          queues := s.queues.erase ⟨ledgerId, branch⟩
          recentlyCleared := stampCleared s ⟨ledgerId, branch⟩ .branchHeadReset millis }
        (.headReset (formatLedgerId ledgerId branch) (drainedEnvelopes s ⟨ledgerId, branch⟩))
  | headRewritten {ledgerId branch : String} {snapshot : ResetHeadSnapshot} {millis : ℕ}
      {head : ContentId} (hknown : s.Registered ⟨ledgerId, branch⟩)
      (hlive : (⟨ledgerId, branch⟩ : RefKey) ∉ s.retracted)
      (hsnapshot : snapshot.commitHeadId = some head) :
      Transition order logIndex s (.resetHead ledgerId branch snapshot millis)
        { s with
          refs := s.refs.insert ⟨ledgerId, branch⟩
            (replacedEntry (s.refs.lookup ⟨ledgerId, branch⟩) head snapshot.commitT 0 0
              (snapshot.indexHeadId.map fun head => ⟨head, snapshot.indexT⟩))
          queues := s.queues.erase ⟨ledgerId, branch⟩
          recentlyCleared := stampCleared s ⟨ledgerId, branch⟩ .branchHeadReset millis }
        (.headReset (formatLedgerId ledgerId branch) (drainedEnvelopes s ⟨ledgerId, branch⟩))
  | branchRetracted {ledgerId branch : String} {millis : ℕ}
      (hknown : s.Registered ⟨ledgerId, branch⟩)
      (hlive : (⟨ledgerId, branch⟩ : RefKey) ∉ s.retracted) :
      Transition order logIndex s (.retractLedger ledgerId branch millis)
        { s with
          retracted := insert ⟨ledgerId, branch⟩ s.retracted
          queues := s.queues.erase ⟨ledgerId, branch⟩
          recentlyCleared := stampCleared s ⟨ledgerId, branch⟩ .branchRetracted millis }
        (.retracted (formatLedgerId ledgerId branch) (drainedEnvelopes s ⟨ledgerId, branch⟩))
  | indexPublished {command : Command} {args : NewIndexHead} {entry : RefEntry}
      (hcommand : command = .advanceIndexHead args ∨ command = .rewriteIndexHead args)
      (hlive : (⟨args.ledgerId, args.branch⟩ : RefKey) ∉ s.retracted)
      (hentry : s.refs.lookup ⟨args.ledgerId, args.branch⟩ = some entry)
      (hstale : ∀ existing, entry.index = some existing → existing.t ≤ args.t)
      (hahead : args.t ≤ entry.t) :
      Transition order logIndex s command
        { s with
          refs := s.refs.insert ⟨args.ledgerId, args.branch⟩
            { entry with
              index := some ⟨args.newIndexHead, args.t⟩
              lastAdvancedAtMillis := args.appliedAtMillis } }
        (.indexAdvanced args.t args.newIndexHead)
  | indexSwapped {args : RefCas} {entry : RefEntry} (hkind : args.kind = .indexHead)
      (hlive : (⟨args.ledgerId, args.branch⟩ : RefKey) ∉ s.retracted)
      (hentry : s.refs.lookup ⟨args.ledgerId, args.branch⟩ = some entry)
      (hstale : ∀ existing, entry.index = some existing → existing.t ≤ args.new.t)
      (hahead : args.new.t ≤ entry.t) :
      Transition order logIndex s (.compareAndSetRef args)
        { s with
          refs := s.refs.insert ⟨args.ledgerId, args.branch⟩
            { entry with
              index := args.new.id.map fun head => ⟨head, args.new.t⟩
              lastAdvancedAtMillis := args.appliedAtMillis } }
        .refCasUpdated
  | commitSwapped {args : RefCas} {head : ContentId} (hkind : args.kind = .commitHead)
      (hknown : s.Registered ⟨args.ledgerId, args.branch⟩)
      (hlive : (⟨args.ledgerId, args.branch⟩ : RefKey) ∉ s.retracted)
      (hhead : args.new.id = some head)
      (hmono : ∀ entry, s.refs.lookup ⟨args.ledgerId, args.branch⟩ = some entry →
        entry.t < args.new.t) :
      Transition order logIndex s (.compareAndSetRef args)
        { s with
          refs := s.refs.insert ⟨args.ledgerId, args.branch⟩
            (replacedEntry (s.refs.lookup ⟨args.ledgerId, args.branch⟩) head args.new.t
              args.appliedAtMillis logIndex
              ((s.refs.lookup ⟨args.ledgerId, args.branch⟩).bind index)) }
        .refCasUpdated
  | enqueued {args : QueueSubmission} (hknown : s.Registered ⟨args.ledgerId, args.branch⟩)
      (hlive : (⟨args.ledgerId, args.branch⟩ : RefKey) ∉ s.retracted)
      (hunseen : seenBefore s args = none)
      (hbranch : (s.queueOf ⟨args.ledgerId, args.branch⟩).length < s.queueConfig.perBranchCap)
      (hglobal : s.globalDepth < s.queueConfig.globalCap) :
      Transition order logIndex s (.enqueueCommand args)
        { s with
          recentlyCleared := s.recentlyCleared.erase ⟨args.ledgerId, args.branch⟩
          nextQueueId := (s.nextQueueId + 1) % 2 ^ 64
          queues := s.queues.insert ⟨args.ledgerId, args.branch⟩
            (s.queueOf ⟨args.ledgerId, args.branch⟩ ++ [queuedEntry s logIndex args]) }
        (.enqueued (formatLedgerId args.ledgerId args.branch) s.nextQueueId)
  | headApplied {args : StagedHead} {entry : QueueEntry} {rest : List QueueEntry}
      (hlive : (⟨args.ledgerId, args.branch⟩ : RefKey) ∉ s.retracted)
      (hqueue : s.queues.lookup ⟨args.ledgerId, args.branch⟩ = some (entry :: rest))
      (hid : entry.queueId = args.queueId)
      (hmono : ∀ prior, s.refs.lookup ⟨args.ledgerId, args.branch⟩ = some prior →
        prior.t < args.commitT) :
      Transition order logIndex s (.applyHead args)
        { s with
          queues := putQueue s.queues ⟨args.ledgerId, args.branch⟩ rest
          refs := s.refs.insert ⟨args.ledgerId, args.branch⟩
            (advancedEntry (s.refs.lookup ⟨args.ledgerId, args.branch⟩) logIndex args)
          idempotency := recordedOutcome s.idempotency entry
            (appliedOutcome entry logIndex args) }
        (.headApplied (formatLedgerId args.ledgerId args.branch) args.commitId args.commitT
          entry.releasedNow)
  | poisoned {args : EntryPoisoning} {entry : QueueEntry} {rest : List QueueEntry}
      (hqueue : s.queues.lookup ⟨args.ledgerId, args.branch⟩ = some (entry :: rest))
      (hid : entry.queueId = args.queueId) :
      Transition order logIndex s (.poisonQueueEntry args)
        { s with
          queues := putQueue s.queues ⟨args.ledgerId, args.branch⟩ rest
          idempotency := recordedOutcome s.idempotency entry
            (failedOutcome entry logIndex args) }
        (.poisoned (formatLedgerId args.ledgerId args.branch) args.queueId args.reason
          entry.releasedNow)
  | evicted {cutoff markerCutoff : ℕ} :
      Transition order logIndex s (.evictIdempotency cutoff markerCutoff)
        { s with
          idempotency := eraseAll s.idempotency (evictionBatch order s cutoff)
          evictedIdempotencyCount :=
            (s.evictedIdempotencyCount + (evictionBatch order s cutoff).length) % 2 ^ 64
          recentlyCleared := retain s.recentlyCleared
            fun _ marker => markerCutoff ≤ marker.appliedAtMillis }
        (.evictionApplied (evictionBatch order s cutoff).length
          ((evictionBatch order s cutoff).filterMap (heldEnvelope s.idempotency)))

/-! ### Every command makes a transition

One lemma per apply path, in the order of the paths. The guards are read off
the branches that the path did not take. -/

variable (order : CacheOrder) (logIndex : ℕ) (s : NameServiceState)

/-- The transition a pair of next state and response amounts to. -/
def Makes (command : Command) (result : NameServiceState × Response) : Prop :=
  Transition order logIndex s command result.1 result.2

variable {command : Command} {result : NameServiceState × Response} {response : Response}

variable {order logIndex s} in
/-- A path that a guard refuses, and goes on behind it otherwise. -/
theorem makes_guard {p : Prop} [Decidable p] (hresponse : response.isRefusal = true)
    (h : ¬ p → Makes order logIndex s command result) :
    Makes order logIndex s command (if p then (s, response) else result) := by
  split
  · exact .refused hresponse
  · exact h ‹_›

variable {order logIndex s} in
theorem makes_known {ledgerId branch : String} (hresponse : response.isRefusal = true)
    (h : s.Registered ⟨ledgerId, branch⟩ → Makes order logIndex s command result) :
    Makes order logIndex s command
      (if !s.knows ledgerId branch then (s, response) else result) := by
  refine makes_guard hresponse fun hknown => h (knows_iff.mp ?_)
  simpa using hknown

theorem createLedger_of_not_registered {args : NewLedger}
    (hnew : ¬ s.Registered ⟨args.ledgerId, args.branch⟩) :
    createLedger s logIndex args =
      ({ s with
          ledgers := s.ledgers.insert args.ledgerId
            ((s.ledgerFor logIndex args).pushBranch args.branch) },
        .created (formatLedgerId args.ledgerId args.branch)) := by
  unfold createLedger NameServiceState.ledgerFor
  cases hledger : s.ledgers.lookup args.ledgerId with
  | none => simp
  | some ledger =>
    have hmem : args.branch ∉ ledger.branches := fun h => hnew ⟨ledger, hledger, h⟩
    simp [hmem]

theorem createLedger_makes (args : NewLedger) :
    Makes order logIndex s (.createLedger args) (createLedger s logIndex args) := by
  by_cases hknown : s.Registered ⟨args.ledgerId, args.branch⟩
  · obtain ⟨ledger, hledger, hmem⟩ := hknown
    have hsame : s.ledgers.insert args.ledgerId ledger = s.ledgers :=
      insert_of_lookup hledger
    unfold createLedger
    simp only [hledger, getD_some, hmem, hsame]
    exact .refused rfl
  · rw [createLedger_of_not_registered logIndex s hknown]
    exact .ledgerCreated hknown

variable (ledgerId branch : String)

theorem retractLedger_makes (millis : ℕ) :
    Makes order logIndex s (.retractLedger ledgerId branch millis)
      (retractLedger s ledgerId branch millis) := by
  refine makes_known rfl fun hknown => makes_guard rfl fun hlive => ?_
  simp only [clearQueueForAdmin_eq]
  exact .branchRetracted hknown hlive

theorem createBranch_makes (args : NewBranch) :
    Makes order logIndex s (.createBranch args) (createBranch s logIndex args) := by
  unfold createBranch
  cases hledger : s.ledgers.lookup args.ledgerId with
  | none => exact .refused rfl
  | some ledger =>
    refine makes_guard rfl fun hmem => ?_
    dsimp only
    cases hsource : s.refs.lookup ⟨args.ledgerId, args.sourceBranch⟩ with
    | none => exact .refused rfl
    | some => exact .branchForked hledger hmem hsource

/-- The removal that dropping and purging share, as the paths compute it. -/
theorem removed_eq (key : RefKey) (reason : ClearReason) (millis : ℕ) :
    clearQueueForAdmin
      (match (s.refs.lookup key).bind sourceBranch with
        | some parent =>
          (decrementChildCount
            { s with
              refs := s.refs.erase key
              retracted := s.retracted.erase key
              ledgers := removeBranch s.ledgers key.ledgerName key.branch }
            key.ledgerName parent).1
        | none =>
          { s with
            refs := s.refs.erase key
            retracted := s.retracted.erase key
            ledgers := removeBranch s.ledgers key.ledgerName key.branch })
      key reason millis = (removed s key reason millis, drainedEnvelopes s key) := by
  unfold removed removedRefs
  cases (s.refs.lookup key).bind sourceBranch with
  | none =>
    rw [clearQueueForAdmin_eq]
    rfl
  | some =>
    simp only [decrementChildCount_fst, clearQueueForAdmin_eq]
    rfl

theorem dropBranch_makes (millis : ℕ) :
    Makes order logIndex s (.dropBranch ledgerId branch millis)
      (dropBranch s ledgerId branch millis) := by
  refine makes_known rfl fun hknown => ?_
  cases hchildren : s.childrenOf ⟨ledgerId, branch⟩ with
  | some => exact .refused rfl
  | none =>
    have hremoved := removed_eq s ⟨ledgerId, branch⟩ .branchDropped millis
    cases hsource : (s.refs.lookup ⟨ledgerId, branch⟩).bind sourceBranch with
    | _ =>
      simp only [hsource] at hremoved ⊢
      rw [hremoved]
      exact .branchDropped hknown hchildren

variable {s} in
/-- Removing a branch that is not registered changes nothing: no other map
holds its key. -/
theorem removed_of_not_registered (hs : WellFormed s) {key : RefKey}
    (hkey : ¬ s.Registered key) (reason : ClearReason) (millis : ℕ) :
    removed s key reason millis = s := by
  have hrefs := hs.unborn_of_not_registered hkey
  have hqueue := hs.no_queue_of_not_registered hkey
  have hretracted : key ∉ s.retracted := fun h => hkey (hs.retracted_registered key h)
  have hledgers : removeBranch s.ledgers key.ledgerName key.branch = s.ledgers := by
    apply Finmap.ext_lookup
    intro a
    rw [lookup_removeBranch]
    split
    · subst a
      cases hledger : s.ledgers.lookup key.ledgerName with
      | none => rfl
      | some ledger =>
        have hmem : key.branch ∉ ledger.branches := fun h => hkey ⟨ledger, hledger, h⟩
        have hsame : ledger.retainOthers key.branch = ledger := by
          have hfilter : ledger.branches.filter (· ≠ key.branch) = ledger.branches :=
            filter_eq_self.mpr fun b hb => decide_eq_true fun h => hmem (h ▸ hb)
          rw [LedgerRecord.retainOthers, hfilter]
        have hne := hs.branches_ne_nil _ _ hledger
        simp [hsame, hne, filter_some]
    · rfl
  unfold removed removedRefs stampCleared
  simp [hrefs, erase_of_lookup_none hrefs, erase_of_lookup_none hqueue,
    Finset.erase_eq_of_notMem hretracted, hledgers, queueOf_eq_nil_of_lookup hqueue]

/-- A purge that passes its guard removes the branch whatever it then answers. -/
theorem purgeBranch_eq {ledgerId branch : String}
    (hchildren : s.childrenOf ⟨ledgerId, branch⟩ = none) (millis : ℕ) :
    purgeBranch s ledgerId branch millis =
      (removed s ⟨ledgerId, branch⟩ .branchPurged millis,
        if (s.refs.lookup ⟨ledgerId, branch⟩).isSome ||
            decide ((⟨ledgerId, branch⟩ : RefKey) ∈ s.retracted) || s.knows ledgerId branch
        then .purged (formatLedgerId ledgerId branch) (drainedEnvelopes s ⟨ledgerId, branch⟩)
        else .alreadyPurged (formatLedgerId ledgerId branch)) := by
  unfold purgeBranch
  have hremoved := removed_eq s ⟨ledgerId, branch⟩ .branchPurged millis
  cases hsource : (s.refs.lookup ⟨ledgerId, branch⟩).bind sourceBranch with
  | _ =>
    simp only [hsource, hchildren] at hremoved ⊢
    rw [hremoved]
    split <;> rfl

variable {s} in
theorem purgeBranch_makes (hs : WellFormed s) (ledgerId branch : String) (millis : ℕ) :
    Makes order logIndex s (.purgeBranch ledgerId branch millis)
      (purgeBranch s ledgerId branch millis) := by
  cases hchildren : s.childrenOf ⟨ledgerId, branch⟩ with
  | some =>
    simp only [purgeBranch, hchildren]
    exact .refused rfl
  | none =>
    rw [purgeBranch_eq s hchildren]
    cases hknown : s.knows ledgerId branch with
    | true =>
      simp only [Bool.or_true, if_true]
      exact .branchPurged (knows_iff.mp hknown) hchildren
    | false =>
      have hkey := knows_eq_false_iff.mp hknown
      have hretracted : (⟨ledgerId, branch⟩ : RefKey) ∉ s.retracted :=
        fun h => hkey (hs.retracted_registered _ h)
      simp only [hs.unborn_of_not_registered hkey, hretracted, isSome_none,
        decide_false, Bool.or_false, Bool.false_eq_true, if_false,
        removed_of_not_registered hs hkey]
      exact .refused rfl

theorem resetHead_makes (snapshot : ResetHeadSnapshot) (millis : ℕ) :
    Makes order logIndex s (.resetHead ledgerId branch snapshot millis)
      (resetHead s ledgerId branch snapshot millis) := by
  refine makes_known rfl fun hknown => makes_guard rfl fun hlive => ?_
  cases hsnapshot : snapshot.commitHeadId with
  | none =>
    simp only [clearQueueForAdmin_eq]
    exact .headErased hknown hlive hsnapshot
  | some =>
    simp only [clearQueueForAdmin_eq]
    exact .headRewritten hknown hlive hsnapshot

variable (args : NewIndexHead)

theorem setIndexHead_makes (isStale : ℤ → ℤ → Bool) (command : Command)
    (hcommand : command = .advanceIndexHead args ∨ command = .rewriteIndexHead args)
    (hle : ∀ existingT, isStale existingT args.t = false → existingT ≤ args.t) :
    Makes order logIndex s command (setIndexHead s args isStale) := by
  unfold setIndexHead
  cases s.ledgers.lookup args.ledgerId with
  | none => exact .refused rfl
  | some =>
    refine makes_guard rfl fun hlive => ?_
    cases hentry : s.refs.lookup ⟨args.ledgerId, args.branch⟩ with
    | none => exact .refused rfl
    | some entry =>
      dsimp only
      cases hindex : entry.index.filter fun existing => isStale existing.t args.t with
      | some => exact .refused rfl
      | none =>
        refine makes_guard rfl fun hahead => ?_
        refine .indexPublished hcommand hlive hentry ?_ (by omega)
        intro existing hexisting
        have hfresh := filter_eq_none_iff.mp hindex existing hexisting
        exact hle _ (eq_false_of_not_eq_true hfresh)

theorem advanceIndexHead_makes :
    Makes order logIndex s (.advanceIndexHead args) (advanceIndexHead s args) := by
  apply setIndexHead_makes _ _ _ _ _ _ (.inl rfl)
  intro existingT h
  have := of_decide_eq_false h
  omega

theorem rewriteIndexHead_makes :
    Makes order logIndex s (.rewriteIndexHead args) (rewriteIndexHead s args) := by
  apply setIndexHead_makes _ _ _ _ _ _ (.inr rfl)
  intro existingT h
  have := of_decide_eq_false h
  omega

theorem applyCompareAndSetRef_makes (args : RefCas) :
    Makes order logIndex s (.compareAndSetRef args) (applyCompareAndSetRef s logIndex args) := by
  unfold applyCompareAndSetRef currentRefValue
  dsimp only
  cases hknown : s.knows args.ledgerId args.branch with
  | false => exact .refused rfl
  | true =>
    cases hkind : args.kind with
    | commitHead =>
      refine makes_guard rfl fun hlive => makes_guard rfl fun _ => makes_guard rfl fun hmono => ?_
      cases hhead : args.new.id with
      | none => exact .refused rfl
      | some =>
        refine .commitSwapped hkind (knows_iff.mp hknown) hlive hhead ?_
        intro entry hentry
        simpa [RefKind.monotonic, hentry] using hmono
    | indexHead =>
      refine makes_guard rfl fun hlive => makes_guard rfl fun _ => makes_guard rfl fun hmono => ?_
      cases hentry : s.refs.lookup ⟨args.ledgerId, args.branch⟩ with
      | none => exact .refused rfl
      | some =>
        refine makes_guard rfl fun hahead => ?_
        refine .indexSwapped hkind hlive hentry ?_ (by omega)
        intro existing hexisting
        simpa [RefKind.monotonic, hentry, hexisting] using hmono

theorem applyPushStatus_makes (ledgerId : String) (expected : Option StoredStatus)
    (new : StoredStatus) :
    Makes order logIndex s (.pushStatus ledgerId expected new)
      (applyPushStatus s ledgerId expected new) := by
  unfold applyPushStatus applyVersionedPush
  cases splitLedgerId ledgerId with
  | error => exact .refused rfl
  | ok =>
    dsimp only
    split
    · exact .refused rfl
    split
    · exact .refused rfl
    split
    · exact .refused rfl
    · exact .statusPushed (not_le.mp ‹_›)

theorem applyPushConfig_makes (args : ConfigUpdate) :
    Makes order logIndex s (.pushConfig args) (applyPushConfig s args) := by
  unfold applyPushConfig applyVersionedPush
  cases splitLedgerId args.ledgerId with
  | error => exact .refused rfl
  | ok =>
    dsimp only
    split
    · exact .refused rfl
    split
    · exact .refused rfl
    split
    · exact .refused rfl
    · exact .configPushed (not_le.mp ‹_›)

theorem applyPublishGraphSourceIndex_makes (name branch : String) (indexId : ContentId)
    (indexT : ℤ) :
    Makes order logIndex s (.publishGraphSourceIndex name branch indexId indexT)
      (applyPublishGraphSourceIndex s name branch indexId indexT) := by
  unfold applyPublishGraphSourceIndex
  dsimp only
  split
  · exact .refused rfl
  split
  · exact .refused rfl
  · exact .peripheral rfl rfl

theorem applyRetractGraphSource_makes (name branch : String) :
    Makes order logIndex s (.retractGraphSource name branch)
      (applyRetractGraphSource s name branch) := by
  unfold applyRetractGraphSource
  dsimp only
  split
  · exact .refused rfl
  split
  · exact .refused rfl
  · exact .peripheral rfl rfl

theorem applySetWorkerEligibility_makes (args : WorkerEligibility) :
    Makes order logIndex s (.setWorkerEligibility args) (applySetWorkerEligibility s args) := by
  unfold applySetWorkerEligibility
  split
  · exact .refused rfl
  split
  · exact .peripheral rfl rfl
  · exact .peripheral rfl rfl

theorem seenBefore_isRefusal {s : NameServiceState} {args : QueueSubmission}
    {response : Response} (h : seenBefore s args = some response) : response.isRefusal = true := by
  unfold seenBefore at h
  cases hkey : args.idempotency with
  | none => simp [hkey] at h
  | some cacheKey =>
    simp only [hkey] at h
    cases hcache : s.idempotency.lookup cacheKey with
    | some outcome =>
      simp only [hcache, some.injEq] at h
      subst h
      unfold ApplyOutcome.answer
      split
      · rfl
      · cases outcome with
        | applied | failed => rfl
    | none =>
      simp only [hcache, map_eq_some_iff] at h
      obtain ⟨entry, -, rfl⟩ := h
      unfold QueueEntry.answer
      split <;> rfl

theorem applyEnqueueCommand_makes (args : QueueSubmission) :
    Makes order logIndex s (.enqueueCommand args) (applyEnqueueCommand s logIndex args) := by
  refine makes_known rfl fun hknown => makes_guard rfl fun hlive => ?_
  cases hseen : seenBefore s args with
  | some => exact .refused (seenBefore_isRefusal hseen)
  | none =>
    refine makes_guard rfl fun hbranch => makes_guard rfl fun hglobal => ?_
    exact .enqueued hknown hlive hseen (not_le.mp hbranch) (not_le.mp hglobal)

theorem settleEntry_eq (entry : QueueEntry) (outcome : ApplyOutcome) :
    settleEntry s entry outcome =
      ({ s with idempotency := recordedOutcome s.idempotency entry outcome },
        entry.releasedNow) := by
  unfold settleEntry recordedOutcome QueueEntry.releasedNow
  cases entry.idempotency with
  | none => rfl
  | some => rfl

variable {s} in
theorem applyHead_makes (hs : WellFormed s) (args : StagedHead) :
    Makes order logIndex s (.applyHead args) (applyHead s logIndex args) := by
  unfold applyHead
  dsimp only
  split
  · exact .refused rfl
  rename_i hlive
  have hpopped := popValidatedFront_popped s ⟨args.ledgerId, args.branch⟩ args.queueId
  generalize popValidatedFront s ⟨args.ledgerId, args.branch⟩ args.queueId = popped
    at hpopped ⊢
  cases hpopped with
  | cleared marker hmarker => exact .markerConsumed rfl hmarker
  | desync response hresponse => exact .refused hresponse
  | front entry rest hqueue hid =>
    dsimp only
    cases hprior : (s.refs.lookup ⟨args.ledgerId, args.branch⟩).filter
        fun existing => args.commitT ≤ existing.t with
    | some existing =>
      -- The popped entry goes back to the front of the queue it came from.
      have hback : modify (s.queues.insert ⟨args.ledgerId, args.branch⟩ rest)
          ⟨args.ledgerId, args.branch⟩ (fun queue => entry :: queue) = s.queues := by
        rw [modify_of_some (Finmap.lookup_insert _), Finmap.insert_insert]
        exact insert_of_lookup hqueue
      simp only [hback]
      exact .refused rfl
    | none =>
      -- A queued branch is registered: the self-healing step has nothing to do.
      have hregistered := hs.queues_registered _ _ hqueue
      simp only [dropQueueIfEmpty_eq, registerBranch_of_registered hregistered,
        settleEntry_eq]
      refine .headApplied hlive hqueue hid ?_
      intro prior hfound
      have := filter_eq_none_iff.mp hprior prior hfound
      simpa using this

theorem applyPoisonQueueEntry_makes (args : EntryPoisoning) :
    Makes order logIndex s (.poisonQueueEntry args)
      (applyPoisonQueueEntry s logIndex args) := by
  unfold applyPoisonQueueEntry
  dsimp only
  have hpopped := popValidatedFront_popped s ⟨args.ledgerId, args.branch⟩ args.queueId
  generalize popValidatedFront s ⟨args.ledgerId, args.branch⟩ args.queueId = popped
    at hpopped ⊢
  cases hpopped with
  | cleared marker hmarker => exact .markerConsumed rfl hmarker
  | desync response hresponse => exact .refused hresponse
  | front entry rest hqueue hid =>
    simp only [dropQueueIfEmpty_eq, settleEntry_eq]
    exact .poisoned hqueue hid

/-- The keys of a batch are distinct: each comes from its own cache entry. -/
theorem evictionBatch_nodup (cutoff : ℕ) : (evictionBatch order s cutoff).Nodup := by
  have hkeys : ∀ entries : List (IdempotencyCacheKey × ApplyOutcome),
      ((entries.filterMap (expiredAt cutoff)).map Expired.key).Sublist
        (entries.map Prod.fst) := by
    intro entries
    induction entries with
    | nil => exact .slnil
    | cons entry entries ih =>
      unfold expiredAt at ih ⊢
      by_cases hold : entry.2.recordedAtMillis < cutoff
      · simpa [hold] using ih
      · simpa [hold] using ih.cons entry.1
  -- sorting and truncating keep what iteration listed once
  have hlisted := (hkeys (order.iter s.idempotency)).nodup (order.nodup_keys s.idempotency)
  have hsorted := ((perm_insertionSort Expired.le _).map Expired.key).nodup_iff.mpr hlisted
  exact ((take_sublist _ _).map Expired.key).nodup hsorted

theorem filterMap_heldEnvelope_erase (cache : HashMap IdempotencyCacheKey ApplyOutcome)
    {key : IdempotencyCacheKey} {keys : List IdempotencyCacheKey} (hkey : key ∉ keys) :
    keys.filterMap (heldEnvelope (cache.erase key)) = keys.filterMap (heldEnvelope cache) := by
  apply filterMap_congr
  intro other hother
  have hne : other ≠ key := fun h => hkey (h ▸ hother)
  simp [heldEnvelope, hne]

/-- The eviction loop over distinct keys removes them all and collects the
envelopes of those that were present. -/
theorem foldl_evictOne {keys : List IdempotencyCacheKey} (hkeys : keys.Nodup)
    (cache : HashMap IdempotencyCacheKey ApplyOutcome) (released : List (String × ContentId)) :
    keys.foldl evictOne (cache, released) =
      (eraseAll cache keys, released ++ keys.filterMap (heldEnvelope cache)) := by
  induction keys generalizing cache released with
  | nil => simp [eraseAll]
  | cons key keys ih =>
    obtain ⟨hnew, hrest⟩ := nodup_cons.mp hkeys
    have hsame := filterMap_heldEnvelope_erase cache hnew
    change keys.foldl evictOne (evictOne (cache, released) key) =
      (eraseAll (cache.erase key) keys, _)
    cases hlookup : cache.lookup key with
    | none | some => simp [evictOne, hlookup, ih hrest, hsame, heldEnvelope]

theorem applyEvictIdempotency_makes (cutoff markerCutoff : ℕ) :
    Makes order logIndex s (.evictIdempotency cutoff markerCutoff)
      (applyEvictIdempotency order s cutoff markerCutoff) := by
  unfold applyEvictIdempotency
  simp only [foldl_evictOne (evictionBatch_nodup order s cutoff)]
  exact .evicted

variable {s} in
/-- Applying a command to a well-formed state makes one of the transitions. -/
theorem apply_transition (hs : WellFormed s) (command : Command) :
    Transition order logIndex s command (apply order s command logIndex).1
      (apply order s command logIndex).2 := by
  cases command with
  | advanceIndexHead => exact advanceIndexHead_makes ..
  | rewriteIndexHead => exact rewriteIndexHead_makes ..
  | createLedger => exact createLedger_makes ..
  | createBranch => exact createBranch_makes ..
  | dropBranch => exact dropBranch_makes ..
  | resetHead => exact resetHead_makes ..
  | retractLedger => exact retractLedger_makes ..
  | purgeBranch => exact purgeBranch_makes order logIndex hs ..
  | releaseContent => exact .refused rfl
  | compareAndSetRef => exact applyCompareAndSetRef_makes ..
  | pushStatus => exact applyPushStatus_makes ..
  | pushConfig => exact applyPushConfig_makes ..
  | publishGraphSource => exact .peripheral rfl rfl
  | publishGraphSourceIndex => exact applyPublishGraphSourceIndex_makes ..
  | retractGraphSource => exact applyRetractGraphSource_makes ..
  | enqueueCommand => exact applyEnqueueCommand_makes ..
  | applyHead => exact applyHead_makes order logIndex hs ..
  | poisonQueueEntry => exact applyPoisonQueueEntry_makes ..
  | evictIdempotency => exact applyEvictIdempotency_makes ..
  | setWorkerEligibility => exact applySetWorkerEligibility_makes ..

end FlureeDb.Consensus
