import FlureeDb.Consensus.Data

/-!
The commands that travel through the log and the responses of applying them.
-/

namespace FlureeDb.Consensus

open FlureeDb.Core Lib

structure ConfigUpdate where
  ledgerId : String
  expected : Option StoredConfig
  new : StoredConfig

structure QueueSubmission where
  ledgerId : String
  branch : String
  idempotency : Option IdempotencyCacheKey
  requestCid : ContentId
  bodyCid : ContentId
  bodyKind : BodyKind
  appliedAtMillis : ℕ

structure StagedHead where
  ledgerId : String
  branch : String
  queueId : ℕ
  commitId : ContentId
  commitT : ℤ
  appliedAtMillis : ℕ
  tally : Option RecordedTally
  flakeCount : ℕ

structure EntryPoisoning where
  ledgerId : String
  branch : String
  queueId : ℕ
  reason : PoisonReason
  appliedAtMillis : ℕ

structure WorkerEligibility where
  voter : NodeId
  eligible : Bool
  appliedAtMillis : ℕ

structure NewIndexHead where
  ledgerId : String
  branch : String
  newIndexHead : ContentId
  t : ℤ
  appliedAtMillis : ℕ

structure RefCas where
  ledgerId : String
  branch : String
  kind : RefKind
  expected : Option RefValue
  new : RefValue
  appliedAtMillis : ℕ

structure NewLedger where
  ledgerId : String
  branch : String
  createdAtMillis : ℕ

structure NewBranch where
  ledgerId : String
  branch : String
  sourceBranch : String
  atCommit : Option (ContentId × ℤ)
  appliedAtMillis : ℕ

/-- The head, time and index a reset writes; no commit head means unborn. -/
structure ResetHeadSnapshot where
  commitHeadId : Option ContentId
  commitT : ℤ
  indexHeadId : Option ContentId
  indexT : ℤ

inductive Command
  | advanceIndexHead (args : NewIndexHead)
  | rewriteIndexHead (args : NewIndexHead)
  | createLedger (args : NewLedger)
  | createBranch (args : NewBranch)
  | dropBranch (ledgerId branch : String) (appliedAtMillis : ℕ)
  | resetHead (ledgerId branch : String) (snapshot : ResetHeadSnapshot)
      (appliedAtMillis : ℕ)
  | retractLedger (ledgerId branch : String) (appliedAtMillis : ℕ)
  | purgeBranch (ledgerId branch : String) (appliedAtMillis : ℕ)
  | releaseContent (id : ContentId)
  | compareAndSetRef (args : RefCas)
  | pushStatus (ledgerId : String) (expected : Option StoredStatus) (new : StoredStatus)
  | pushConfig (args : ConfigUpdate)
  | publishGraphSource (name branch : String) (sourceType : GraphSourceType)
      (config : String) (dependencies : List String)
  | publishGraphSourceIndex (name branch : String) (indexId : ContentId) (indexT : ℤ)
  | retractGraphSource (name branch : String)
  | enqueueCommand (args : QueueSubmission)
  | applyHead (args : StagedHead)
  | poisonQueueEntry (args : EntryPoisoning)
  | evictIdempotency (cutoffMillis markerCutoffMillis : ℕ)
  | setWorkerEligibility (args : WorkerEligibility)

/-! ### Responses -/

inductive QueueFullScope
  | perBranch
  | global
  deriving DecidableEq

inductive EligibilityRefusal
  | voterNotConfigured
  deriving DecidableEq

inductive DesyncReason
  | wrongFront (actualQueueId : ℕ)
  | queueCleared (reason : ClearReason)
  | headNotMonotonic (currentT proposedT : ℤ)
  | invariantViolated (description : String)
  deriving DecidableEq

inductive Response
  | indexAdvanced (indexT : ℤ) (indexHead : ContentId)
  | indexStale (currentT : ℤ)
  | indexAhead (commitT proposedT : ℤ)
  | refCasUpdated
  | refCasConflict (actual : Option RefValue)
  | statusUpdated
  | statusConflict (actual : Option StoredStatus)
  | configUpdated
  | configConflict (actual : Option StoredConfig)
  | graphSourcePublished
  | graphSourceIndexAdvanced (indexT : ℤ)
  | graphSourceIndexStale (currentT : ℤ)
  | graphSourceNotFound (graphSourceId : String)
  | graphSourceRetracted (graphSourceId : String)
  | graphSourceAlreadyRetracted (graphSourceId : String)
  | created (ledgerId : String)
  | alreadyExists (ledgerId : String)
  | branchCreated (ledgerId : String) (head : ContentId) (t : ℤ)
  | sourceBranchNotFound (ledgerId : String)
  | branchDropped (ledgerId : String) (parentBranches : Option ℕ)
      (releasedEnvelopes : List (String × ContentId))
  | branchHasChildren (ledgerId : String) (children : ℕ)
  | headReset (ledgerId : String) (releasedEnvelopes : List (String × ContentId))
  | retracted (ledgerId : String) (releasedEnvelopes : List (String × ContentId))
  | alreadyRetracted (ledgerId : String)
  | ledgerRetracted (ledgerId : String)
  | purged (ledgerId : String) (releasedEnvelopes : List (String × ContentId))
  | alreadyPurged (ledgerId : String)
  | ledgerNotFound (ledgerId : String)
  | bodyHashMismatch
  | enqueued (ledgerId : String) (queueId : ℕ)
  | idempotencyHit (record : ApplyRecord)
  | idempotencyFailed (record : PoisonRecord)
  | inFlight (ledgerId : String) (queueId : ℕ)
  | queueFull (ledgerId : String) (depth cap : ℕ) (scope : QueueFullScope)
  | headApplied (ledgerId : String) (commitId : ContentId) (commitT : ℤ)
      (releasedEnvelope : Option ContentId)
  | queueDesync (ledgerId : String) (requestedQueueId : ℕ) (reason : DesyncReason)
  | poisoned (ledgerId : String) (queueId : ℕ) (reason : PoisonReason)
      (releasedEnvelope : Option ContentId)
  | evictionApplied (removed : ℕ) (releasedEnvelopes : List (String × ContentId))
  | workerEligibilitySet (voter : NodeId) (eligible changed : Bool)
  | workerEligibilityRefused (voter : NodeId) (eligible : Bool) (reason : EligibilityRefusal)
  | noOp

/-- The responses that refuse a command or report that there was nothing to
do. A cleared queue is told apart: its marker is consumed. -/
def Response.isRefusal : Response → Bool
  | .indexStale _ | .indexAhead _ _ | .refCasConflict _ | .statusConflict _
  | .configConflict _ | .graphSourceIndexStale _ | .graphSourceNotFound _
  | .graphSourceAlreadyRetracted _ | .alreadyExists _ | .sourceBranchNotFound _
  | .branchHasChildren _ _ | .alreadyRetracted _ | .ledgerRetracted _ | .alreadyPurged _
  | .ledgerNotFound _ | .bodyHashMismatch | .idempotencyHit _ | .idempotencyFailed _
  | .inFlight _ _ | .queueFull _ _ _ _ | .workerEligibilityRefused _ _ _ | .noOp => true
  | .queueDesync _ _ (.wrongFront _) | .queueDesync _ _ (.invariantViolated _)
  | .queueDesync _ _ (.headNotMonotonic _ _) => true
  | _ => false

end FlureeDb.Consensus
