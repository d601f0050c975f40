import FlureeDb.Consensus.Command

/-!
What the state-machine adapter reads off an applied command: the event it
publishes, the waiters it wakes and the envelopes it hands to the release
task. Each is a function of the command and its response alone; none of them
sees the state.
-/

namespace FlureeDb.Consensus

open FlureeDb.Core Lib

inductive AbortReason
  | branchDropped
  | branchPurged
  | branchHeadReset
  | branchRetracted
  | snapshotInstalled
  | poisoned (reason : PoisonReason)
  deriving DecidableEq

inductive WaiterResolution
  | applied (queueId : ℕ) (commitId : ContentId) (commitT : ℤ)
  | aborted (queueId : ℕ) (reason : AbortReason)
  | abortBranch (refKey : RefKey) (reason : AbortReason)
  deriving DecidableEq

def waiterResolutionFor : Command → Response → Option WaiterResolution
  | .applyHead args, .headApplied _ commitId commitT _ =>
    some (.applied args.queueId commitId commitT)
  | .poisonQueueEntry _, .poisoned _ queueId reason _ =>
    some (.aborted queueId (.poisoned reason))
  | .dropBranch ledgerId branch _, .branchDropped _ _ _ =>
    some (.abortBranch ⟨ledgerId, branch⟩ .branchDropped)
  | .purgeBranch ledgerId branch _, .purged _ _ =>
    some (.abortBranch ⟨ledgerId, branch⟩ .branchPurged)
  | .resetHead ledgerId branch _ _, .headReset _ _ =>
    some (.abortBranch ⟨ledgerId, branch⟩ .branchHeadReset)
  | .retractLedger ledgerId branch _, .retracted _ _ =>
    some (.abortBranch ⟨ledgerId, branch⟩ .branchRetracted)
  | _, _ => none

inductive NameServiceEvent
  | ledgerCommitPublished (ledgerId : String) (commitId : ContentId) (commitT : ℤ)
  | ledgerIndexPublished (ledgerId : String) (indexId : ContentId) (indexT : ℤ)
  | ledgerRetracted (ledgerId : String)
  deriving DecidableEq

def eventFor : Command → Response → Option NameServiceEvent
  | .applyHead args, .headApplied _ commitId commitT _ =>
    some (.ledgerCommitPublished (formatLedgerId args.ledgerId args.branch) commitId commitT)
  | .advanceIndexHead args, .indexAdvanced indexT indexHead =>
    some (.ledgerIndexPublished (formatLedgerId args.ledgerId args.branch) indexHead indexT)
  | .retractLedger _ _ _, .retracted ledgerId _ => some (.ledgerRetracted ledgerId)
  | .purgeBranch _ _ _, .purged ledgerId _ => some (.ledgerRetracted ledgerId)
  | .dropBranch _ _ _, .branchDropped ledgerId _ _ => some (.ledgerRetracted ledgerId)
  | .createBranch _, .branchCreated ledgerId head t =>
    some (.ledgerCommitPublished ledgerId head t)
  | _, _ => none

/-- The `(ledger_id, request_cid)` pairs a response flags for release. -/
def drainReleases : Response → List (String × ContentId)
  | .evictionApplied _ released | .purged _ released | .branchDropped _ _ released
  | .headReset _ released | .retracted _ released => released
  | .headApplied ledgerId _ _ released | .poisoned ledgerId _ _ released =>
    (released.map fun cid => (ledgerId, cid)).toList
  | _ => []

end FlureeDb.Consensus
