import FlureeDb.Consensus.StateMachine

/-!
The shape a registry keeps, and the equations that say what the shared helpers
of the apply paths do to a state. Later modules cite these equations and never
unfold the helpers.
-/

namespace FlureeDb.Consensus

open FlureeDb.Core Lib NameServiceState

def NameServiceState.Registered (s : NameServiceState) (key : RefKey) : Prop :=
  ∃ ledger, s.ledgers.lookup key.ledgerName = some ledger ∧ key.branch ∈ ledger.branches

variable {s : NameServiceState} {ledgerId branch : String}

theorem knows_iff : s.knows ledgerId branch = true ↔ s.Registered ⟨ledgerId, branch⟩ := by
  unfold knows Registered
  cases s.ledgers.lookup ledgerId with
  | none => simp
  | some => simp

theorem knows_eq_false_iff :
    s.knows ledgerId branch = false ↔ ¬ s.Registered ⟨ledgerId, branch⟩ := by
  rw [← knows_iff, Bool.not_eq_true]

/-! ### The well-formed states

Every clause is about what is stored: a key of one map names something in
another, a stored queue is worth storing. That a missing queue is the same as
an empty one, for instance, is a consequence that the clauses are there to
keep. -/

/-- Registry and queues fit together. -/
structure WellFormed (s : NameServiceState) : Prop where
  refs_registered : ∀ key entry, s.refs.lookup key = some entry → s.Registered key
  retracted_registered : ∀ key ∈ s.retracted, s.Registered key
  queues_registered : ∀ key queue, s.queues.lookup key = some queue → s.Registered key
  branches_ne_nil : ∀ ledgerId ledger,
    s.ledgers.lookup ledgerId = some ledger → ledger.branches ≠ []
  branches_nodup : ∀ ledgerId ledger,
    s.ledgers.lookup ledgerId = some ledger → ledger.branches.Nodup
  queue_ne_nil : ∀ key queue, s.queues.lookup key = some queue → queue ≠ []
  queue_not_retracted : ∀ key queue, s.queues.lookup key = some queue → key ∉ s.retracted
  queue_le_cap : ∀ key queue, s.queues.lookup key = some queue →
    queue.length ≤ s.queueConfig.perBranchCap
  global_le_cap : s.globalDepth ≤ s.queueConfig.globalCap
  marker_no_queue : ∀ key marker, s.recentlyCleared.lookup key = some marker →
    s.queues.lookup key = none

theorem wellFormed_new : WellFormed new := by
  constructor <;> simp [new, globalDepth]

variable {key : RefKey}

theorem WellFormed.unborn_of_not_registered (hs : WellFormed s) (hkey : ¬ s.Registered key) :
    s.refs.lookup key = none :=
  Option.eq_none_iff_forall_ne_some.mpr fun entry h => hkey (hs.refs_registered key entry h)

theorem WellFormed.no_queue_of_not_registered (hs : WellFormed s) (hkey : ¬ s.Registered key) :
    s.queues.lookup key = none :=
  Option.eq_none_iff_forall_ne_some.mpr fun queue h => hkey (hs.queues_registered key queue h)

theorem queueOf_eq_of_lookup {queue : List QueueEntry} (h : s.queues.lookup key = some queue) :
    s.queueOf key = queue := by
  simp [queueOf, h]

theorem queueOf_eq_nil_of_lookup (h : s.queues.lookup key = none) : s.queueOf key = [] := by
  simp [queueOf, h]

/-- The queue of a branch with entries is stored, the branch is registered, it
is not retracted and it has no marker. -/
theorem WellFormed.of_queueOf_ne_nil (hs : WellFormed s) (h : s.queueOf key ≠ []) :
    s.queues.lookup key = some (s.queueOf key) ∧ s.Registered key ∧ key ∉ s.retracted ∧
      s.recentlyCleared.lookup key = none := by
  cases hqueue : s.queues.lookup key with
  | none => exact absurd (queueOf_eq_nil_of_lookup hqueue) h
  | some queue =>
    refine ⟨by rw [queueOf_eq_of_lookup hqueue], hs.queues_registered key queue hqueue,
      hs.queue_not_retracted key queue hqueue,
      Option.eq_none_iff_forall_ne_some.mpr fun marker hmarker => ?_⟩
    rw [hs.marker_no_queue key marker hmarker] at hqueue
    cases hqueue

variable (queues : HashMap RefKey (List QueueEntry))

/-- The queues with the queue of one branch replaced; an empty replacement is
not stored. -/
def putQueue (key : RefKey) (queue : List QueueEntry) : HashMap RefKey (List QueueEntry) :=
  if queue.isEmpty then queues.erase key else queues.insert key queue

theorem lookup_putQueue (key a : RefKey) (queue : List QueueEntry) :
    (putQueue queues key queue).lookup a =
      if a = key then (if queue = [] then none else some queue) else queues.lookup a := by
  unfold putQueue
  cases queue with
  | nil => simp
  | cons => simp

/-! ### Equations of the shared helpers -/

variable (s)

/-- The markers after a queue was cleared: stamped exactly if it held entries. -/
def stampCleared (key : RefKey) (reason : ClearReason)
    (appliedAtMillis : ℕ) : HashMap RefKey ClearMarker :=
  if (s.queueOf key).isEmpty then s.recentlyCleared
  else s.recentlyCleared.insert key ⟨reason, appliedAtMillis⟩

def drainedEnvelopes (key : RefKey) : List (String × ContentId) :=
  (s.queueOf key).map fun entry => (key.ledgerId, entry.requestCid)

theorem clearQueueForAdmin_eq (key : RefKey) (reason : ClearReason) (appliedAtMillis : ℕ) :
    clearQueueForAdmin s key reason appliedAtMillis =
      ({ s with
          queues := s.queues.erase key
          recentlyCleared := stampCleared s key reason appliedAtMillis },
        drainedEnvelopes s key) := by
  unfold clearQueueForAdmin stampCleared drainedEnvelopes
  cases h : s.queues.lookup key with
  | none => simp [queueOf_eq_nil_of_lookup h, HashMap.erase_of_lookup_none h]
  | some queue =>
    cases queue with
    | nil | cons => simp [queueOf_eq_of_lookup h]

/-- The counter step of `decrementChildCount` on one entry. -/
def RefEntry.decrement (entry : RefEntry) : RefEntry :=
  { entry with branches := entry.branches - 1 }

theorem decrementChildCount_fst (ledgerId parentBranch : String) :
    (decrementChildCount s ledgerId parentBranch).1 =
      { s with
        refs := HashMap.modify s.refs ⟨ledgerId, parentBranch⟩ RefEntry.decrement } := by
  unfold decrementChildCount HashMap.modify
  cases s.refs.lookup ⟨ledgerId, parentBranch⟩ with
  | none => rfl
  | some => rfl

theorem lookup_removeBranch (ledgers : HashMap String LedgerRecord) (ledgerId branch a : String) :
    (removeBranch ledgers ledgerId branch).lookup a =
      if a = ledgerId then
        ((ledgers.lookup ledgerId).map fun ledger => ledger.retainOthers branch).filter
          fun ledger => !ledger.branches.isEmpty
      else ledgers.lookup a := by
  unfold removeBranch
  cases h : ledgers.lookup ledgerId with
  | none =>
    by_cases ha : a = ledgerId
    · subst a
      simp [h]
    · simp [ha]
  | some ledger =>
    cases hempty : (ledger.retainOthers branch).branches.isEmpty with
    | true | false => simp [hempty, Option.filter_some]

/-- Popping through `popValidatedFront` and then dropping an emptied queue is a
replacement of the queue. -/
theorem dropQueueIfEmpty_eq (key : RefKey) (rest : List QueueEntry) :
    dropQueueIfEmpty { s with queues := s.queues.insert key rest } key =
      { s with queues := putQueue s.queues key rest } := by
  unfold dropQueueIfEmpty putQueue
  cases rest with
  | nil => simp
  | cons => simp

variable {s}

theorem registerBranch_of_registered (h : s.Registered ⟨ledgerId, branch⟩) :
    registerBranch s.ledgers ledgerId branch = s.ledgers := by
  obtain ⟨ledger, hledger, hmem⟩ := h
  simp [registerBranch, hledger, hmem]

inductive Popped (s : NameServiceState) (key : RefKey) (requested : ℕ) :
    NameServiceState × Except Response QueueEntry → Prop
  | cleared (marker : ClearMarker) (hmarker : s.recentlyCleared.lookup key = some marker) :
      Popped s key requested
        ({ s with recentlyCleared := s.recentlyCleared.erase key },
          .error (.queueDesync key.ledgerId requested (.queueCleared marker.reason)))
  | desync (response : Response) (hresponse : response.isRefusal = true) :
      Popped s key requested (s, .error response)
  | front (entry : QueueEntry) (rest : List QueueEntry)
      (hqueue : s.queues.lookup key = some (entry :: rest))
      (hid : entry.queueId = requested) :
      Popped s key requested ({ s with queues := s.queues.insert key rest }, .ok entry)

theorem popValidatedFront_popped (s : NameServiceState) (key : RefKey) (requested : ℕ) :
    Popped s key requested (popValidatedFront s key requested) := by
  unfold popValidatedFront
  cases hmarker : s.recentlyCleared.lookup key with
  | some marker => exact .cleared marker hmarker
  | none =>
    cases hqueue : s.queues.lookup key with
    | none => exact .desync _ rfl
    | some queue =>
      cases queue with
      | nil => exact .desync _ rfl
      | cons entry rest =>
        dsimp only
        split <;> rename_i hid
        · exact .desync _ rfl
        · exact .front entry rest hqueue (not_not.mp hid)

end FlureeDb.Consensus
