import FlureeDb.Consensus.Adapter
import FlureeDb.Consensus.Registry

/-!
The command queues and the cache of outcomes, seen apart from the rest of the
state. Of all transitions only five kinds touch them: a submission is appended
to one queue, the front of one queue retires and its outcome is settled, one
queue is cleared, a batch of outcomes is evicted, or nothing happens. What the
adapter reads off the response goes with the kind.

The first use of this view is that queue ids are handed out in order and never
twice.
-/

namespace FlureeDb.Consensus

open FlureeDb.Core Lib List Function

inductive Settles (logIndex : ℕ) (entry : QueueEntry) :
    Command → Response → RefKey → ApplyOutcome → Prop
  | applied (args : StagedHead) (hid : entry.queueId = args.queueId) :
      Settles logIndex entry (.applyHead args)
        (.headApplied (formatLedgerId args.ledgerId args.branch) args.commitId args.commitT
          entry.releasedNow)
        ⟨args.ledgerId, args.branch⟩ (appliedOutcome entry logIndex args)
  | poisoned (args : EntryPoisoning) (hid : entry.queueId = args.queueId) :
      Settles logIndex entry (.poisonQueueEntry args)
        (.poisoned (formatLedgerId args.ledgerId args.branch) args.queueId args.reason
          entry.releasedNow)
        ⟨args.ledgerId, args.branch⟩ (failedOutcome entry logIndex args)

inductive Clears (released : List (String × ContentId)) :
    Command → Response → RefKey → AbortReason → Prop
  | dropped (ledgerId branch : String) (millis : ℕ) (parentBranches : Option ℕ) :
      Clears released (.dropBranch ledgerId branch millis)
        (.branchDropped (formatLedgerId ledgerId branch) parentBranches released)
        ⟨ledgerId, branch⟩ .branchDropped
  | purged (ledgerId branch : String) (millis : ℕ) :
      Clears released (.purgeBranch ledgerId branch millis)
        (.purged (formatLedgerId ledgerId branch) released) ⟨ledgerId, branch⟩ .branchPurged
  | reset (ledgerId branch : String) (snapshot : ResetHeadSnapshot) (millis : ℕ) :
      Clears released (.resetHead ledgerId branch snapshot millis)
        (.headReset (formatLedgerId ledgerId branch) released)
        ⟨ledgerId, branch⟩ .branchHeadReset
  | retracted (ledgerId branch : String) (millis : ℕ) :
      Clears released (.retractLedger ledgerId branch millis)
        (.retracted (formatLedgerId ledgerId branch) released)
        ⟨ledgerId, branch⟩ .branchRetracted

/-- A response that says nothing about a queue. -/
structure Quiet (command : Command) (response : Response) : Prop where
  releases : drainReleases response = []
  waiters : waiterResolutionFor command response = none
  not_enqueued : ∀ ledgerId queueId, response ≠ .enqueued ledgerId queueId
  not_evicted : ∀ removed released, response ≠ .evictionApplied removed released

/-- What a command does to the queues and to the cache. -/
inductive QueueEffect (order : CacheOrder) (logIndex : ℕ) (s s' : NameServiceState) :
    Command → Response → Prop
  | quiet {command : Command} {response : Response} (hquiet : Quiet command response)
      (hqueues : s'.queueOf = s.queueOf) (hcache : s'.idempotency = s.idempotency)
      (hnext : s'.nextQueueId = s.nextQueueId) :
      QueueEffect order logIndex s s' command response
  | appended {args : QueueSubmission}
      (hlive : (⟨args.ledgerId, args.branch⟩ : RefKey) ∉ s.retracted)
      (hunseen : seenBefore s args = none)
      (hqueues : s'.queueOf = update s.queueOf ⟨args.ledgerId, args.branch⟩
        (s.queueOf ⟨args.ledgerId, args.branch⟩ ++ [queuedEntry s logIndex args]))
      (hcache : s'.idempotency = s.idempotency)
      (hnext : s'.nextQueueId = (s.nextQueueId + 1) % 2 ^ 64) :
      QueueEffect order logIndex s s' (.enqueueCommand args)
        (.enqueued (formatLedgerId args.ledgerId args.branch) s.nextQueueId)
  | settled {command : Command} {response : Response} {key : RefKey} {entry : QueueEntry}
      {rest : List QueueEntry} {outcome : ApplyOutcome}
      (hsettles : Settles logIndex entry command response key outcome)
      (hqueue : s.queueOf key = entry :: rest)
      (hqueues : s'.queueOf = update s.queueOf key rest)
      (hcache : s'.idempotency = recordedOutcome s.idempotency entry outcome)
      (hnext : s'.nextQueueId = s.nextQueueId) :
      QueueEffect order logIndex s s' command response
  | cleared {command : Command} {response : Response} {key : RefKey} {reason : AbortReason}
      (hclears : Clears (drainedEnvelopes s key) command response key reason)
      (hqueues : s'.queueOf = update s.queueOf key [])
      (hcache : s'.idempotency = s.idempotency)
      (hnext : s'.nextQueueId = s.nextQueueId) :
      QueueEffect order logIndex s s' command response
  | evicted {cutoff markerCutoff : ℕ} (hqueues : s'.queueOf = s.queueOf)
      (hcache : s'.idempotency = HashMap.eraseAll s.idempotency (evictionBatch order s cutoff))
      (hnext : s'.nextQueueId = s.nextQueueId) :
      QueueEffect order logIndex s s' (.evictIdempotency cutoff markerCutoff)
        (.evictionApplied (evictionBatch order s cutoff).length
          ((evictionBatch order s cutoff).filterMap (heldEnvelope s.idempotency)))

/-! ### The effect of a transition -/

variable {response : Response} {command : Command}

theorem waiterResolutionFor_of_isRefusal (h : response.isRefusal = true) :
    waiterResolutionFor command response = none := by
  unfold waiterResolutionFor
  split <;> first | rfl | cases h

theorem waiterResolutionFor_of_refKey_none (h : command.refKey = none) :
    waiterResolutionFor command response = none := by
  unfold waiterResolutionFor
  split <;> first | rfl | cases h

theorem quiet_of_isRefusal (h : response.isRefusal = true) : Quiet command response where
  releases := by
    unfold drainReleases
    split <;> first | rfl | cases h
  waiters := waiterResolutionFor_of_isRefusal h
  not_enqueued := by
    rintro ledgerId queueId rfl
    cases h
  not_evicted := by
    rintro removed released rfl
    cases h

section

variable (s : NameServiceState) (key : RefKey)

theorem queueOf_erase :
    (fun a => ((s.queues.erase key).lookup a).getD []) =
      update s.queueOf key [] := by
  funext a
  rw [HashMap.lookup_erase_eq, update_apply]
  split <;> rfl

theorem queueOf_insert (queue : List QueueEntry) :
    (fun a => ((s.queues.insert key queue).lookup a).getD []) =
      update s.queueOf key queue := by
  funext a
  rw [HashMap.lookup_insert_eq, update_apply]
  split <;> rfl

theorem queueOf_putQueue (queue : List QueueEntry) :
    (fun a => ((putQueue s.queues key queue).lookup a).getD []) =
      update s.queueOf key queue := by
  cases queue with
  | nil => exact queueOf_erase s key
  | cons entry rest => exact queueOf_insert s key (entry :: rest)

end

variable {s s' : NameServiceState} {logIndex : ℕ} {order : CacheOrder}

theorem Transition.queueEffect (h : Transition order logIndex s command s' response) :
    QueueEffect order logIndex s s' command response := by
  cases h with
  | refused h => exact .quiet (quiet_of_isRefusal h) rfl rfl rfl
  | markerConsumed =>
    refine .quiet ⟨rfl, ?_, by simp, by simp⟩ rfl rfl rfl
    unfold waiterResolutionFor
    split <;> first | rfl | simp_all
  | statusPushed | configPushed | ledgerCreated | branchForked =>
    exact .quiet ⟨rfl, rfl, by simp, by simp⟩ rfl rfl rfl
  | peripheral hcommand h =>
    refine .quiet ⟨?_, waiterResolutionFor_of_refKey_none hcommand, ?_, ?_⟩ rfl rfl rfl
    · unfold drainReleases
      split <;> first | rfl | cases h
    · rintro ledgerId queueId rfl
      cases h
    · rintro removed released rfl
      cases h
  | branchDropped =>
    exact .cleared (.dropped _ _ _ _) (queueOf_erase s _) rfl rfl
  | branchPurged => exact .cleared (.purged _ _ _) (queueOf_erase s _) rfl rfl
  | headErased | headRewritten =>
    exact .cleared (.reset _ _ _ _) (queueOf_erase s _) rfl rfl
  | branchRetracted =>
    exact .cleared (.retracted _ _ _) (queueOf_erase s _) rfl rfl
  | indexPublished hcommand =>
    rcases hcommand with rfl | rfl <;> exact .quiet ⟨rfl, rfl, by simp, by simp⟩ rfl rfl rfl
  | indexSwapped | commitSwapped =>
    exact .quiet ⟨rfl, rfl, by simp, by simp⟩ rfl rfl rfl
  | enqueued hknown hlive hunseen =>
    exact .appended hlive hunseen (queueOf_insert s _ _) rfl rfl
  | headApplied hlive hqueue hid =>
    exact .settled (.applied _ hid) (queueOf_eq_of_lookup hqueue) (queueOf_putQueue s _ _)
      rfl rfl
  | poisoned hqueue hid =>
    exact .settled (.poisoned _ hid) (queueOf_eq_of_lookup hqueue) (queueOf_putQueue s _ _)
      rfl rfl
  | evicted => exact .evicted rfl rfl rfl

theorem applyEntry_queueEffect {s : NameServiceState} (hs : WellFormed s) (entry : LogEntry) :
    QueueEffect entry.order entry.index s (applyEntry s entry).1 entry.command
      (applyEntry s entry).2 :=
  (applyEntry_transition hs entry).queueEffect

/-! ### Queues that lose entries -/

theorem sublist_update {K T : Type} [DecidableEq K] {f : K → List T} {key : K} {rest : List T}
    (h : rest.Sublist (f key)) (a : K) : (update f key rest a).Sublist (f a) := by
  rw [update_apply]
  split
  · subst a
    exact h
  · exact Sublist.refl _

/-- The pair that a retired entry of a branch is reported under at once. -/
def QueueEntry.releasedPairs (key : RefKey) (entry : QueueEntry) : List (String × ContentId) :=
  (entry.releasedNow.map fun cid => (key.ledgerId, cid)).toList

variable {key : RefKey} {entry : QueueEntry}

theorem drainReleases_of_settles {outcome : ApplyOutcome}
    (h : Settles logIndex entry command response key outcome) :
    drainReleases response = entry.releasedPairs key := by
  cases h <;> rfl

theorem drainReleases_of_clears {released : List (String × ContentId)} {reason : AbortReason}
    (h : Clears released command response key reason) : drainReleases response = released := by
  cases h <;> rfl

/-- Queue ids increase along each queue, occur in one queue only, and stay
below the next id. -/
structure QueueIds (s : NameServiceState) : Prop where
  increasing : ∀ key, (s.queueOf key).Pairwise fun a b => a.queueId < b.queueId
  distinct : ∀ key key', ∀ a ∈ s.queueOf key, ∀ b ∈ s.queueOf key',
    a.queueId = b.queueId → key = key'
  below : ∀ key, ∀ a ∈ s.queueOf key, a.queueId < s.nextQueueId

theorem queueIds_new : QueueIds NameServiceState.new := by
  constructor <;> simp [NameServiceState.queueOf, NameServiceState.new]

theorem QueueIds.of_sublist (hs : QueueIds s)
    (hsub : ∀ key, (s'.queueOf key).Sublist (s.queueOf key))
    (hnext : s'.nextQueueId = s.nextQueueId) : QueueIds s' where
  increasing key := (hs.increasing key).sublist (hsub key)
  distinct key key' a ha b hb h :=
    hs.distinct key key' a ((hsub key).subset ha) b ((hsub key').subset hb) h
  below key a ha := by
    rw [hnext]
    exact hs.below key a ((hsub key).subset ha)

theorem QueueIds.of_append (hs : QueueIds s) (hid : entry.queueId = s.nextQueueId)
    (hqueues : s'.queueOf = update s.queueOf key (s.queueOf key ++ [entry]))
    (hnext : s'.nextQueueId = s.nextQueueId + 1) : QueueIds s' := by
  have hmem (a : RefKey) (x : QueueEntry) :
      x ∈ s'.queueOf a ↔ x ∈ s.queueOf a ∨ (a = key ∧ x = entry) := by
    rw [hqueues, update_apply]
    split
    · subst a
      simp
    · simp [*]
  constructor
  · intro a
    rw [hqueues, update_apply]
    split
    · rw [pairwise_append]
      refine ⟨hs.increasing key, pairwise_singleton _ _, ?_⟩
      intro x hx y hy
      rw [mem_singleton.mp hy, hid]
      exact hs.below key x hx
    · exact hs.increasing a
  · intro a b x hx y hy hxy
    rcases (hmem a x).mp hx with hx | ⟨rfl, rfl⟩
    · rcases (hmem b y).mp hy with hy | ⟨rfl, rfl⟩
      · exact hs.distinct a b x hx y hy hxy
      · have := hs.below a x hx
        omega
    · rcases (hmem b y).mp hy with hy | ⟨rfl, -⟩
      · have := hs.below b y hy
        omega
      · rfl
  · intro a x hx
    rcases (hmem a x).mp hx with hx | ⟨-, rfl⟩
    · have := hs.below a x hx
      omega
    · omega

def Response.isEnqueued : Response → Bool
  | .enqueued _ _ => true
  | _ => false

def enqueuedCount (steps : List AppliedStep) : ℕ :=
  steps.countP fun step => step.response.isEnqueued

theorem Quiet.isEnqueued_eq_false (h : Quiet command response) : response.isEnqueued = false := by
  cases response <;> first | rfl | exact absurd rfl (h.not_enqueued _ _)

/-- What a command does to the ids: it hands out the next one, or queues only
lose entries. -/
theorem QueueEffect.ids_step (h : QueueEffect order logIndex s s' command response)
    (hs : QueueIds s) :
    (response.isEnqueued = false ∧ s'.nextQueueId = s.nextQueueId ∧ QueueIds s') ∨
      (response.isEnqueued = true ∧ s'.nextQueueId = (s.nextQueueId + 1) % 2 ^ 64 ∧
        (s.nextQueueId + 1 < 2 ^ 64 → QueueIds s')) := by
  cases h with
  | quiet hquiet hqueues hcache hnext =>
    exact .inl ⟨hquiet.isEnqueued_eq_false, hnext,
      hs.of_sublist (fun key => by rw [hqueues]) hnext⟩
  | appended hlive hunseen hqueues hcache hnext =>
    refine .inr ⟨rfl, hnext, ?_⟩
    intro hlt
    rw [Nat.mod_eq_of_lt hlt] at hnext
    exact hs.of_append rfl hqueues hnext
  | @settled _ _ key entry rest _ hsettles hqueue hqueues hcache hnext =>
    refine .inl ⟨by cases hsettles <;> rfl, hnext, hs.of_sublist ?_ hnext⟩
    intro a
    rw [hqueues]
    exact sublist_update (hqueue ▸ sublist_cons_self entry rest) a
  | cleared hclears hqueues hcache hnext =>
    refine .inl ⟨by cases hclears <;> rfl, hnext, hs.of_sublist ?_ hnext⟩
    intro a
    rw [hqueues]
    exact sublist_update (nil_sublist _) a
  | evicted hqueues hcache hnext =>
    exact .inl ⟨rfl, hnext, hs.of_sublist (fun key => by rw [hqueues]) hnext⟩

/-- As long as the counter has not wrapped it counts the accepted submissions. -/
theorem replay_queueIds (log : List LogEntry) (hfew : enqueuedCount (replaySteps log) < 2 ^ 64) :
    (replay log).nextQueueId = enqueuedCount (replaySteps log) ∧ QueueIds (replay log) := by
  induction log using reverseRecOn with
  | nil => exact ⟨rfl, queueIds_new⟩
  | append_singleton log entry ih =>
    -- the count and the counter move together until the counter wraps
    have hcount : enqueuedCount (replaySteps (log ++ [entry])) = enqueuedCount (replaySteps log) +
        if (applyEntry (replay log) entry).2.isEnqueued then 1 else 0 := by
      rw [replaySteps_concat]
      simp [enqueuedCount, Run.stepOf]
    obtain ⟨hnext, hids⟩ := ih (by omega)
    rw [replay_concat]
    rcases (applyEntry_queueEffect (replay_wellFormed log) entry).ids_step hids with
      ⟨hresponse, hsame, hkept⟩ | ⟨hresponse, hadded, hkept⟩
    · rw [hresponse] at hcount
      simp only [Bool.false_eq_true, if_false] at hcount
      exact ⟨by omega, hkept⟩
    · rw [hresponse, if_pos rfl] at hcount
      exact ⟨by omega, hkept (by omega)⟩

/-- **Registry and queues are well formed.** Every log with fewer than `2 ^ 64`
accepted submissions leads to a state in which registry, queues and markers fit
together and the queue ids are in order. -/
theorem replay_wellFormed_queueIds (log : List LogEntry)
    (hfew : enqueuedCount (replaySteps log) < 2 ^ 64) :
    WellFormed (replay log) ∧ QueueIds (replay log) :=
  ⟨replay_wellFormed log, (replay_queueIds log hfew).2⟩

theorem replay_wellFormed_queueIds_cleared :
    enqueuedCount (replaySteps Sample.cleared) = 1 ∧
      WellFormed (replay Sample.cleared) ∧ QueueIds (replay Sample.cleared) :=
  ⟨rfl, replay_wellFormed_queueIds Sample.cleared (by decide)⟩

end FlureeDb.Consensus
