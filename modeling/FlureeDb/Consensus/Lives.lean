import FlureeDb.Consensus.Queues

/-!
The life of a queue id. An id is issued once, it waits in one queue, and it
leaves that queue once, with the fate that the command dealt it: committed,
poisoned, or cleared away with its whole queue. The adapter reads the fate off
the command and its response, one resolution for one id or one for a branch.
-/

namespace FlureeDb.Consensus

open FlureeDb.Core Lib List Function

def NameServiceState.queuedIds (s : NameServiceState) (key : RefKey) : List ℕ :=
  (s.queueOf key).map QueueEntry.queueId

inductive Fate
  | applied (commitId : ContentId) (commitT : ℤ)
  | poisoned (reason : PoisonReason)
  | cleared (reason : AbortReason)
  deriving DecidableEq

/-- The fate a command deals to the entries it takes out of a queue. -/
def Command.fate : Command → Option Fate
  | .applyHead args => some (.applied args.commitId args.commitT)
  | .poisonQueueEntry args => some (.poisoned args.reason)
  | .dropBranch _ _ _ => some (.cleared .branchDropped)
  | .purgeBranch _ _ _ => some (.cleared .branchPurged)
  | .resetHead _ _ _ _ => some (.cleared .branchHeadReset)
  | .retractLedger _ _ _ => some (.cleared .branchRetracted)
  | _ => none

/-- The entry with this id leaves its queue at a step. -/
def Leaves (step : AppliedStep) (queueId : ℕ) (fate : Fate) : Prop :=
  step.input.command.fate = some fate ∧
    ∃ key, queueId ∈ step.before.queuedIds key ∧ queueId ∉ step.after.queuedIds key

def Retired (steps : List AppliedStep) (queueId : ℕ) (fate : Fate) : Prop :=
  ∃ step ∈ steps, Leaves step queueId fate

variable {steps : List AppliedStep} {step : AppliedStep}

theorem retired_concat {queueId : ℕ} {fate : Fate} :
    Retired (steps ++ [step]) queueId fate ↔
      Retired steps queueId fate ∨ Leaves step queueId fate := by
  simp [Retired]

variable {key : RefKey}

section

variable {s : NameServiceState} (hids : QueueIds s)

include hids

theorem QueueIds.lt_next {queueId : ℕ} (h : queueId ∈ s.queuedIds key) :
    queueId < s.nextQueueId := by
  obtain ⟨entry, hentry, rfl⟩ := mem_map.mp h
  exact hids.below key entry hentry

theorem QueueIds.key_eq {key key' : RefKey} {queueId : ℕ} (h : queueId ∈ s.queuedIds key)
    (h' : queueId ∈ s.queuedIds key') : key = key' := by
  obtain ⟨entry, hentry, hid⟩ := mem_map.mp h
  obtain ⟨entry', hentry', hid'⟩ := mem_map.mp h'
  exact hids.distinct key key' entry hentry entry' hentry' (hid.trans hid'.symm)

theorem QueueIds.nodup_queuedIds (key : RefKey) : (s.queuedIds key).Nodup := by
  refine pairwise_map.mpr ((hids.increasing key).imp ?_)
  intro a b hlt
  exact ne_of_lt hlt

end

def issuedBy (step : AppliedStep) : Option (ℕ × RefKey) :=
  match step.input.command, step.response with
  | .enqueueCommand args, .enqueued _ queueId =>
    some (queueId, ⟨args.ledgerId, args.branch⟩)
  | _, _ => none

/-- The resolution of one id that reports its fate. -/
inductive Resolves (queueId : ℕ) : Fate → WaiterResolution → Prop
  | applied (commitId : ContentId) (commitT : ℤ) :
      Resolves queueId (.applied commitId commitT) (.applied queueId commitId commitT)
  | poisoned (reason : PoisonReason) :
      Resolves queueId (.poisoned reason) (.aborted queueId (.poisoned reason))

/-- What a step does to the ids, and what the adapter makes of it. -/
inductive IdEffect (step : AppliedStep) : Prop
  | quiet (hissued : issuedBy step = none)
      (hwaiters : waiterResolutionFor step.input.command step.response = none)
      (hids : step.after.queuedIds = step.before.queuedIds)
      (hnext : step.after.nextQueueId = step.before.nextQueueId)
  | issued (key : RefKey) (hissued : issuedBy step = some (step.before.nextQueueId, key))
      (hwaiters : waiterResolutionFor step.input.command step.response = none)
      (hids : step.after.queuedIds = update step.before.queuedIds key
        (step.before.queuedIds key ++ [step.before.nextQueueId]))
      (hnext : step.after.nextQueueId = step.before.nextQueueId + 1)
  | settled (key : RefKey) (queueId : ℕ) (rest : List ℕ) (fate : Fate)
      (resolution : WaiterResolution) (hresolves : Resolves queueId fate resolution)
      (hissued : issuedBy step = none)
      (hwaiters : waiterResolutionFor step.input.command step.response = some resolution)
      (hfate : step.input.command.fate = some fate)
      (hfront : step.before.queuedIds key = queueId :: rest)
      (hids : step.after.queuedIds = update step.before.queuedIds key rest)
      (hnext : step.after.nextQueueId = step.before.nextQueueId)
  | cleared (key : RefKey) (reason : AbortReason) (hissued : issuedBy step = none)
      (hwaiters : waiterResolutionFor step.input.command step.response =
        some (.abortBranch key reason))
      (hfate : step.input.command.fate = some (.cleared reason))
      (hids : step.after.queuedIds = update step.before.queuedIds key [])
      (hnext : step.after.nextQueueId = step.before.nextQueueId)

theorem queuedIds_of_queueOf {s s' : NameServiceState} {queue : List QueueEntry}
    (h : s'.queueOf = update s.queueOf key queue) :
    s'.queuedIds = update s.queuedIds key (queue.map QueueEntry.queueId) := by
  funext a
  rw [NameServiceState.queuedIds, h, update_apply, update_apply]
  split <;> rfl

theorem issuedBy_of_not_enqueued (h : step.response.isEnqueued = false) : issuedBy step = none := by
  unfold issuedBy
  split
  · rename_i hresponse
    rw [hresponse] at h
    cases h
  · rfl

theorem applyEntry_idEffect {s : NameServiceState} (hs : WellFormed s) (e : LogEntry)
    (hroom : (applyEntry s e).2.isEnqueued = true → s.nextQueueId + 1 < 2 ^ 64) :
    IdEffect (Run.stepOf applyEntry s e) := by
  have heffect := applyEntry_queueEffect hs e
  obtain ⟨index, command, order⟩ := e
  unfold Run.stepOf
  generalize (applyEntry s ⟨index, command, order⟩).2 = response at hroom heffect ⊢
  generalize (applyEntry s ⟨index, command, order⟩).1 = s' at heffect ⊢
  have hsame (h : s'.queueOf = s.queueOf) : s'.queuedIds = s.queuedIds := by
    funext key
    unfold NameServiceState.queuedIds
    rw [h]
  cases heffect with
  | quiet hquiet hqueues hcache hnext =>
    exact .quiet (issuedBy_of_not_enqueued hquiet.isEnqueued_eq_false) hquiet.waiters
      (hsame hqueues) hnext
  | @appended args hlive hunseen hqueues hcache hnext =>
    refine .issued ⟨args.ledgerId, args.branch⟩ rfl rfl ?_ ?_
    · rw [queuedIds_of_queueOf hqueues, map_append]
      rfl
    · exact hnext.trans (Nat.mod_eq_of_lt (hroom rfl))
  | @settled _ _ key entry rest outcome hsettles hqueue hqueues hcache hnext =>
    have hfront : s.queuedIds key = entry.queueId :: rest.map QueueEntry.queueId :=
      congrArg (map QueueEntry.queueId) hqueue
    have hrest := queuedIds_of_queueOf hqueues
    cases hsettles with
    | applied args hid =>
      rw [hid] at hfront
      exact .settled _ args.queueId _ _ _ (.applied args.commitId args.commitT) rfl rfl rfl
        hfront hrest hnext
    | poisoned args hid =>
      rw [hid] at hfront
      exact .settled _ args.queueId _ _ _ (.poisoned args.reason) rfl rfl rfl hfront hrest
        hnext
  | cleared hclears hqueues hcache hnext =>
    have hrest := queuedIds_of_queueOf hqueues
    cases hclears with
    | dropped | purged | reset | retracted => exact .cleared _ _ rfl rfl rfl hrest hnext
  | evicted hqueues hcache hnext => exact .quiet rfl rfl (hsame hqueues) hnext

/-! ### Leaving a queue -/

theorem not_leaves_of_subset
    (h : ∀ key, step.before.queuedIds key ⊆ step.after.queuedIds key) (queueId : ℕ)
    (fate : Fate) : ¬ Leaves step queueId fate := by
  rintro ⟨-, key, hbefore, hafter⟩
  exact hafter (h key hbefore)

theorem leaves_iff_of_update {rest : List ℕ} {fate : Fate}
    (hfate : step.input.command.fate = some fate)
    (hids : step.after.queuedIds = update step.before.queuedIds key rest) (queueId : ℕ) (f : Fate) :
    Leaves step queueId f ↔ f = fate ∧ queueId ∈ step.before.queuedIds key ∧ queueId ∉ rest := by
  have hoption : step.input.command.fate = some f ↔ f = fate := by
    rw [hfate, Option.some.injEq, eq_comm]
  rw [Leaves, hoption, hids]
  refine and_congr_right fun _ => ⟨?_, fun h => ⟨key, by simpa using h⟩⟩
  rintro ⟨a, hbefore, hafter⟩
  rw [update_apply] at hafter
  split at hafter
  · subst a
    exact ⟨hbefore, hafter⟩
  · exact absurd hbefore hafter

/-- What is known of the ids a run has issued: an id that left its queue is in
none, it left once, and an issued id is in its queue or left it. -/
structure Lives (steps : List AppliedStep) (s : NameServiceState) : Prop where
  gone : ∀ queueId fate, Retired steps queueId fate →
    queueId < s.nextQueueId ∧ ∀ key, queueId ∉ s.queuedIds key
  once : ∀ queueId fate fate', Retired steps queueId fate → Retired steps queueId fate' →
    fate = fate'
  issued : ∀ queueId key, (queueId, key) ∈ steps.filterMap issuedBy →
    queueId ∈ s.queuedIds key ∨ ∃ fate, Retired steps queueId fate

theorem Lives.of_not_leaves (h : Lives steps step.before)
    (hnext : step.before.nextQueueId ≤ step.after.nextQueueId)
    (hkept : ∀ key, step.before.queuedIds key ⊆ step.after.queuedIds key)
    (hnew : ∀ key, ∀ queueId ∈ step.after.queuedIds key, queueId ∈ step.before.queuedIds key ∨
      step.before.nextQueueId ≤ queueId)
    (hissued : ∀ queueId key, issuedBy step = some (queueId, key) →
      queueId ∈ step.after.queuedIds key) : Lives (steps ++ [step]) step.after := by
  have hretired (queueId : ℕ) (fate : Fate) :
      Retired (steps ++ [step]) queueId fate ↔ Retired steps queueId fate := by
    rw [retired_concat, or_iff_left (not_leaves_of_subset hkept queueId fate)]
  refine ⟨?_, ?_, ?_⟩
  · intro queueId fate hfate
    obtain ⟨hlt, hnone⟩ := h.gone queueId fate ((hretired _ _).mp hfate)
    refine ⟨hlt.trans_le hnext, ?_⟩
    intro key hmem
    rcases hnew key queueId hmem with hold | hge
    · exact hnone key hold
    · omega
  · intro queueId fate fate' hfate hfate'
    exact h.once queueId fate fate' ((hretired _ _).mp hfate) ((hretired _ _).mp hfate')
  · intro queueId key hmem
    rw [filterMap_append, mem_append] at hmem
    rcases hmem with hmem | hmem
    · rcases h.issued queueId key hmem with hqueued | ⟨fate, hfate⟩
      · exact .inl (hkept key hqueued)
      · exact .inr ⟨fate, (hretired _ _).mpr hfate⟩
    · obtain ⟨st, hst, hsome⟩ := mem_filterMap.mp hmem
      rw [mem_singleton.mp hst] at hsome
      exact .inl (hissued queueId key hsome)

theorem Lives.of_update (h : Lives steps step.before)
    (hunique : QueueIds step.before) {rest : List ℕ} {fate : Fate}
    (hfate : step.input.command.fate = some fate) (hissued : issuedBy step = none)
    (hrest : rest.Sublist (step.before.queuedIds key))
    (hids : step.after.queuedIds = update step.before.queuedIds key rest)
    (hnext : step.after.nextQueueId = step.before.nextQueueId) :
    Lives (steps ++ [step]) step.after := by
  have hleaves := leaves_iff_of_update hfate hids
  have hsub (a : RefKey) : step.after.queuedIds a ⊆ step.before.queuedIds a := by
    rw [hids]
    exact (sublist_update hrest a).subset
  have hgone : ∀ queueId f, Leaves step queueId f → ∀ a, queueId ∉ step.after.queuedIds a := by
    intro queueId f hf a hafter
    obtain ⟨-, hbefore, hnotin⟩ := (hleaves queueId f).mp hf
    obtain rfl := hunique.key_eq hbefore (hsub a hafter)
    rw [hids, update_self] at hafter
    exact hnotin hafter
  refine ⟨?_, ?_, ?_⟩
  · intro queueId f hf
    rw [hnext]
    rcases retired_concat.mp hf with hold | hnew
    · obtain ⟨hlt, hnone⟩ := h.gone queueId f hold
      exact ⟨hlt, fun a hafter => hnone a (hsub a hafter)⟩
    · obtain ⟨-, hbefore, -⟩ := (hleaves queueId f).mp hnew
      exact ⟨hunique.lt_next hbefore, hgone queueId f hnew⟩
  · have hmixed : ∀ queueId f f', Retired steps queueId f → ¬ Leaves step queueId f' := by
      intro queueId f f' hold hnew
      obtain ⟨-, hbefore, -⟩ := (hleaves queueId f').mp hnew
      exact (h.gone queueId f hold).2 key hbefore
    intro queueId f f' hf hf'
    rcases retired_concat.mp hf with hold | hnew
    · rcases retired_concat.mp hf' with hold' | hnew'
      · exact h.once queueId f f' hold hold'
      · exact absurd hnew' (hmixed queueId f f' hold)
    · rcases retired_concat.mp hf' with hold' | hnew'
      · exact absurd hnew (hmixed queueId f' f hold')
      · rw [((hleaves queueId f).mp hnew).1, ((hleaves queueId f').mp hnew').1]
  · intro queueId a hmem
    rw [filterMap_append, filterMap_cons_none hissued, filterMap_nil,
      append_nil] at hmem
    rcases h.issued queueId a hmem with hqueued | ⟨f, hf⟩
    · by_cases hafter : queueId ∈ step.after.queuedIds a
      · exact .inl hafter
      · exact .inr ⟨fate, retired_concat.mpr (.inr ⟨hfate, a, hqueued, hafter⟩)⟩
    · exact .inr ⟨f, retired_concat.mpr (.inl hf)⟩

theorem Lives.of_idEffect (h : Lives steps step.before)
    (hunique : QueueIds step.before) (heffect : IdEffect step) :
    Lives (steps ++ [step]) step.after := by
  cases heffect with
  | quiet hissued hwaiters hids hnext =>
    have hkept : ∀ key, step.before.queuedIds key ⊆ step.after.queuedIds key := by
      intro key
      rw [hids]
      exact Subset.refl _
    refine h.of_not_leaves hnext.ge hkept ?_ ?_
    · intro key queueId hmem
      exact .inl (hids ▸ hmem)
    · intro queueId key hsome
      rw [hissued] at hsome
      cases hsome
  | issued key hissued hwaiters hids =>
    have hmem (a : RefKey) (queueId : ℕ) : queueId ∈ step.after.queuedIds a ↔
        queueId ∈ step.before.queuedIds a ∨ a = key ∧ queueId = step.before.nextQueueId := by
      rw [hids, update_apply]
      split
      · subst a
        simp
      · simp [*]
    have hkept : ∀ a, step.before.queuedIds a ⊆ step.after.queuedIds a :=
      fun a queueId hqueued => (hmem a queueId).mpr (.inl hqueued)
    refine h.of_not_leaves (by omega) hkept ?_ ?_
    · intro a queueId hafter
      exact ((hmem a queueId).mp hafter).imp_right fun hnew => hnew.2.ge
    · intro queueId a hsome
      rw [hissued] at hsome
      cases hsome
      exact (hmem _ _).mpr (.inr ⟨rfl, rfl⟩)
  | settled key queueId rest fate resolution hresolves hissued hwaiters hfate hfront hids hnext =>
    refine h.of_update hunique hfate hissued ?_ hids hnext
    rw [hfront]
    exact sublist_cons_self queueId rest
  | cleared key reason hissued hwaiters hfate hids hnext =>
    exact h.of_update hunique hfate hissued (nil_sublist _) hids hnext

theorem enqueued_room {log : List LogEntry} {e : LogEntry}
    (hfew : enqueuedCount (replaySteps (log ++ [e])) < 2 ^ 64) :
    enqueuedCount (replaySteps log) < 2 ^ 64 ∧
      ((applyEntry (replay log) e).2.isEnqueued = true →
        (replay log).nextQueueId + 1 < 2 ^ 64) := by
  rw [replaySteps_concat, enqueuedCount, countP_append, countP_singleton] at hfew
  have hlog : enqueuedCount (replaySteps log) < 2 ^ 64 := by
    unfold enqueuedCount
    omega
  refine ⟨hlog, ?_⟩
  intro henqueued
  rw [(replay_queueIds log hlog).1]
  change _ + (if (applyEntry (replay log) e).2.isEnqueued = true then 1 else 0) < _ at hfew
  rw [if_pos henqueued] at hfew
  exact hfew

theorem replay_lives (log : List LogEntry) (hfew : enqueuedCount (replaySteps log) < 2 ^ 64) :
    Lives (replaySteps log) (replay log) := by
  induction log using reverseRecOn with
  | nil => exact ⟨by rintro _ _ ⟨_, ⟨⟩, _⟩, by rintro _ _ _ ⟨_, ⟨⟩, _⟩, by rintro _ _ ⟨⟩⟩
  | append_singleton log e ih =>
    obtain ⟨hlog, hroom⟩ := enqueued_room hfew
    rw [replaySteps_concat, replay_concat]
    exact (ih hlog).of_idEffect (replay_queueIds log hlog).2
      (applyEntry_idEffect (replay_wellFormed log) e hroom)

end FlureeDb.Consensus
