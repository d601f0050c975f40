import FlureeDb.Consensus.Waiter

/-!
Every waiter hears once. On the state machine's side an id has one life; on the
node's side it stands in one of five places, and the waiter map lags behind the
state by the resolutions still due. Read against the state as of the executed
resolutions, the two sides agree step by step, whatever registrations come in
between, with one exception: a registration that comes after the sweep of its
entry's branch finds nothing, and nothing will come.
-/

namespace FlureeDb.Consensus

open FlureeDb.Core Lib List Node WaiterMap List.Subset Sample

/-- The outcome that tells a proposer of its entry's fate: an applied entry is
reported with the commit that was applied, whatever else the receipt says. -/
def Fate.Matches : Fate → WaiterOutcome → Prop
  | .applied commitId commitT, .applied receipt =>
    receipt.commitId = commitId ∧ receipt.commitT = commitT
  | .poisoned reason, outcome => outcome = .aborted (.poisoned reason)
  | .cleared reason, outcome => outcome = .aborted reason
  | .applied _ _, .aborted _ => False

variable {queueId : ℕ} {fate : Fate} {outcome : WaiterOutcome}

/-- Where an id stands at a node, read against the steps whose resolutions are
executed and the state they left: not issued, in its queue, retired with the
outcome buffered, swept before its channel came, or told. -/
inductive Standing (steps : List AppliedStep) (s : NameServiceState) (n : Node)
    (queueId : ℕ) : Prop
  | fresh (hid : s.nextQueueId ≤ queueId) (hslot : n.slots.lookup queueId = none)
      (hsent : n.sentTo queueId = []) (hnot : queueId ∉ n.registered)
  | queued (key : RefKey) (hid : queueId ∈ s.queuedIds key)
      (hslot : n.slots.lookup queueId =
        if queueId ∈ n.registered then some (.parked key queueId) else none)
      (hsent : n.sentTo queueId = [])
  | buffered (fate : Fate) (outcome : WaiterOutcome) (hfate : Retired steps queueId fate)
      (hmatches : fate.Matches outcome)
      (hslot : n.slots.lookup queueId = some (.resolved outcome))
      (hsent : n.sentTo queueId = []) (hnot : queueId ∉ n.registered)
  | missed (reason : AbortReason) (hfate : Retired steps queueId (.cleared reason))
      (hslot : n.slots.lookup queueId = none) (hsent : n.sentTo queueId = [])
      (hnot : queueId ∉ n.registered)
  | told (fate : Fate) (outcome : WaiterOutcome) (hfate : Retired steps queueId fate)
      (hmatches : fate.Matches outcome)
      (hslot : n.slots.lookup queueId = none) (hsent : n.sentTo queueId = [outcome])
      (hin : queueId ∈ n.registered)

/-- An id keeps its standing as long as nothing about it changes. -/
theorem Standing.frame {steps steps' : List AppliedStep} {s s' : NameServiceState} {n n' : Node}
    (h : Standing steps s n queueId) (hslot' : n'.slots.lookup queueId = n.slots.lookup queueId)
    (hsent' : n'.sentTo queueId = n.sentTo queueId)
    (hregistered : queueId ∈ n'.registered ↔ queueId ∈ n.registered)
    (hnext : s.nextQueueId ≤ queueId → s'.nextQueueId ≤ queueId)
    (hids : ∀ key, queueId ∈ s.queuedIds key → queueId ∈ s'.queuedIds key)
    (hretired : ∀ fate, Retired steps queueId fate → Retired steps' queueId fate) :
    Standing steps' s' n' queueId := by
  cases h with
  | fresh hid hslot hsent hnot =>
    exact .fresh (hnext hid) (hslot'.trans hslot) (hsent'.trans hsent) (hregistered.not.mpr hnot)
  | queued key hid hslot hsent =>
    refine .queued key (hids key hid) ?_ (hsent'.trans hsent)
    simp only [hslot', hslot, hregistered]
  | buffered fate outcome hfate hmatches hslot hsent hnot =>
    exact .buffered fate outcome (hretired fate hfate) hmatches
      (hslot'.trans hslot) (hsent'.trans hsent) (hregistered.not.mpr hnot)
  | missed reason hfate hslot hsent hnot =>
    exact .missed reason (hretired _ hfate) (hslot'.trans hslot) (hsent'.trans hsent)
      (hregistered.not.mpr hnot)
  | told fate outcome hfate hmatches hslot hsent hin =>
    exact .told fate outcome (hretired fate hfate) hmatches
      (hslot'.trans hslot) (hsent'.trans hsent) (hregistered.mpr hin)

variable {s : NameServiceState} {key : RefKey} {steps : List AppliedStep} {n : Node}

theorem Standing.of_queued (h : Standing steps s n queueId) (hlives : Lives steps s)
    (hunique : QueueIds s) (hid : queueId ∈ s.queuedIds key) :
    n.slots.lookup queueId =
        (if queueId ∈ n.registered then some (.parked key queueId) else none) ∧
      n.sentTo queueId = [] := by
  have hnotRetired (fate : Fate) : ¬ Retired steps queueId fate :=
    fun hfate => (hlives.gone queueId fate hfate).2 key hid
  cases h with
  | fresh =>
    have hlt := hunique.lt_next hid
    omega
  | queued key' hid' hslot hsent =>
    obtain rfl := hunique.key_eq hid hid'
    exact ⟨hslot, hsent⟩
  | buffered fate outcome hfate | missed reason hfate | told fate outcome hfate =>
    exact absurd hfate (hnotRetired _)

theorem Standing.of_parked (h : Standing steps s n queueId) {sender : ℕ}
    (hparked : n.slots.lookup queueId = some (.parked key sender)) :
    queueId ∈ s.queuedIds key ∧ sender = queueId := by
  cases h with
  | fresh hid hslot | buffered fate outcome hfate hmatches hslot | missed reason hfate hslot
  | told fate outcome hfate hmatches hslot => simp [hslot] at hparked
  | queued key' hid hslot =>
    rw [hslot] at hparked
    split at hparked
    · cases hparked
      exact ⟨hid, rfl⟩
    · cases hparked

theorem Standing.of_unissued (h : Standing steps s n queueId) (hlives : Lives steps s)
    (hunique : QueueIds s) (hid : s.nextQueueId ≤ queueId) :
    n.slots.lookup queueId = none ∧ n.sentTo queueId = [] ∧ queueId ∉ n.registered := by
  have hnotRetired (fate : Fate) : ¬ Retired steps queueId fate :=
    fun hfate => (hlives.gone queueId fate hfate).1.not_ge hid
  cases h with
  | fresh hfresh hslot hsent hnot => exact ⟨hslot, hsent, hnot⟩
  | queued key hqueued => exact absurd (hunique.lt_next hqueued) hid.not_gt
  | buffered fate outcome hfate | missed reason hfate | told fate outcome hfate =>
    exact absurd hfate (hnotRetired _)

theorem Node.sentTo_withWaiters (n : Node) (result : WaiterMap ℕ × Sent ℕ) (queueId : ℕ) :
    (n.withWaiters result).sentTo queueId =
      n.sentTo queueId ++ (result.2.filter fun message => message.1 = queueId).map Prod.snd := by
  unfold sentTo withWaiters
  rw [filter_append, map_append]

/-! ### Executing a resolution -/

section

variable {step : AppliedStep} (hlives : Lives steps step.before) (hunique : QueueIds step.before)
  (hstanding : ∀ a, Standing steps step.before n a)

include hlives hunique hstanding

theorem standing_settled {rest : List ℕ} (hfate : step.input.command.fate = some fate)
    (hfront : step.before.queuedIds key = queueId :: rest)
    (hids : step.after.queuedIds = Function.update step.before.queuedIds key rest)
    (hnext : step.after.nextQueueId = step.before.nextQueueId)
    (hmatches : fate.Matches outcome) (a : ℕ) :
    Standing (steps ++ [step]) step.after
      (n.withWaiters (n.slots.resolveWith queueId outcome)) a := by
  have hqueued : queueId ∈ step.before.queuedIds key := by simp [hfront]
  have hnotin : queueId ∉ rest :=
    (nodup_cons.mp (hfront ▸ hunique.nodup_queuedIds key)).1
  have hretired : Retired (steps ++ [step]) queueId fate := by
    rw [retired_concat, leaves_iff_of_update hfate hids]
    exact .inr ⟨rfl, hqueued, hnotin⟩
  obtain ⟨hslot, hnone⟩ := (hstanding queueId).of_queued hlives hunique hqueued
  -- what the map does depends on whether the channel is parked already
  by_cases ha : a = queueId
  · subst a
    split at hslot
    · rw [resolveWith_of_parked hslot]
      refine .told fate outcome hretired hmatches ?_ ?_ ‹_›
      · simp [withWaiters]
      · simp [sentTo_withWaiters, hnone]
    · rw [resolveWith_of_none hslot]
      refine .buffered fate outcome hretired hmatches ?_ ?_ ‹_›
      · simp [withWaiters]
      · simp [sentTo_withWaiters, hnone]
  · have hframe : (n.withWaiters (n.slots.resolveWith queueId outcome)).slots.lookup a =
          n.slots.lookup a ∧
        (n.withWaiters (n.slots.resolveWith queueId outcome)).sentTo a = n.sentTo a := by
      split at hslot
      · rw [resolveWith_of_parked hslot, sentTo_withWaiters]
        simp [withWaiters, ha, Ne.symm ha]
      · rw [resolveWith_of_none hslot, sentTo_withWaiters]
        simp [withWaiters, ha]
    refine (hstanding a).frame hframe.1 hframe.2 Iff.rfl (by simp [hnext]) ?_
      fun fate hfate => retired_concat.mpr (.inl hfate)
    intro b hb
    rw [hids, Function.update_apply]
    split
    · subst b
      rw [hfront] at hb
      exact (mem_cons.mp hb).resolve_left ha
    · exact hb

omit hlives hunique hstanding in
theorem sentIn_map_of_nodup {queueIds : List ℕ} (hnodup : queueIds.Nodup)
    (outcome : WaiterOutcome) (a : ℕ) :
    ((queueIds.map fun queueId => (queueId, outcome)).filter
        fun message => message.1 = a).map Prod.snd =
      if a ∈ queueIds then [outcome] else [] := by
  induction queueIds with
  | nil => rfl
  | cons queueId rest ih =>
    obtain ⟨hnotin, hrest⟩ := nodup_cons.mp hnodup
    by_cases ha : queueId = a
    · subst ha
      have htail := ih hrest
      rw [if_neg hnotin] at htail
      simp [htail]
    · simpa [ha, Ne.symm ha] using ih hrest

theorem standing_cleared {reason : AbortReason}
    (hfate : step.input.command.fate = some (.cleared reason))
    (hids : step.after.queuedIds = Function.update step.before.queuedIds key [])
    (hnext : step.after.nextQueueId = step.before.nextQueueId)
    (order : HashMap.IterOrder ℕ (WaiterSlot ℕ)) (a : ℕ) :
    Standing (steps ++ [step]) step.after
      (n.withWaiters (n.slots.abortAllForBranch order key reason)) a := by
  have hparked : ∀ queueId ∈ toResolve order n.slots key, ∃ refKey,
      n.slots.lookup queueId = some (.parked refKey (id queueId)) := by
    intro queueId hmem
    obtain ⟨sender, hlookup⟩ := mem_toResolve.mp hmem
    obtain ⟨-, rfl⟩ := (hstanding queueId).of_parked hlookup
    exact ⟨key, hlookup⟩
  have hsweep : n.slots.abortAllForBranch order key reason =
      (HashMap.eraseAll n.slots (toResolve order n.slots key),
        (toResolve order n.slots key).map fun queueId => (queueId, .aborted reason)) :=
    abortEach_eq reason (nodup_toResolve order n.slots key) n.slots [] hparked
  have hslot' : (n.withWaiters (n.slots.abortAllForBranch order key reason)).slots.lookup a =
      if a ∈ toResolve order n.slots key then none else n.slots.lookup a := by
    rw [hsweep]
    exact HashMap.lookup_eraseAll _ _ _
  have hsent' : (n.withWaiters (n.slots.abortAllForBranch order key reason)).sentTo a =
      n.sentTo a ++
        if a ∈ toResolve order n.slots key then [.aborted reason] else [] := by
    rw [sentTo_withWaiters, hsweep,
      sentIn_map_of_nodup (nodup_toResolve order n.slots key)]
  by_cases hqueued : a ∈ step.before.queuedIds key
  · have hretired : Retired (steps ++ [step]) a (.cleared reason) := by
      rw [retired_concat, leaves_iff_of_update hfate hids]
      exact .inr ⟨rfl, hqueued, not_mem_nil⟩
    obtain ⟨hslot, hnone⟩ := (hstanding a).of_queued hlives hunique hqueued
    by_cases hreg : a ∈ n.registered
    · have hmem : a ∈ toResolve order n.slots key :=
        mem_toResolve.mpr ⟨a, by rw [hslot, if_pos hreg]⟩
      rw [if_pos hmem] at hslot' hsent'
      exact .told _ (.aborted reason) hretired rfl hslot' (by simp [hsent', hnone]) hreg
    · have hmem : a ∉ toResolve order n.slots key := by
        rw [mem_toResolve, hslot, if_neg hreg]
        simp
      rw [if_neg hmem] at hslot' hsent'
      exact .missed reason hretired (by rw [hslot', hslot, if_neg hreg]) (by simp [hsent', hnone])
        hreg
  · have hmem : a ∉ toResolve order n.slots key := by
      intro hmem
      obtain ⟨sender, hlookup⟩ := mem_toResolve.mp hmem
      exact hqueued ((hstanding a).of_parked hlookup).1
    rw [if_neg hmem] at hslot' hsent'
    refine (hstanding a).frame hslot' (by rw [hsent', append_nil])
      Iff.rfl (by simp [hnext]) ?_
      fun fate hfate => retired_concat.mpr (.inl hfate)
    intro b hb
    rw [hids, Function.update_apply, if_neg]
    · exact hb
    · rintro rfl
      exact hqueued hb

theorem standing_issued
    (hids : step.after.queuedIds = Function.update step.before.queuedIds key
      (step.before.queuedIds key ++ [step.before.nextQueueId]))
    (hnext : step.after.nextQueueId = step.before.nextQueueId + 1) (a : ℕ) :
    Standing (steps ++ [step]) step.after n a := by
  have hkept (b : RefKey) : step.before.queuedIds b ⊆ step.after.queuedIds b := by
    rw [hids, Function.update_apply]
    split
    · subst b
      exact subset_append_left _ _
    · exact refl _
  by_cases ha : a = step.before.nextQueueId
  · obtain ⟨hslot, hsent, hnot⟩ := (hstanding a).of_unissued hlives hunique ha.ge
    refine .queued key ?_ ?_ hsent
    · rw [hids, Function.update_self, ha]
      exact mem_append_right _ (mem_singleton_self _)
    · rw [hslot, if_neg hnot]
  · refine (hstanding a).frame rfl rfl Iff.rfl ?_
      (fun b hmem => hkept b hmem) fun fate hfate => retired_concat.mpr (.inl hfate)
    intro hle
    omega

/-- The receipt that is staged for an applied entry, if there is one, is that of its commit. -/
def Node.ReceiptOf (n : Node) (resolution : Option WaiterResolution) : Prop :=
  ∀ queueId commitId commitT, resolution = some (.applied queueId commitId commitT) →
    ∀ staged ∈ n.staged.lookup queueId,
      staged.2.commitId = commitId ∧ staged.2.commitT = commitT

omit hlives hunique hstanding in
theorem Node.ReceiptOf.matches {commitId : ContentId} {commitT : ℤ}
    (h : n.ReceiptOf (some (.applied queueId commitId commitT))) :
    (Fate.applied commitId commitT).Matches
      (.applied ((n.staged.take queueId).2.getD (.minimal commitId commitT))) := by
  unfold StagedReceiptMap.take
  cases hreceipt : n.staged.lookup queueId with
  | none => exact ⟨rfl, rfl⟩
  | some staged => exact h queueId commitId commitT rfl staged hreceipt

theorem standing_executed
    (hreceipt : n.ReceiptOf (waiterResolutionFor step.input.command step.response))
    (heffect : IdEffect step)
    (order : HashMap.IterOrder ℕ (WaiterSlot ℕ)) (a : ℕ) :
    Standing (steps ++ [step]) step.after
      (n.execute order (waiterResolutionFor step.input.command step.response)) a := by
  -- the receipts are no part of a standing
  have hstanding' (staged : StagedReceiptMap) (a : ℕ) :
      Standing steps step.before { n with staged := staged } a :=
    (hstanding a).frame rfl rfl Iff.rfl id (fun _ => id) (fun _ => id)
  cases heffect with
  | quiet hissued hwaiters hids hnext =>
    rw [hwaiters]
    exact (hstanding a).frame rfl rfl Iff.rfl (by simp [hnext])
      (by simp [hids]) fun fate hfate => retired_concat.mpr (.inl hfate)
  | issued key hissued hwaiters hids hnext =>
    rw [hwaiters]
    exact standing_issued hlives hunique hstanding hids hnext a
  | settled key queueId rest fate resolution hresolves hissued hwaiters hfate hfront hids hnext =>
    rw [hwaiters]
    cases hresolves with
    | applied commitId commitT =>
      exact standing_settled hlives hunique (hstanding' (n.staged.take queueId).1) hfate hfront
        hids hnext (hwaiters ▸ hreceipt).matches a
    | poisoned =>
      exact standing_settled hlives hunique (hstanding' (n.staged.take queueId).1) hfate hfront
        hids hnext rfl a
  | cleared key reason hissued hwaiters hfate hids hnext =>
    rw [hwaiters]
    exact standing_cleared hlives hunique (hstanding' _) hfate hids hnext order a

omit hlives hunique hstanding

theorem Node.execute_steps (n : Node) (order : HashMap.IterOrder ℕ (WaiterSlot ℕ))
    (resolution : Option WaiterResolution) :
    (n.execute order resolution).state = n.state ∧
      (n.execute order resolution).pending = n.pending ∧
      (n.execute order resolution).executed = n.executed ∧
      (n.execute order resolution).returned = n.returned := by
  rcases resolution with _ | _ | _ | _ <;> exact ⟨rfl, rfl, rfl, rfl⟩

end

/-! ### Registering -/

/-- A registration comes before any sweep that cleared its entry, and a
resolution finds no receipt of another commit than the one applied. -/
def NodeEvent.Timely (n : Node) : NodeEvent → Prop
  | .register queueId _ => ∀ reason, ¬ Retired (n.returned ++ n.executed) queueId (.cleared reason)
  | .resolve _ => ∀ step ∈ n.pending.head?,
    n.ReceiptOf (waiterResolutionFor step.input.command step.response)
  | _ => True

/-- A registration of an issued id that was not swept parks its channel, or
finds the outcome. -/
theorem standing_registered (hlives : Lives steps s)
    (hunique : QueueIds s) (hstanding : ∀ a, Standing steps s n a)
    (hissued : (queueId, key) ∈ steps.filterMap issuedBy) (hnew : queueId ∉ n.registered)
    (htimely : ∀ reason, ¬ Retired steps queueId (.cleared reason)) (a : ℕ) :
    Standing steps s (n.step (.register queueId key)) a := by
  have hmember (b : ℕ) (hb : b ≠ queueId) : b ∈ queueId :: n.registered ↔ b ∈ n.registered := by
    simp [hb]
  change Standing steps s (({ n with registered := queueId :: n.registered } : Node).withWaiters
    (n.slots.register queueId key queueId)) a
  rcases hlives.issued queueId key hissued with hqueued | ⟨fate, hfate⟩
  · obtain ⟨hslot, hsent⟩ := (hstanding queueId).of_queued hlives hunique hqueued
    rw [if_neg hnew] at hslot
    rw [register_of_none hslot]
    by_cases ha : a = queueId
    · subst a
      refine .queued key hqueued ?_ ?_
      · simp [withWaiters]
      · simpa [sentTo, withWaiters] using hsent
    · exact (hstanding a).frame (by simp [withWaiters, ha])
        (by simp [sentTo, withWaiters]) (hmember a ha) id
        (fun _ => id) (fun _ => id)
  · -- a retired id without a channel has its outcome in the map, or was swept
    have hgone := hlives.gone queueId fate hfate
    cases hstanding queueId with
    | fresh => omega
    | queued key' hid => exact absurd hid (hgone.2 key')
    | missed reason hcleared => exact absurd hcleared (htimely reason)
    | told fate' outcome hfate' hmatches hslot hsent hin => exact absurd hin hnew
    | buffered fate' outcome hfate' hmatches hslot hsent =>
      rw [register_of_resolved hslot]
      by_cases ha : a = queueId
      · subst a
        refine .told fate' outcome hfate' hmatches ?_ ?_ (mem_cons_self ..)
        · simp [withWaiters]
        · simpa [sentTo, withWaiters] using hsent
      · exact (hstanding a).frame (by simp [withWaiters, ha])
          (by simp [sentTo, withWaiters, Ne.symm ha]) (hmember a ha)
          id (fun _ => id) (fun _ => id)

/-- A node runs behind a log: resolutions are executed for `log` and due for
`rest`. -/
structure Node.Tracks (n : Node) (log rest : List LogEntry) : Prop where
  done : n.returned ++ n.executed = replaySteps log
  due : n.pending = Run.trace applyEntry (replay log) rest
  ahead : n.state = Run.final applyEntry (replay log) rest
  standing : ∀ queueId, Standing (replaySteps log) (replay log) n queueId

variable {log rest : List LogEntry}

theorem Node.Tracks.steps_eq (h : n.Tracks log rest) : n.steps = replaySteps (log ++ rest) := by
  rw [steps, replaySteps, h.done, h.due, Run.trace_append]
  rfl

theorem Node.Tracks.rest_eq_nil (h : n.Tracks log rest) (hpending : n.pending = []) :
    rest = [] := by
  have hdue := h.due
  rw [hpending] at hdue
  cases rest with
  | nil => rfl
  | cons => cases hdue

theorem Node.tracks_new : new.Tracks [] [] where
  done := rfl
  due := rfl
  ahead := rfl
  standing queueId := by
    refine .fresh (Nat.zero_le _) ?_ rfl not_mem_nil
    simp [new]

theorem enqueuedCount_replaySteps_le (log rest : List LogEntry) :
    enqueuedCount (replaySteps log) ≤ enqueuedCount (replaySteps (log ++ rest)) := by
  unfold replaySteps enqueuedCount
  rw [Run.trace_append, countP_append]
  exact Nat.le_add_right _ _

theorem Node.step_resolve_nil (h : n.pending = [])
    (order : HashMap.IterOrder ℕ (WaiterSlot ℕ)) : n.step (.resolve order) = n := by
  rw [step, h]

theorem Node.step_resolve_cons {step : AppliedStep} {rest : List AppliedStep}
    (h : n.pending = step :: rest) (order : HashMap.IterOrder ℕ (WaiterSlot ℕ)) :
    n.step (.resolve order) =
      ({ n with pending := rest, executed := n.executed ++ [step] } : Node).execute order
        (waiterResolutionFor step.input.command step.response) := by
  rw [Node.step, h]

/-- A due resolution is executed: the node follows the log by one entry. -/
theorem Node.Tracks.resolve {e : LogEntry} (h : n.Tracks log (e :: rest))
    (hfew : enqueuedCount (replaySteps (log ++ e :: rest)) < 2 ^ 64)
    (order : HashMap.IterOrder ℕ (WaiterSlot ℕ)) (htimely : (NodeEvent.resolve order).Timely n) :
    (n.step (.resolve order)).Tracks (log ++ [e]) rest := by
  have hentry : enqueuedCount (replaySteps (log ++ [e])) < 2 ^ 64 := by
    have hle := enqueuedCount_replaySteps_le (log ++ [e]) rest
    rw [append_assoc] at hle
    exact hle.trans_lt hfew
  obtain ⟨hlog, hroom⟩ := enqueued_room hentry
  have heffect := applyEntry_idEffect (replay_wellFormed log) e hroom
  -- the node as the resolution finds it, with the step marked as executed
  obtain ⟨m, hm⟩ : ∃ m : Node, m = { n with
      pending := Run.trace applyEntry (applyEntry (replay log) e).1 rest
      executed := n.executed ++ [Run.stepOf applyEntry (replay log) e] } := ⟨_, rfl⟩
  have hstep : n.step (.resolve order) =
      m.execute order (waiterResolutionFor e.command (applyEntry (replay log) e).2) := by
    rw [hm]
    exact step_resolve_cons h.due order
  have hstanding (a : ℕ) : Standing (replaySteps log) (replay log) m a := by
    rw [hm]
    exact (h.standing a).frame rfl rfl Iff.rfl id (fun _ => id) (fun _ => id)
  have hreceipt : m.ReceiptOf (waiterResolutionFor e.command (applyEntry (replay log) e).2) := by
    rw [hm]
    exact htimely (Run.stepOf applyEntry (replay log) e) (by rw [h.due]; rfl)
  obtain ⟨hstate, hpending, hexecuted, hreturned⟩ := m.execute_steps order
    (waiterResolutionFor e.command (applyEntry (replay log) e).2)
  rw [hstep]
  constructor
  · rw [hreturned, hexecuted, hm, replaySteps_concat, ← h.done, append_assoc]
  · rw [hpending, hm, replay_concat]
  · rw [hstate, hm, replay_concat]
    exact h.ahead
  · intro a
    rw [replaySteps_concat, replay_concat]
    exact standing_executed (replay_lives log hlog) (replay_queueIds log hlog).2 hstanding
      hreceipt heffect order a

variable {event : NodeEvent}

/-- One event at a node: the batch of an `apply` call becomes due, a due
resolution is executed, and everything else leaves the log as it is. -/
theorem Node.Tracks.step (h : n.Tracks log rest) (hfew : enqueuedCount n.steps < 2 ^ 64)
    (hallowed : event.Allowed n) (htimely : event.Timely n) :
    ∃ log' rest', (n.step event).Tracks log' rest' := by
  rw [h.steps_eq] at hfew
  -- an event that leaves waiters and registrations alone
  have hstanding (m : Node) (hslots : m.slots = n.slots) (hsent : m.sent = n.sent)
      (hregistered : m.registered = n.registered)
      (queueId : ℕ) : Standing (replaySteps log) (replay log) m queueId :=
    (h.standing queueId).frame (by rw [hslots]) (by simp [sentTo, hsent])
      (by rw [hregistered]) id (fun _ => id) (fun _ => id)
  cases event with
  | apply batch =>
    obtain ⟨hpending, -⟩ := hallowed
    obtain rfl := h.rest_eq_nil hpending
    have hstate : n.state = replay log := h.ahead
    refine ⟨log, batch, h.done, ?_, ?_, hstanding _ rfl rfl rfl⟩
    · rw [← hstate]
      rfl
    · rw [← hstate]
      rfl
  | resolve order =>
    cases rest with
    | nil =>
      rw [step_resolve_nil h.due]
      exact ⟨log, [], h⟩
    | cons e rest => exact ⟨log ++ [e], rest, h.resolve hfew order htimely⟩
  | returns =>
    refine ⟨log, rest, ?_, h.due, h.ahead, hstanding _ rfl rfl rfl⟩
    change n.returned ++ n.executed ++ [] = _
    rw [append_nil, h.done]
  | register =>
    obtain ⟨hissued, hnew⟩ := hallowed
    have hlog := (enqueuedCount_replaySteps_le log rest).trans_lt hfew
    refine ⟨log, rest, h.done, h.due, h.ahead, ?_⟩
    refine standing_registered (replay_lives log hlog) (replay_queueIds log hlog).2 h.standing
      ?_ hnew ?_
    · rw [← h.done, filterMap_append]
      exact mem_append_left _ hissued
    · rw [← h.done]
      exact htimely
  | stash | unstash =>
    exact ⟨log, rest, h.done, h.due, h.ahead, hstanding _ rfl rfl rfl⟩

theorem Node.enqueuedCount_step (hallowed : event.Allowed n) :
    enqueuedCount n.steps ≤ enqueuedCount (n.step event).steps := by
  cases event with
  | apply batch =>
    have hsteps : (n.step (.apply batch)).steps =
        n.steps ++ Run.trace applyEntry n.state batch := by
      unfold steps
      rw [hallowed.1, append_nil]
      rfl
    rw [hsteps]
    unfold enqueuedCount
    rw [countP_append]
    exact Nat.le_add_right _ _
  | resolve order =>
    cases hpending : n.pending with
    | nil => rw [step_resolve_nil hpending]
    | cons step rest =>
      obtain ⟨-, hpending', hexecuted, hreturned⟩ := execute_steps
        { n with pending := rest, executed := n.executed ++ [step] } order
        (waiterResolutionFor step.input.command step.response)
      unfold steps
      rw [step_resolve_cons hpending, hpending', hexecuted, hreturned, hpending]
      simp
  | returns =>
    unfold steps
    simp [step]
  | register | stash | unstash => exact le_rfl

/-- A node and its events as a machine. -/
def Node.machine (n : Node) (event : NodeEvent) : Node × Unit :=
  (n.step event, ())

def Node.after (events : List NodeEvent) : Node :=
  Run.final machine new events

/-- What a proposer is owed: an entry in no queue has left its queue, and when it
left, its channel was sent one outcome, that of its fate. -/
structure Node.Hears (n : Node) (queueId : ℕ) : Prop where
  left : (∀ key, queueId ∉ n.state.queuedIds key) → ∃ fate, Retired n.steps queueId fate
  told : ∀ fate, Retired n.steps queueId fate →
    ∃ outcome, n.sentTo queueId = [outcome] ∧ fate.Matches outcome

theorem Node.Tracks.hears (h : n.Tracks log [])
    (hfew : enqueuedCount n.steps < 2 ^ 64) (hin : queueId ∈ n.registered) : n.Hears queueId := by
  have hsteps : n.steps = replaySteps log := by rw [h.steps_eq, append_nil]
  have hstate : n.state = replay log := h.ahead
  rw [hsteps] at hfew
  have hlives := replay_lives log hfew
  constructor
  · intro hnone
    rw [hstate] at hnone
    rw [hsteps]
    cases h.standing queueId with
    | fresh hid hslot hsent hnot | buffered fate outcome hfate hmatches hslot hsent hnot
    | missed reason hfate hslot hsent hnot => exact absurd hin hnot
    | queued key hid => exact absurd hid (hnone key)
    | told fate outcome hfate => exact ⟨fate, hfate⟩
  · intro fate hfate
    rw [hsteps] at hfate
    have hgone := hlives.gone queueId fate hfate
    cases h.standing queueId with
    | fresh hid hslot hsent hnot | buffered fate' outcome hfate' hmatches hslot hsent hnot
    | missed reason hfate' hslot hsent hnot => exact absurd hin hnot
    | queued key hid => exact absurd hid (hgone.2 key)
    | told fate' outcome hfate' hmatches hslot hsent =>
      obtain rfl := hlives.once queueId fate fate' hfate hfate'
      exact ⟨outcome, hsent, hmatches⟩

/-- **Every waiter hears once.** Batches, resolutions, registrations and receipts
may interleave in any way the node allows. If no registration comes after the
sweep of its entry's branch and no stale receipt is staged for an entry when it is
reported applied, then whenever no resolution is due, each registered
id whose entry has left its queue was sent one outcome, the one of its fate. -/
theorem waiters_hear_once (events : List NodeEvent)
    (hallowed : ∀ st ∈ Run.trace machine new events, st.input.Allowed st.before)
    (htimely : ∀ st ∈ Run.trace machine new events, st.input.Timely st.before)
    (hfew : enqueuedCount (after events).steps < 2 ^ 64) (hidle : (after events).pending = []) :
    ∀ queueId ∈ (after events).registered, (after events).Hears queueId := by
  have htracks : enqueuedCount (after events).steps < 2 ^ 64 →
      ∃ log rest, (after events).Tracks log rest := by
    apply Run.final_of_invariant machine
      (P := fun n => enqueuedCount n.steps < 2 ^ 64 → ∃ log rest, n.Tracks log rest)
      (C := fun n event => event.Allowed n ∧ event.Timely n)
    · rintro n event hn ⟨hevent, hevent'⟩ hcount
      have hbefore := (enqueuedCount_step hevent).trans_lt hcount
      obtain ⟨log, rest, h⟩ := hn hbefore
      exact h.step hbefore hevent hevent'
    · intro _
      exact ⟨[], [], tracks_new⟩
    · intro st hst
      exact ⟨hallowed st hst, htimely st hst⟩
  obtain ⟨log, rest, h⟩ := htracks hfew
  obtain rfl := h.rest_eq_nil hidle
  intro queueId hin
  exact h.hears hfew hin

namespace Sample

noncomputable def resolve : NodeEvent := .resolve (HashMap.IterOrder.listed _ _)

noncomputable def accepted : List NodeEvent :=
  [.apply (created ++ [entry 2 (.enqueueCommand (submission 1)),
    entry 3 (.enqueueCommand (submission 2))]), resolve, resolve, resolve, .returns]

noncomputable def served : List NodeEvent :=
  [.stash 0 ⟨"db", "main"⟩ (.transact (cid 7) 1), .apply [entry 4 (.applyHead (head 0 1))],
    resolve, .returns]

noncomputable def dropped : List NodeEvent :=
  [.apply [entry 5 (.dropBranch "db" "main" 0)], resolve, .returns]

noncomputable def early : List NodeEvent :=
  accepted ++ [.register 1 ⟨"db", "main"⟩] ++ served ++ [.register 0 ⟨"db", "main"⟩] ++ dropped

noncomputable def late : List NodeEvent :=
  accepted ++ dropped ++ [.register 0 ⟨"db", "main"⟩]

end Sample

/-- Of two proposers on a branch, the one whose entry is applied before it registers hears of the
commit, and the one that registers before the branch is dropped hears of the drop. -/
theorem waiters_hear_once_early :
    (∃ receipt, (after early).sentTo 0 = [.applied receipt] ∧
      receipt.commitId = cid 7 ∧ receipt.commitT = 1) ∧
      (after early).sentTo 1 = [.aborted .branchDropped] := by
  have hallowed : ∀ st ∈ Run.trace machine new early,
      st.input.Allowed st.before := by
    iterate 5 refine forall_mem_cons.mpr ⟨by trivial, ?_⟩
    refine forall_mem_cons.mpr ⟨⟨mem_cons_of_mem _ (mem_singleton_self _), not_mem_nil⟩, ?_⟩
    iterate 4 refine forall_mem_cons.mpr ⟨by trivial, ?_⟩
    refine forall_mem_cons.mpr ⟨⟨mem_cons_self .., by decide⟩, ?_⟩
    iterate 3 refine forall_mem_cons.mpr ⟨by trivial, ?_⟩
    exact forall_mem_nil _
  have htimely : ∀ st ∈ Run.trace machine new early,
      st.input.Timely st.before := by
    -- of the resolutions due only one reports an entry applied, and its receipt is staged
    refine forall_mem_cons.mpr ⟨trivial, ?_⟩
    iterate 3 refine forall_mem_cons.mpr ⟨by rintro _ ⟨⟩ _ _ _ ⟨⟩, ?_⟩
    refine forall_mem_cons.mpr ⟨trivial, ?_⟩
    refine forall_mem_cons.mpr ⟨?_, ?_⟩
    · rintro reason ⟨step, hmem, hfate, -⟩
      rcases hmem with _ | ⟨_, _ | ⟨_, _ | ⟨_, hmem⟩⟩⟩
      · cases hfate
      · cases hfate
      · cases hfate
      · cases hmem
    iterate 2 refine forall_mem_cons.mpr ⟨trivial, ?_⟩
    refine forall_mem_cons.mpr ⟨?_, ?_⟩
    · rintro _ ⟨⟩ _ _ _ ⟨⟩ staged hstaged
      cases (Finmap.lookup_insert _).symm.trans hstaged
      exact ⟨rfl, rfl⟩
    refine forall_mem_cons.mpr ⟨trivial, ?_⟩
    refine forall_mem_cons.mpr ⟨?_, ?_⟩
    · rintro reason ⟨step, hmem, hfate, -⟩
      rcases hmem with _ | ⟨_, _ | ⟨_, _ | ⟨_, _ | ⟨_, hmem⟩⟩⟩⟩
      · cases hfate
      · cases hfate
      · cases hfate
      · cases hfate
      · cases hmem
    refine forall_mem_cons.mpr ⟨trivial, ?_⟩
    refine forall_mem_cons.mpr ⟨by rintro _ ⟨⟩ _ _ _ ⟨⟩, ?_⟩
    refine forall_mem_cons.mpr ⟨trivial, ?_⟩
    exact forall_mem_nil _
  have hcount : enqueuedCount (after early).steps = 2 := rfl
  have hears := waiters_hear_once early hallowed htimely (by decide) rfl
  have happlied : Retired (after early).steps 0 (.applied (cid 7) 1) :=
    ⟨_, .tail _ (.tail _ (.tail _ (.head _))), rfl, ⟨"db", "main"⟩, mem_cons_self .., by decide⟩
  have hcleared : Retired (after early).steps 1 (.cleared .branchDropped) :=
    ⟨_, mem_of_getLast? rfl, rfl, ⟨"db", "main"⟩, mem_singleton_self _, not_mem_nil⟩
  obtain ⟨outcome, hsent, hmatches⟩ := (hears 0 (mem_cons_self ..)).told _ happlied
  obtain ⟨outcome', hsent', hmatches'⟩ :=
    (hears 1 (mem_cons_of_mem _ (mem_singleton_self _))).told _ hcleared
  refine ⟨?_, by rw [hsent', hmatches']⟩
  cases outcome with
  | applied receipt => exact ⟨receipt, hsent, hmatches⟩
  | aborted => exact hmatches.elim

/-- A proposer that registers after its branch was dropped is never told: its
entry left the queue, no resolution is due, and nothing was sent. -/
theorem late_waiter_unheard :
    (∀ st ∈ Run.trace machine new late, st.input.Allowed st.before) ∧
      (after late).registered = [0] ∧
      (after late).pending = [] ∧
      Retired (after late).steps 0 (.cleared .branchDropped) ∧
      (after late).sentTo 0 = [] := by
  refine ⟨?_, rfl, rfl, ?_, ?_⟩
  · iterate 8 refine forall_mem_cons.mpr ⟨by trivial, ?_⟩
    exact forall_mem_singleton.mpr ⟨mem_cons_self .., not_mem_nil⟩
  · exact ⟨_, mem_of_getLast? rfl, rfl, ⟨"db", "main"⟩, mem_cons_self .., not_mem_nil⟩
  · let swept := abortAllForBranch (HashMap.IterOrder.listed _ _) (∅ : WaiterMap ℕ)
      ⟨"db", "main"⟩ .branchDropped
    have hswept : swept = (∅, []) := abortAllForBranch_of_unparked (by simp) _ _
    change ((swept.2 ++ (swept.1.register 0 ⟨"db", "main"⟩ 0).2).filter
      fun message => message.1 = 0).map Prod.snd = []
    rw [hswept]
    rfl

end FlureeDb.Consensus
