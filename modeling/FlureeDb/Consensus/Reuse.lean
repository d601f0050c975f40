import FlureeDb.Consensus.Heads
import FlureeDb.Consensus.Idempotency

/-!
What remains of a branch that was dropped or purged. A removal takes the head,
the retraction, the queue and the registry slot. The status and config records
and the outcomes of the branch's submissions are keyed by its ledger id and
stay, so a branch created again under the same name inherits them. The result
here says precisely when it does not.
-/

namespace FlureeDb.Consensus

open FlureeDb.Core Lib Option VersionedValue

/-- Stored values are newer than the value an absent record reads as, and the
bounds on the queues never change. -/
structure Stored (s : NameServiceState) : Prop where
  status : ∀ ledgerId value, s.status.lookup ledgerId = some value →
    StoredStatus.initial.v < value.v
  config : ∀ ledgerId value, s.config.lookup ledgerId = some value →
    StoredConfig.unborn.v < value.v
  queueConfig : s.queueConfig = .default

variable {T : Type} [VersionedValue T] {values : HashMap String T} {id : String} {new : T}

theorem absent_lt_of_push {ledgerId : String}
    (h : ∀ id value, values.lookup id = some value →
      v (absent : T) < v value) (hv : v (currentValue values ledgerId) < v new) :
    ∀ id value, (values.insert ledgerId new).lookup id = some value →
      v (absent : T) < v value := by
  have habsent : v (absent : T) ≤
      v (currentValue values ledgerId) := by
    unfold currentValue
    cases hlookup : values.lookup ledgerId with
    | none => exact le_rfl
    | some value => exact (h ledgerId value hlookup).le
  intro id value hvalue
  rw [HashMap.lookup_insert_eq] at hvalue
  split at hvalue
  · cases hvalue
    exact habsent.trans_lt hv
  · exact h id value hvalue

variable {s s' : NameServiceState}

theorem Transition.stored {order : CacheOrder} {logIndex : ℕ} {command : Command}
    {response : Response} (h : Transition order logIndex s command s' response) (hs : Stored s) :
    Stored s' := by
  cases h with
  | statusPushed hv =>
    exact ⟨absent_lt_of_push (T := StoredStatus) hs.status hv, hs.config, hs.queueConfig⟩
  | configPushed hv =>
    exact ⟨hs.status, absent_lt_of_push (T := StoredConfig) hs.config hv, hs.queueConfig⟩
  | _ => exact ⟨hs.status, hs.config, hs.queueConfig⟩

theorem replay_stored (log : List LogEntry) : Stored (replay log) := by
  induction log using List.reverseRecOn with
  | nil => constructor <;> simp [replay, NameServiceState.new]
  | append_singleton log entry ih =>
    rw [replay_concat]
    exact (applyEntry_transition (replay_wellFormed log) entry).stored ih

/-! ### For which branch an outcome was recorded -/

/-- The key and the branch of the entry that a step settles. Nothing ties the two: a submission may
carry a key with the id of another ledger. -/
def recordsFor (step : AppliedStep) : Option (IdempotencyCacheKey × RefKey) := do
  let (entry, _) ← settledBy step.before step.input.index step.input.command step.response
  let cacheKey ← entry.idempotency
  let key ← step.input.command.refKey
  return (cacheKey, key)

/-- The branch whose entry was the last to record an outcome under the key. -/
def recordedFor (log : List LogEntry) (cacheKey : IdempotencyCacheKey) : Option RefKey :=
  List.lookup cacheKey ((replaySteps log).reverse.filterMap recordsFor)

theorem recordedFor_concat (log : List LogEntry) (e : LogEntry) (cacheKey : IdempotencyCacheKey) :
    recordedFor (log ++ [e]) cacheKey =
      List.lookup cacheKey ((recordsFor (Run.stepOf applyEntry (replay log) e)).toList ++
        (replaySteps log).reverse.filterMap recordsFor) := by
  unfold recordedFor
  rw [replaySteps_concat, List.reverse_concat, List.filterMap_cons]
  cases recordsFor (Run.stepOf applyEntry (replay log) e) <;> rfl

theorem recordedFor_ne_none_of_concat {log : List LogEntry} {cacheKey : IdempotencyCacheKey}
    (h : recordedFor log cacheKey ≠ none) (e : LogEntry) :
    recordedFor (log ++ [e]) cacheKey ≠ none := by
  rw [recordedFor_concat]
  cases recordsFor (Run.stepOf applyEntry (replay log) e) with
  | none => exact h
  | some record =>
    rw [Option.toList_some, List.singleton_append, List.lookup_cons]
    split
    · simp
    · exact h

/-- Only a step that settles an entry with the key records an outcome under it. -/
theorem QueueEffect.settledBy_of_cached {order : CacheOrder} {logIndex : ℕ}
    {s s' : NameServiceState} {command : Command} {response : Response}
    {cacheKey : IdempotencyCacheKey} (h : QueueEffect order logIndex s s' command response)
    (hbefore : s.idempotency.lookup cacheKey = none)
    (hafter : s'.idempotency.lookup cacheKey ≠ none) :
    ∃ entry outcome key, settledBy s logIndex command response = some (entry, outcome) ∧
      entry.idempotency = some cacheKey ∧ command.refKey = some key := by
  cases h with
  | quiet _ _ hcache | appended _ _ _ hcache | cleared _ _ hcache =>
    rw [hcache] at hafter
    exact absurd hbefore hafter
  | evicted _ hcache =>
    rw [hcache, HashMap.lookup_eraseAll, hbefore, ite_self] at hafter
    exact absurd rfl hafter
  | @settled _ _ key entry rest outcome hsettles hqueue _ hcache =>
    rw [hcache, lookup_recordedOutcome] at hafter
    split at hafter
    next hkey =>
      have hsettled : settledBy s logIndex command response = some (entry, outcome) := by
        cases hsettles <;> simp [settledBy, hqueue]
      exact ⟨entry, outcome, key, hsettled, hkey, by cases hsettles <;> rfl⟩
    next => exact absurd hbefore hafter

/-- Every outcome that is kept was recorded for a branch. -/
theorem recordedFor_of_cached {log : List LogEntry} {cacheKey : IdempotencyCacheKey}
    (h : (replay log).idempotency.lookup cacheKey ≠ none) : recordedFor log cacheKey ≠ none := by
  induction log using List.reverseRecOn with
  | nil => simp [replay, NameServiceState.new] at h
  | append_singleton log e ih =>
    by_cases hold : (replay log).idempotency.lookup cacheKey = none
    · rw [replay_concat] at h
      obtain ⟨entry, outcome, key, hsettled, hkey, hbranch⟩ :=
        (applyEntry_queueEffect (replay_wellFormed log) e).settledBy_of_cached hold h
      have hrecords : recordsFor (Run.stepOf applyEntry (replay log) e) = some (cacheKey, key) := by
        simp [recordsFor, Run.stepOf, hsettled, hkey, hbranch]
      rw [recordedFor_concat, hrecords]
      simp
    · exact recordedFor_ne_none_of_concat (ih hold) e

/-- The branch reads as one that never existed: nothing is stored for it, its
status and config read as absent and accept a first push, and a submission is
enqueued as far as the global cap allows, whatever its key, unless the key has an
outcome that was recorded for another branch. -/
structure ReadsAsNew (recorded : IdempotencyCacheKey → Option RefKey) (s : NameServiceState)
    (key : RefKey) : Prop where
  unborn : s.refs.lookup key = none
  live : key ∉ s.retracted
  no_queue : s.queues.lookup key = none
  status_initial : ∀ id, splitLedgerId id = .ok (key.ledgerName, key.branch) →
    currentValue s.status id = StoredStatus.initial
  config_unborn : ∀ id, splitLedgerId id = .ok (key.ledgerName, key.branch) →
    currentValue s.config id = StoredConfig.unborn
  status_accepted : ∀ id, splitLedgerId id = .ok (key.ledgerName, key.branch) →
    ∀ new : StoredStatus, StoredStatus.initial.v < new.v →
      (applyPushStatus s id (some .initial) new).2 = .statusUpdated
  config_accepted : ∀ id, splitLedgerId id = .ok (key.ledgerName, key.branch) →
    ∀ new : StoredConfig, StoredConfig.unborn.v < new.v →
      (applyPushConfig s ⟨id, some .unborn, new⟩).2 = .configUpdated
  enqueued : ∀ logIndex args, (⟨args.ledgerId, args.branch⟩ : RefKey) = key →
    (∀ cacheKey, args.idempotency = some cacheKey → s.idempotency.lookup cacheKey ≠ none →
      ∀ other, recorded cacheKey = some other → other = key) →
    (applyEnqueueCommand s logIndex args).2 = .enqueued key.ledgerId s.nextQueueId ∨
      (applyEnqueueCommand s logIndex args).2 =
        .queueFull key.ledgerId s.globalDepth s.queueConfig.globalCap .global

/-- Nothing that a removal leaves behind is stored for the branch. -/
structure NothingKept (recorded : IdempotencyCacheKey → Option RefKey) (s : NameServiceState)
    (key : RefKey) : Prop where
  status : ∀ id, splitLedgerId id = .ok (key.ledgerName, key.branch) →
    s.status.lookup id = none
  config : ∀ id, splitLedgerId id = .ok (key.ledgerName, key.branch) →
    s.config.lookup id = none
  outcomes : ∀ cacheKey, recorded cacheKey = some key → s.idempotency.lookup cacheKey = none

variable {key : RefKey}

theorem applyVersionedPush_of_absent (hsplit : splitLedgerId id = .ok (key.ledgerName, key.branch))
    (hknown : s.Registered key) (habsent : values.lookup id = none)
    (hrefl : ((some absent : Option T) == some absent) = true) (hv : v (absent : T) < v new) :
    (applyVersionedPush s values id (some absent) new).2 =
      updated (T := T) := by
  have hcurrent : currentValue values id = absent := by
    simp [currentValue, habsent]
  unfold applyVersionedPush
  simp [hsplit, knows_iff.mpr hknown, hcurrent, hrefl, not_le.mpr hv]

/-- The answer of a recorded outcome is neither an acceptance nor a full queue. -/
theorem ApplyOutcome.answer_ne (outcome : ApplyOutcome) (bodyCid : ContentId)
    (response : Response) (h : response.isEnqueued = true ∨
      ∃ ledgerId depth cap scope, response = .queueFull ledgerId depth cap scope) :
    outcome.answer bodyCid ≠ response := by
  rintro rfl
  unfold answer at h
  split at h
  · simp [Response.isEnqueued] at h
  · cases outcome <;> simp [Response.isEnqueued] at h

/-! ### After a removal and a creation -/

/-- The branch was removed from `s` and created again. -/
structure Recreated (s s' : NameServiceState) (key : RefKey) : Prop where
  registered : s'.Registered key
  unborn : s'.refs.lookup key = none
  live : key ∉ s'.retracted
  no_queue : s'.queues.lookup key = none
  status : s'.status = s.status
  config : s'.config = s.config
  idempotency : s'.idempotency = s.idempotency
  queueConfig : s'.queueConfig = s.queueConfig

section

variable (s : NameServiceState) (key : RefKey) (reason : ClearReason)

theorem not_registered_removed (millis : ℕ) : ¬ (removed s key reason millis).Registered key := by
  rintro ⟨ledger, hledger, hmem⟩
  simp only [removed, lookup_removeBranch, if_true] at hledger
  rw [filter_eq_some_iff, map_eq_some_iff] at hledger
  obtain ⟨⟨old, -, rfl⟩, -⟩ := hledger
  simp [LedgerRecord.retainOthers] at hmem

theorem recreated_of_removed (millis logIndex createdAt : ℕ) :
    Recreated s (createLedger (removed s key reason millis) logIndex
      ⟨key.ledgerName, key.branch, createdAt⟩).1 key := by
  have hnew := not_registered_removed s key reason millis
  have hcreated : createLedger (removed s key reason millis) logIndex
      ⟨key.ledgerName, key.branch, createdAt⟩ = _ :=
    createLedger_of_not_registered logIndex _ hnew
  rw [hcreated]
  constructor
  · exact ⟨_, Finmap.lookup_insert _, by simp [LedgerRecord.pushBranch]⟩
  · change (removedRefs s.refs key).lookup key = none
    rw [lookup_removedRefs, if_pos rfl]
  · simp [removed]
  · simp [removed]
  · rfl
  · rfl
  · rfl
  · rfl

end

variable {recorded : IdempotencyCacheKey → Option RefKey}

theorem Recreated.readsAsNew (h : Recreated s s' key) (hs : Stored s)
    (hcached : ∀ cacheKey, s.idempotency.lookup cacheKey ≠ none → recorded cacheKey ≠ none)
    (hkept : NothingKept recorded s key) : ReadsAsNew recorded s' key where
  unborn := h.unborn
  live := h.live
  no_queue := h.no_queue
  status_initial id hid := by
    simp [currentValue, h.status, hkept.status id hid, absent]
  config_unborn id hid := by
    simp [currentValue, h.config, hkept.config id hid, absent]
  status_accepted id hid new hv := by
    refine applyVersionedPush_of_absent hid h.registered ?_ rfl hv
    rw [h.status]
    exact hkept.status id hid
  config_accepted id hid new hv := by
    refine applyVersionedPush_of_absent hid h.registered ?_ rfl hv
    rw [h.config]
    exact hkept.config id hid
  enqueued logIndex args hargs hscope := by
    subst hargs
    have hcap : 0 < s'.queueConfig.perBranchCap := by
      rw [h.queueConfig, hs.queueConfig]
      decide
    have hunseen : seenBefore s' args = none := by
      unfold seenBefore
      cases hkey : args.idempotency with
      | none => rfl
      | some cacheKey =>
        have hnone : s.idempotency.lookup cacheKey = none := by
          by_contra hsome
          obtain ⟨other, hother⟩ := ne_none_iff_exists'.mp (hcached cacheKey hsome)
          have hown := hscope cacheKey hkey (h.idempotency ▸ hsome) other hother
          exact hsome (hkept.outcomes cacheKey (hown ▸ hother))
        simp [h.idempotency, hnone, queueOf_eq_nil_of_lookup h.no_queue]
    -- only the global cap can refuse a submission that was not seen before
    unfold applyEnqueueCommand
    simp only [knows_iff.mpr h.registered, Bool.not_true, Bool.false_eq_true, if_false, h.live,
      hunseen, queueOf_eq_nil_of_lookup h.no_queue, List.length_nil, not_le.mpr hcap]
    split
    · exact .inr rfl
    · exact .inl rfl

theorem lookup_eq_none_of_absent (hstored : ∀ value, values.lookup id = some value →
      v (absent : T) < v value)
    (hread : currentValue values id = absent) : values.lookup id = none := by
  refine eq_none_iff_forall_ne_some.mpr fun value hlookup => ?_
  have hlt := hstored value hlookup
  rw [currentValue, hlookup] at hread
  exact lt_irrefl _ (hread ▸ hlt)

theorem Recreated.nothingKept (h : Recreated s s' key) (hs : Stored s)
    (hnew : ReadsAsNew recorded s' key) : NothingKept recorded s key where
  status id hid := lookup_eq_none_of_absent (hs.status id) (h.status ▸ hnew.status_initial id hid)
  config id hid := lookup_eq_none_of_absent (hs.config id) (h.config ▸ hnew.config_unborn id hid)
  outcomes cacheKey hscope := by
    cases hlookup : s.idempotency.lookup cacheKey with
    | none => rfl
    | some outcome =>
      -- A submission with the key of a kept outcome is answered from it.
      let args : QueueSubmission :=
        ⟨key.ledgerName, key.branch, some cacheKey, outcome.bodyCid, outcome.bodyCid,
          .jsonLdInsert, 0⟩
      have hanswer := applyEnqueueCommand_of_cached args 0 h.registered h.live rfl
        (h.idempotency ▸ hlookup)
      have hscoped : ∀ own, args.idempotency = some own → s'.idempotency.lookup own ≠ none →
          ∀ other, recorded own = some other → other = key := by
        rintro own hown - other hother
        cases hown
        exact Option.some.inj (hother.symm.trans hscope)
      rcases hnew.enqueued 0 args rfl hscoped with hresponse | hresponse
      · rw [hanswer] at hresponse
        exact absurd hresponse (outcome.answer_ne _ _ (.inl rfl))
      · rw [hanswer] at hresponse
        exact absurd hresponse (outcome.answer_ne _ _ (.inr ⟨_, _, _, _, rfl⟩))

/-- **When a dropped name is reusable.** After any log, a branch that is dropped
or purged and then created again reads as new exactly if no status record and no
config record is stored for it, nor an outcome, under whatever key it was recorded. -/
theorem dropped_name_reusable_iff (log : List LogEntry) (key : RefKey)
    (removal creation : LogEntry) (createdAt : ℕ)
    (hremoved : removedBranch removal.command (applyEntry (replay log) removal).2 = some key)
    (hcreation : creation.command = .createLedger ⟨key.ledgerName, key.branch, createdAt⟩) :
    ReadsAsNew (recordedFor log) (applyEntry (applyEntry (replay log) removal).1 creation).1 key ↔
      NothingKept (recordedFor log) (replay log) key := by
  obtain ⟨-, reason, millis, hstate⟩ :=
    (applyEntry_transition (replay_wellFormed log) removal).of_removedBranch hremoved
  have hrecreated : Recreated (replay log)
      (applyEntry (applyEntry (replay log) removal).1 creation).1 key := by
    rw [hstate, applyEntry, hcreation]
    exact recreated_of_removed _ _ _ _ _ _
  exact ⟨hrecreated.nothingKept (replay_stored log),
    hrecreated.readsAsNew (replay_stored log) fun _ => recordedFor_of_cached⟩

namespace Sample

noncomputable def used : List LogEntry :=
  created ++ [entry 2 (.enqueueCommand (keyed 1)), entry 3 (.applyHead (head 0 1)),
    entry 4 (.pushStatus "db:main" (some .initial) ⟨2, "indexing", []⟩),
    entry 5 (.pushConfig ⟨"db:main", some .unborn, ⟨1, none⟩⟩)]

noncomputable def recreated : List LogEntry :=
  used ++ [entry 6 (.dropBranch "db" "main" 0), entry 7 (.createLedger ⟨"db", "main", 0⟩)]

end Sample

/-- A branch on which nothing but a keyless commit happened is reusable. -/
theorem dropped_name_reusable_born :
    ReadsAsNew (recordedFor Sample.born) (applyEntry (applyEntry (replay Sample.born)
        (Sample.entry 4 (.dropBranch "db" "main" 0))).1
      (Sample.entry 5 (.createLedger ⟨"db", "main", 0⟩))).1 ⟨"db", "main"⟩ := by
  refine (dropped_name_reusable_iff Sample.born ⟨"db", "main"⟩ _ _ 0 rfl rfl).mpr ⟨?_, ?_, ?_⟩
  · exact fun _ _ => rfl
  · exact fun _ _ => rfl
  · exact fun _ _ => rfl

/-- A used branch comes back with the status, the config and the outcome it had
before it was dropped. -/
theorem dropped_name_inherits :
    (currentValue (replay Sample.recreated).status "db:main").v = 2 ∧
      (currentValue (replay Sample.recreated).config "db:main").v = 1 ∧
      ∃ record, (applyEntry (replay Sample.recreated)
        (Sample.entry 8 (.enqueueCommand (Sample.keyed 1)))).2 = .idempotencyHit record :=
  ⟨rfl, rfl, _, rfl⟩

end FlureeDb.Consensus
