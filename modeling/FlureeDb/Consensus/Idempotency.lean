import FlureeDb.Consensus.Queues

/-!
A key commits at most once. The cache of outcomes and the queues divide a key's
life between them: as long as an entry with the key is queued there is no
outcome for it, and once it retires the outcome answers every later submission
until an eviction forgets it. The division needs that submissions with one key
go to one branch, since a submission looks for entries in flight on its own
branch only.
-/

namespace FlureeDb.Consensus

open FlureeDb.Core Lib List Option

def Command.cacheKey : Command → Option IdempotencyCacheKey
  | .enqueueCommand args => args.idempotency
  | _ => none

/-- Submissions that carry the same key target the same branch. -/
def KeysPinned (log : List LogEntry) : Prop :=
  ∀ e ∈ log, ∀ e' ∈ log, ∀ cacheKey, e.command.cacheKey = some cacheKey →
    e'.command.cacheKey = some cacheKey → e.command.refKey = e'.command.refKey

/-- A submission with a key goes to the branch of that key. -/
def PinnedTo (pin : IdempotencyCacheKey → RefKey) (command : Command) : Prop :=
  ∀ cacheKey, command.cacheKey = some cacheKey → command.refKey = some (pin cacheKey)

section

variable {log : List LogEntry} {cacheKey : IdempotencyCacheKey}

theorem KeysPinned.exists_pin (h : KeysPinned log) :
    ∃ pin : IdempotencyCacheKey → RefKey, ∀ e ∈ log, PinnedTo pin e.command := by
  have hkey (cacheKey : IdempotencyCacheKey) : ∃ key : RefKey, ∀ e ∈ log,
      e.command.cacheKey = some cacheKey → e.command.refKey = some key := by
    by_cases hused : ∃ e ∈ log, e.command.cacheKey = some cacheKey
    · obtain ⟨e, he, hcache⟩ := hused
      obtain ⟨key, hkey⟩ : ∃ key, e.command.refKey = some key := by
        cases hcommand : e.command with
        | enqueueCommand => exact ⟨_, rfl⟩
        | _ => simp [hcommand, Command.cacheKey] at hcache
      refine ⟨key, ?_⟩
      intro e' he' hcache'
      rw [← hkey]
      exact h e' he' e he cacheKey hcache' hcache
    · refine ⟨⟨"", ""⟩, ?_⟩
      intro e he hcache
      exact absurd ⟨e, he, hcache⟩ hused
  choose pin hpin using hkey
  exact ⟨pin, fun e he cacheKey hcache => hpin cacheKey e he hcache⟩

/-- A queued key is queued once, on its own branch, and has no outcome yet. -/
structure KeysHeld (pin : IdempotencyCacheKey → RefKey) (s : NameServiceState) : Prop where
  home : ∀ key, ∀ entry ∈ s.queueOf key, ∀ cacheKey,
    entry.idempotency = some cacheKey → pin cacheKey = key
  once : ∀ key, ((s.queueOf key).filterMap QueueEntry.idempotency).Nodup
  unsettled : ∀ key, ∀ entry ∈ s.queueOf key, ∀ cacheKey,
    entry.idempotency = some cacheKey → s.idempotency.lookup cacheKey = none

theorem keysHeld_new (pin : IdempotencyCacheKey → RefKey) : KeysHeld pin NameServiceState.new := by
  constructor <;> simp [NameServiceState.queueOf, NameServiceState.new]

variable {pin : IdempotencyCacheKey → RefKey} {s s' : NameServiceState}

theorem KeysHeld.of_sublist (hs : KeysHeld pin s)
    (hsub : ∀ key, (s'.queueOf key).Sublist (s.queueOf key))
    (hcache : ∀ key, ∀ entry ∈ s'.queueOf key, ∀ cacheKey, entry.idempotency = some cacheKey →
      s.idempotency.lookup cacheKey = none → s'.idempotency.lookup cacheKey = none) :
    KeysHeld pin s' where
  home key entry hentry := hs.home key entry ((hsub key).subset hentry)
  once key := ((hsub key).filterMap _).nodup (hs.once key)
  unsettled key entry hentry cacheKey hkey :=
    hcache key entry hentry cacheKey hkey
      (hs.unsettled key entry ((hsub key).subset hentry) cacheKey hkey)

variable {args : QueueSubmission}

/-- A submission that was not seen before carries a key that is neither cached
nor queued on its branch. -/
theorem fresh_of_seenBefore (h : seenBefore s args = none)
    (hkey : args.idempotency = some cacheKey) :
    s.idempotency.lookup cacheKey = none ∧
      ∀ entry ∈ s.queueOf ⟨args.ledgerId, args.branch⟩, entry.idempotency ≠ some cacheKey := by
  unfold seenBefore at h
  simp only [hkey] at h
  cases hcache : s.idempotency.lookup cacheKey with
  | some => simp [hcache] at h
  | none =>
    refine ⟨rfl, ?_⟩
    simpa [hcache] using h

variable {logIndex : ℕ}

theorem KeysHeld.of_append (hs : KeysHeld pin s) (hpinned : PinnedTo pin (.enqueueCommand args))
    (hunseen : seenBefore s args = none)
    (hqueues : s'.queueOf = Function.update s.queueOf ⟨args.ledgerId, args.branch⟩ (s.queueOf
      ⟨args.ledgerId, args.branch⟩ ++ [queuedEntry s logIndex args]))
    (hcache : s'.idempotency = s.idempotency) : KeysHeld pin s' := by
  have hmem {key : RefKey} {entry : QueueEntry} (h : entry ∈ s'.queueOf key) :
      entry ∈ s.queueOf key ∨
        (key = ⟨args.ledgerId, args.branch⟩ ∧ entry = queuedEntry s logIndex args) := by
    rw [hqueues, Function.update_apply] at h
    split at h
    · subst key
      rcases mem_append.mp h with h | h
      · exact .inl h
      · exact .inr ⟨rfl, mem_singleton.mp h⟩
    · exact .inl h
  constructor
  · intro key entry hentry cacheKey hkey
    rcases hmem hentry with hold | ⟨rfl, rfl⟩
    · exact hs.home key entry hold cacheKey hkey
    · exact (some.inj (hpinned cacheKey hkey)).symm
  · intro key
    rw [hqueues, Function.update_apply]
    split
    · rw [filterMap_append, nodup_append]
      have hone : ([queuedEntry s logIndex args].filterMap QueueEntry.idempotency).Nodup := by
        cases h : (queuedEntry s logIndex args).idempotency <;> simp [h]
      refine ⟨hs.once _, hone, ?_⟩
      intro old hold new hnew heq
      obtain ⟨entry, hentry, holdKey⟩ := mem_filterMap.mp hold
      obtain ⟨added, hadded, hnewKey⟩ := mem_filterMap.mp hnew
      rw [mem_singleton.mp hadded] at hnewKey
      exact (fresh_of_seenBefore hunseen hnewKey).2 entry hentry (heq ▸ holdKey)
    · exact hs.once key
  · intro key entry hentry cacheKey hkey
    rw [hcache]
    rcases hmem hentry with hold | ⟨rfl, rfl⟩
    · exact hs.unsettled key entry hold cacheKey hkey
    · exact (fresh_of_seenBefore hunseen hkey).1

theorem lookup_recordedOutcome (cache : HashMap IdempotencyCacheKey ApplyOutcome)
    (entry : QueueEntry) (outcome : ApplyOutcome) (cacheKey : IdempotencyCacheKey) :
    (recordedOutcome cache entry outcome).lookup cacheKey =
      if entry.idempotency = some cacheKey then some outcome else cache.lookup cacheKey := by
  unfold recordedOutcome
  cases entry.idempotency with
  | none => simp
  | some => simp [eq_comm]

theorem KeysHeld.eq_front (hs : KeysHeld pin s) {key a : RefKey} {front : QueueEntry}
    {rest : List QueueEntry} (hqueue : s.queueOf key = front :: rest)
    (hfront : front.idempotency = some cacheKey)
    {entry : QueueEntry} (hentry : entry ∈ Function.update s.queueOf key rest a) :
    entry.idempotency ≠ some cacheKey := by
  intro hkey
  have hfrontHome : pin cacheKey = key :=
    hs.home key front (by rw [hqueue]; exact mem_cons_self ..) cacheKey hfront
  rw [Function.update_apply] at hentry
  split at hentry
  · have honce := hs.once key
    rw [hqueue, filterMap_cons_some hfront, nodup_cons] at honce
    exact honce.1 (mem_filterMap.mpr ⟨entry, hentry, hkey⟩)
  · rename_i hne
    exact hne ((hs.home a entry hentry cacheKey hkey).symm.trans hfrontHome)

variable {response : Response} {order : CacheOrder} {command : Command}

theorem QueueEffect.keysHeld (h : QueueEffect order logIndex s s' command response)
    (hs : KeysHeld pin s) (hpinned : PinnedTo pin command) : KeysHeld pin s' := by
  cases h with
  | quiet hquiet hqueues hcache =>
    exact hs.of_sublist (fun key => by rw [hqueues]) fun _ _ _ _ _ hnone => hcache ▸ hnone
  | appended hlive hunseen hqueues hcache =>
    exact hs.of_append hpinned hunseen hqueues hcache
  | @settled _ _ home front rest outcome hsettles hqueue hqueues hcache hnext =>
    have hrest : rest.Sublist (s.queueOf home) := hqueue ▸ sublist_cons_self front rest
    refine hs.of_sublist (fun key => hqueues ▸ sublist_update hrest key) ?_
    intro key entry hentry cacheKey hkey hnone
    rw [hqueues] at hentry
    rw [hcache, lookup_recordedOutcome, if_neg, hnone]
    intro hfront
    exact hs.eq_front hqueue hfront hentry hkey
  | cleared hclears hqueues hcache =>
    exact hs.of_sublist (fun key => hqueues ▸ sublist_update (nil_sublist _) key)
      fun _ _ _ _ _ hnone => hcache ▸ hnone
  | evicted hqueues hcache =>
    refine hs.of_sublist (fun key => by rw [hqueues]) ?_
    intro key entry hentry cacheKey hkey hnone
    rw [hcache, HashMap.lookup_eraseAll, hnone, ite_self]

/-! ### What a step settles and what it forgets -/

def settledBy (s : NameServiceState) (logIndex : ℕ) :
    Command → Response → Option (QueueEntry × ApplyOutcome)
  | .applyHead args, .headApplied _ _ _ _ =>
    (s.queueOf ⟨args.ledgerId, args.branch⟩).head?.map fun entry =>
      (entry, appliedOutcome entry logIndex args)
  | .poisonQueueEntry args, .poisoned _ _ _ _ =>
    (s.queueOf ⟨args.ledgerId, args.branch⟩).head?.map fun entry =>
      (entry, failedOutcome entry logIndex args)
  | _, _ => none

/-- The step advanced a head with an entry that carries the key. -/
def commits (cacheKey : IdempotencyCacheKey) (step : AppliedStep) : Bool :=
  match step.input.command, step.response with
  | .applyHead args, .headApplied _ _ _ _ =>
    (step.before.queueOf ⟨args.ledgerId, args.branch⟩).head?.bind QueueEntry.idempotency =
      some cacheKey
  | _, _ => false

def Evicts (cacheKey : IdempotencyCacheKey) (step : AppliedStep) : Prop :=
  (∃ cutoff markerCutoff, step.input.command = .evictIdempotency cutoff markerCutoff) ∧
    step.before.idempotency.lookup cacheKey ≠ none ∧
    step.after.idempotency.lookup cacheKey = none

variable {outcome : ApplyOutcome}

theorem QueueEffect.of_settledBy {entry : QueueEntry}
    (h : QueueEffect order logIndex s s' command response)
    (hsettled : settledBy s logIndex command response = some (entry, outcome)) :
    (∃ key rest, s.queueOf key = entry :: rest) ∧
      s'.idempotency = recordedOutcome s.idempotency entry outcome := by
  cases h with
  | quiet hquiet =>
    have hwaiters := hquiet.waiters
    unfold settledBy at hsettled
    split at hsettled
    · cases hwaiters
    · cases hwaiters
    · cases hsettled
  | appended | evicted => cases hsettled
  | settled hsettles hqueue hqueues hcache =>
    cases hsettles with
    | applied | poisoned =>
      simp only [settledBy, hqueue] at hsettled
      obtain ⟨rfl, rfl⟩ := hsettled
      exact ⟨⟨_, _, hqueue⟩, hcache⟩
  | cleared hclears => cases hclears <;> cases hsettled

theorem settledBy_of_commits {step : AppliedStep} (h : commits cacheKey step = true) :
    ∃ entry outcome, settledBy step.before step.input.index step.input.command step.response =
      some (entry, outcome) ∧ entry.idempotency = some cacheKey := by
  unfold commits at h
  split at h
  · rename_i args _ _ _ _ hcommand hresponse
    rw [hcommand, hresponse]
    obtain ⟨entry, hentry, hkey⟩ := bind_eq_some_iff.mp (of_decide_eq_true h)
    refine ⟨entry, appliedOutcome entry step.input.index args, ?_, hkey⟩
    simp only [settledBy, hentry, map_some]
  · cases h

theorem QueueEffect.outcome_kept
    (h : QueueEffect order logIndex s s' command response) (hs : KeysHeld pin s)
    (hlookup : s.idempotency.lookup cacheKey = some outcome)
    (hkept : (∃ cutoff markerCutoff, command = .evictIdempotency cutoff markerCutoff) →
      s'.idempotency.lookup cacheKey ≠ none) : s'.idempotency.lookup cacheKey = some outcome := by
  cases h with
  | quiet hquiet hqueues hcache | appended hlive hunseen hqueues hcache
  | cleared hclears hqueues hcache => rw [hcache, hlookup]
  | settled hsettles hqueue hqueues hcache =>
    rw [hcache, lookup_recordedOutcome, if_neg, hlookup]
    intro hkey
    rw [hs.unsettled _ _ (hqueue ▸ mem_cons_self ..) cacheKey hkey] at hlookup
    cases hlookup
  | evicted hqueues hcache =>
    have hne := hkept ⟨_, _, rfl⟩
    rw [hcache, HashMap.lookup_eraseAll] at hne ⊢
    split at hne
    · exact absurd rfl hne
    · rw [if_neg ‹_›, hlookup]

section

/-- The state is well formed and divides the keys between queues and cache. -/
structure KeyState (pin : IdempotencyCacheKey → RefKey) (s : NameServiceState) : Prop where
  wellFormed : WellFormed s
  keysHeld : KeysHeld pin s

theorem KeyState.step (hs : KeyState pin s) {entry : LogEntry}
    (hpinned : PinnedTo pin entry.command) : KeyState pin (applyEntry s entry).1 where
  wellFormed := applyEntry_wellFormed hs.wellFormed entry
  keysHeld := (applyEntry_queueEffect hs.wellFormed entry).keysHeld hs.keysHeld hpinned

theorem keyState_replay (hpinned : ∀ e ∈ log, PinnedTo pin e.command) :
    KeyState pin (replay log) := by
  induction log using reverseRecOn with
  | nil => exact ⟨wellFormed_new, keysHeld_new pin⟩
  | append_singleton log e ih =>
    rw [forall_mem_append, forall_mem_singleton] at hpinned
    rw [replay_concat]
    exact (ih hpinned.1).step hpinned.2

theorem KeyState.lookup_of_settledBy (hs : KeyState pin s) {e : LogEntry} {entry : QueueEntry}
    (hsettled : settledBy s e.index e.command (applyEntry s e).2 = some (entry, outcome))
    (hkey : entry.idempotency = some cacheKey) :
    s.idempotency.lookup cacheKey = none ∧
      (applyEntry s e).1.idempotency.lookup cacheKey = some outcome := by
  obtain ⟨⟨key, rest, hqueue⟩, hcache⟩ :=
    (applyEntry_queueEffect hs.wellFormed e).of_settledBy hsettled
  constructor
  · exact hs.keysHeld.unsettled key entry (hqueue ▸ mem_cons_self ..) cacheKey hkey
  · rw [hcache, lookup_recordedOutcome, if_pos hkey]

variable (hs : KeyState pin s) (hpinned : ∀ e ∈ log, PinnedTo pin e.command) (hkept : ∀ step ∈
  Run.trace applyEntry s log, ¬ Evicts cacheKey step)

include hs hpinned hkept

/-- As long as it is not evicted, a recorded outcome stays, and no step commits
with its key again. -/
theorem KeyState.outcome_stays (hlookup : s.idempotency.lookup cacheKey = some outcome) :
    (Run.final applyEntry s log).idempotency.lookup cacheKey = some outcome ∧
      (Run.trace applyEntry s log).countP (commits cacheKey) = 0 := by
  induction log generalizing s with
  | nil => exact ⟨hlookup, rfl⟩
  | cons e log ih =>
    have hhead := hkept _ (mem_cons_self ..)
    have hafter : (applyEntry s e).1.idempotency.lookup cacheKey = some outcome := by
      apply (applyEntry_queueEffect hs.wellFormed e).outcome_kept hs.keysHeld hlookup
      intro hcommand hnone
      exact hhead ⟨hcommand, by simp [Run.stepOf, hlookup], hnone⟩
    -- a commit with the key would have found the key without an outcome
    have hquiet : commits cacheKey (Run.stepOf applyEntry s e) = false := by
      by_contra hcommits
      obtain ⟨entry, recorded, hsettled, hkey⟩ :=
        settledBy_of_commits (Bool.eq_true_of_not_eq_false hcommits)
      have hnone := (hs.lookup_of_settledBy hsettled hkey).1
      rw [hlookup] at hnone
      cases hnone
    obtain ⟨hfinal, hcount⟩ := ih (hs.step (hpinned e (mem_cons_self ..)))
      (fun e' he' => hpinned e' (mem_cons_of_mem _ he'))
      (fun step hstep => hkept step (mem_cons_of_mem _ hstep)) hafter
    refine ⟨hfinal, ?_⟩
    rw [Run.trace_cons, countP_cons, hquiet, hcount]
    rfl

/-- As long as its outcome is not evicted, a key commits at most once. -/
theorem KeyState.commits_le_one : (Run.trace applyEntry s log).countP (commits cacheKey) ≤ 1 := by
  induction log generalizing s with
  | nil => exact Nat.zero_le 1
  | cons e log ih =>
    have hs' := hs.step (hpinned e (mem_cons_self ..))
    have hpinned' := fun e' he' => hpinned e' (mem_cons_of_mem _ he')
    have hkept' := fun step hstep => hkept step (mem_cons_of_mem _ hstep)
    rw [Run.trace_cons, countP_cons]
    cases hcommits : commits cacheKey (Run.stepOf applyEntry s e) with
    | false =>
      have := ih hs' hpinned' hkept'
      simpa using this
    | true =>
      -- from here on the outcome is recorded, and that rules out further commits
      obtain ⟨entry, outcome, hsettled, hkey⟩ := settledBy_of_commits hcommits
      have hlookup := (hs.lookup_of_settledBy hsettled hkey).2
      rw [(hs'.outcome_stays hpinned' hkept' hlookup).2]
      exact le_rfl

end

theorem applyEnqueueCommand_of_cached (args : QueueSubmission)
    (logIndex : ℕ) (hregistered : s.Registered ⟨args.ledgerId, args.branch⟩)
    (hlive : (⟨args.ledgerId, args.branch⟩ : RefKey) ∉ s.retracted)
    (hkey : args.idempotency = some cacheKey)
    (hlookup : s.idempotency.lookup cacheKey = some outcome) :
    applyEnqueueCommand s logIndex args = (s, outcome.answer args.bodyCid) := by
  have hseen : seenBefore s args = some (outcome.answer args.bodyCid) := by
    simp only [seenBefore, hkey, hlookup]
  unfold applyEnqueueCommand
  simp [knows_iff.mpr hregistered, hlive, hseen]

theorem applyEnqueueCommand_of_seen (logIndex : ℕ) (hseen : seenBefore s args = some response) :
    (applyEnqueueCommand s logIndex args).1 = s := by
  unfold applyEnqueueCommand
  dsimp only
  split
  · rfl
  split
  · rfl
  · rw [hseen]

/-- What at-most-once means for one key of a log. -/
structure AtMostOnce (log : List LogEntry) (cacheKey : IdempotencyCacheKey) : Prop where
  /-- Between evictions of the key at most one step commits with it. -/
  commits_once : ∀ pre segment post, log = pre ++ segment ++ post →
    (∀ step ∈ Run.trace applyEntry (replay pre) segment, ¬ Evicts cacheKey step) →
    (Run.trace applyEntry (replay pre) segment).countP (commits cacheKey) ≤ 1
  /-- Once an entry with the key was applied or poisoned, and until the key is
  evicted, a submission with the key is answered from the recorded outcome. -/
  answered : ∀ pre e segment e' post entry outcome args,
    log = pre ++ e :: segment ++ e' :: post →
    settledBy (replay pre) e.index e.command (applyEntry (replay pre) e).2 =
      some (entry, outcome) →
    entry.idempotency = some cacheKey →
    (∀ step ∈ Run.trace applyEntry (replay (pre ++ [e])) segment, ¬ Evicts cacheKey step) →
    e'.command = .enqueueCommand args → args.idempotency = some cacheKey →
    (replay (pre ++ e :: segment)).Registered ⟨args.ledgerId, args.branch⟩ →
    (⟨args.ledgerId, args.branch⟩ : RefKey) ∉ (replay (pre ++ e :: segment)).retracted →
    (applyEntry (replay (pre ++ e :: segment)) e').2 = outcome.answer args.bodyCid
  /-- While an entry with the key is queued, a submission with the key changes
  nothing. -/
  not_requeued : ∀ pre e post args key entry, log = pre ++ e :: post →
    entry ∈ (replay pre).queueOf key → entry.idempotency = some cacheKey →
    e.command = .enqueueCommand args → args.idempotency = some cacheKey →
    (applyEntry (replay pre) e).1 = replay pre

end

namespace Sample

def cacheKey : IdempotencyCacheKey := ⟨"db:main", ⟨"k", by decide, by decide⟩⟩

def keyed (n : UInt8) : QueueSubmission := { submission n with idempotency := some cacheKey }

/-- The key is submitted twice around its commit. -/
noncomputable def retried : List LogEntry :=
  created ++ [entry 2 (.enqueueCommand (keyed 1)), entry 3 (.applyHead (head 0 1)),
    entry 4 (.enqueueCommand (keyed 1))]

theorem retried_refKey : ∀ e ∈ retried, e.command.refKey = some ⟨"db", "main"⟩ := by
  simp [retried, created, entry, Command.refKey, keyed, submission, head]

end Sample

end FlureeDb.Consensus
