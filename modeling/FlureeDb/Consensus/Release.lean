import FlureeDb.Consensus.Custody

/-!
Releases against the queues. A release names an envelope by its content id,
and a content id can be shared: two requests with the same bytes have the same
envelope. Releases are decided entry by entry and do not look for another
entry that still needs the envelope, so whether a release is safe depends on
what the rest of the state shares with the entry or record that is let go.
-/

namespace FlureeDb.Consensus

open FlureeDb.Core Lib List Option

/-- No entry that is still queued for a released ledger id needs the envelope. -/
def ReleasesUnneeded (queueOf : RefKey → List QueueEntry)
    (released : List (String × ContentId)) : Prop :=
  ∀ pair ∈ released, ∀ key : RefKey, key.ledgerId = pair.1 → ∀ entry ∈ queueOf key,
    entry.requestCid ≠ pair.2

/-- The command retires this entry if it is the front of the queue at `key`: a
commit that is later than the head, or a poisoning. -/
def Retires (s : NameServiceState) (key : RefKey) (front : QueueEntry) : Command → Prop
  | .applyHead args => key = ⟨args.ledgerId, args.branch⟩ ∧ front.queueId = args.queueId ∧
      ∀ prior, s.refs.lookup key = some prior → prior.t < args.commitT
  | .poisonQueueEntry args =>
    key = ⟨args.ledgerId, args.branch⟩ ∧ front.queueId = args.queueId
  | _ => False

/-- The command clears the queue at `key` if there is one: the branch has no
children in the way of a removal. -/
def ClearsQueue (s : NameServiceState) (key : RefKey) : Command → Prop
  | .dropBranch ledgerId branch _ | .purgeBranch ledgerId branch _ =>
    key = ⟨ledgerId, branch⟩ ∧ s.childrenOf key = none
  | .resetHead ledgerId branch _ _ | .retractLedger ledgerId branch _ =>
    key = ⟨ledgerId, branch⟩
  | _ => False

/-- What a command lets go of is shared with nothing that stays queued: a
keyless entry that retires, with no other entry of its ledger id; the entries of
a cleared queue, with no entry of another branch that formats to the same
ledger id; an evicted outcome, with no entry of the ledger id of its key. -/
structure Unshared (order : CacheOrder) (s : NameServiceState) (command : Command) : Prop where
  retired : ∀ key front rest, s.queueOf key = front :: rest → Retires s key front command →
    front.idempotency = none → ∀ other : RefKey, other.ledgerId = key.ledgerId →
      ∀ entry ∈ Function.update s.queueOf key rest other,
        entry.requestCid ≠ front.requestCid
  cleared : ∀ key, ClearsQueue s key command →
    ∀ other : RefKey, other ≠ key → other.ledgerId = key.ledgerId →
      ∀ gone ∈ s.queueOf key, ∀ entry ∈ s.queueOf other, entry.requestCid ≠ gone.requestCid
  evicted : ∀ cutoff markerCutoff, command = .evictIdempotency cutoff markerCutoff →
    ∀ cacheKey ∈ evictionBatch order s cutoff, ∀ outcome,
      s.idempotency.lookup cacheKey = some outcome →
      ∀ key : RefKey, key.ledgerId = cacheKey.ledgerId → ∀ entry ∈ s.queueOf key,
        entry.requestCid ≠ outcome.requestCid

variable {front : QueueEntry} {key : RefKey} {command : Command}

section

variable {order : CacheOrder} {logIndex : ℕ} {s s' : NameServiceState} {response : Response}

theorem Settles.retires {outcome : ApplyOutcome}
    (h : Settles logIndex front command response key outcome)
    (htransition : Transition order logIndex s command s' response) :
    Retires s key front command := by
  cases h with
  | applied args hid =>
    generalize hresponse : Response.headApplied _ _ _ _ = response at htransition
    cases htransition with
    | refused hrefusal =>
      subst hresponse
      cases hrefusal
    | markerConsumed => cases hresponse
    | peripheral hcommand => cases hcommand
    | indexPublished hcommand =>
      rcases hcommand with hcommand | hcommand <;> cases hcommand
    | headApplied hlive hqueue hid' hmono => exact ⟨rfl, hid, hmono⟩
  | poisoned args hid => exact ⟨rfl, hid⟩

theorem Clears.clearsQueue {reason : AbortReason} {released : List (String × ContentId)}
    (h : Clears released command response key reason)
    (htransition : Transition order logIndex s command s' response) :
    ClearsQueue s key command := by
  cases h with
  | dropped =>
    cases htransition with
    | refused hrefusal => cases hrefusal
    | peripheral hcommand => cases hcommand
    | branchDropped hknown hchildren => exact ⟨rfl, hchildren⟩
  | purged =>
    cases htransition with
    | refused hrefusal => cases hrefusal
    | peripheral hcommand => cases hcommand
    | branchPurged hknown hchildren => exact ⟨rfl, hchildren⟩
  | reset => rfl
  | retracted => rfl

end

variable {s : NameServiceState}

theorem Retires.not_quiet (hs : WellFormed s) {e : LogEntry} {rest : List QueueEntry}
    (hqueue : s.queueOf key = front :: rest) (h : Retires s key front e.command) :
    ¬ Quiet e.command (applyEntry s e).2 := by
  obtain ⟨hlookup, -, hlive, hmarker⟩ := hs.of_queueOf_ne_nil (by rw [hqueue]; simp)
  rw [hqueue] at hlookup
  obtain ⟨index, command, order⟩ := e
  intro hquiet
  have hwaiters := hquiet.waiters
  cases command <;> try exact h
  case applyHead args =>
    obtain ⟨rfl, hid, hmono⟩ := h
    have hprior : (s.refs.lookup ⟨args.ledgerId, args.branch⟩).filter
        (fun existing => args.commitT ≤ existing.t) = none := by
      rw [filter_eq_none_iff]
      intro existing hexisting
      simpa using hmono existing hexisting
    simp [applyEntry, apply, applyHead, popValidatedFront, hlive, hmarker, hlookup, hid, hprior,
      waiterResolutionFor] at hwaiters
  case poisonQueueEntry args =>
    obtain ⟨rfl, hid⟩ := h
    simp [applyEntry, apply, applyPoisonQueueEntry, popValidatedFront, hmarker, hlookup, hid,
      waiterResolutionFor] at hwaiters

theorem ClearsQueue.not_quiet (hs : WellFormed s) {e : LogEntry} (hqueue : s.queueOf key ≠ [])
    (h : ClearsQueue s key e.command) : ¬ Quiet e.command (applyEntry s e).2 := by
  obtain ⟨-, hregistered, hlive, -⟩ := hs.of_queueOf_ne_nil hqueue
  obtain ⟨index, command, order⟩ := e
  intro hquiet
  have hwaiters := hquiet.waiters
  cases command <;> try exact h
  case dropBranch ledgerId branch millis =>
    obtain ⟨rfl, hchildren⟩ := h
    simp [applyEntry, apply, dropBranch, knows_iff.mpr hregistered, hchildren,
      waiterResolutionFor] at hwaiters
  case purgeBranch ledgerId branch millis =>
    obtain ⟨rfl, hchildren⟩ := h
    simp [applyEntry, apply, purgeBranch, knows_iff.mpr hregistered, hchildren,
      waiterResolutionFor] at hwaiters
  case resetHead ledgerId branch snapshot millis =>
    subst h
    cases hsnapshot : snapshot.commitHeadId <;>
    simp [applyEntry, apply, resetHead, knows_iff.mpr hregistered, hlive, hsnapshot,
      waiterResolutionFor] at hwaiters
  case retractLedger ledgerId branch millis =>
    subst h
    simp [applyEntry, apply, retractLedger, knows_iff.mpr hregistered, hlive,
      waiterResolutionFor] at hwaiters

theorem Retires.refKey (h : Retires s key front command) : command.refKey = some key := by
  unfold Retires at h
  split at h
  · exact congrArg some h.1.symm
  · exact congrArg some h.1.symm
  · exact h.elim

theorem ClearsQueue.refKey (h : ClearsQueue s key command) : command.refKey = some key := by
  unfold ClearsQueue at h
  split at h
  · exact congrArg some h.1.symm
  · exact congrArg some h.1.symm
  · exact congrArg some h.symm
  · exact congrArg some h.symm
  · exact h.elim

theorem Retires.not_clearsQueue {key key' : RefKey} (h : Retires s key front command) :
    ¬ ClearsQueue s key' command := by
  cases command <;> first | exact h.elim | exact fun hclears => hclears

/-! ### When a release is safe -/

theorem releasesUnneeded_of_settled {queueOf : RefKey → List QueueEntry} :
    ReleasesUnneeded queueOf (front.releasedPairs key) ↔
      (front.idempotency = none → ∀ other : RefKey, other.ledgerId = key.ledgerId →
        ∀ entry ∈ queueOf other, entry.requestCid ≠ front.requestCid) := by
  unfold ReleasesUnneeded QueueEntry.releasedPairs QueueEntry.releasedNow
  cases front.idempotency with
  | none => simp
  | some => simp

theorem releasesUnneeded_iff_unshared (hs : WellFormed s) (e : LogEntry) :
    ReleasesUnneeded (applyEntry s e).1.queueOf (drainReleases (applyEntry s e).2) ↔
      Unshared e.order s e.command := by
  have hretires (key : RefKey) (front : QueueEntry) (rest : List QueueEntry)
      (hqueue : s.queueOf key = front :: rest) := Retires.not_quiet hs (e := e) hqueue
  have hclearsQueue (key : RefKey) (hqueue : s.queueOf key ≠ []) :=
    ClearsQueue.not_quiet hs (e := e) hqueue
  have hevicts (cutoff markerCutoff : ℕ) :
      e.command = .evictIdempotency cutoff markerCutoff → ¬ Quiet e.command (applyEntry s e).2 := by
    obtain ⟨index, command, order⟩ := e
    rintro rfl hquiet
    exact hquiet.not_evicted _ _ rfl
  have htransition := applyEntry_transition hs e
  have heffect := applyEntry_queueEffect hs e
  obtain ⟨index, command, order⟩ := e
  generalize (applyEntry s ⟨index, command, order⟩).2 = response at *
  cases heffect with
  | quiet hquiet =>
    -- nothing is released, and a command with something to let go is not quiet
    rw [hquiet.releases]
    refine iff_of_true (fun pair hpair => nomatch hpair) ⟨?_, ?_, ?_⟩
    · intro key front rest hqueue hretired
      exact absurd hquiet (hretires key front rest hqueue hretired)
    · intro key hcleared other _ _ gone hgone
      exact absurd hquiet (hclearsQueue key (ne_nil_of_mem hgone) hcleared)
    · intro cutoff markerCutoff hcommand
      exact absurd hquiet (hevicts cutoff markerCutoff hcommand)
  | appended =>
    refine iff_of_true (fun pair hpair => nomatch hpair) ⟨?_, ?_, ?_⟩
    · exact fun key front rest _ hretired => hretired.elim
    · exact fun key hcleared => hcleared.elim
    · exact fun cutoff markerCutoff hcommand => nomatch hcommand
  | @settled _ _ key front rest outcome hsettles hqueue hqueues hcache hnext =>
    have hretired := hsettles.retires htransition
    rw [drainReleases_of_settles hsettles, hqueues, releasesUnneeded_of_settled]
    constructor
    · intro hsafe
      constructor
      · intro key' front' rest' hfront hretired' hkeyless
        obtain rfl := some.inj (hretired.refKey.symm.trans hretired'.refKey)
        rw [hqueue] at hfront
        obtain ⟨rfl, rfl⟩ := hfront
        exact hsafe hkeyless
      · intro key' hcleared
        exact absurd hcleared hretired.not_clearsQueue
      · intro cutoff markerCutoff hcommand
        subst hcommand
        cases hsettles
    · intro hunshared
      exact hunshared.retired key front rest hqueue hretired
  | @cleared _ _ key reason hclears hqueues hcache hnext =>
    have hcleared := hclears.clearsQueue htransition
    rw [drainReleases_of_clears hclears, hqueues]
    constructor
    · intro hsafe
      constructor
      · intro key' front rest _ hretired
        exact absurd hcleared hretired.not_clearsQueue
      · intro key' hcleared' other hother hid gone hgone entry hentry
        obtain rfl := some.inj (hcleared.refKey.symm.trans hcleared'.refKey)
        refine hsafe (key.ledgerId, gone.requestCid) ?_ other hid entry ?_
        · exact mem_map.mpr ⟨gone, hgone, rfl⟩
        · rw [Function.update_of_ne hother]
          exact hentry
      · intro cutoff markerCutoff hcommand
        subst hcommand
        cases hclears
    · intro hunshared pair hpair other hid entry hentry
      obtain ⟨gone, hgone, rfl⟩ := mem_map.mp hpair
      rw [Function.update_apply] at hentry
      split at hentry
      · cases hentry
      · exact hunshared.cleared key hcleared other ‹_› hid gone hgone entry hentry
  | @evicted cutoff markerCutoff =>
    constructor
    · intro hsafe
      constructor
      · intro key front rest _ hretired
        exact hretired.elim
      · intro key hcleared
        exact hcleared.elim
      · intro cutoff' markerCutoff' hcommand cacheKey hmem outcome hlookup key hid entry hentry
        cases hcommand
        refine hsafe (cacheKey.ledgerId, outcome.requestCid) ?_ key hid entry hentry
        exact mem_filterMap.mpr ⟨cacheKey, hmem, by simp [heldEnvelope, hlookup]⟩
    · intro hunshared pair hpair key hid entry hentry
      obtain ⟨cacheKey, hmem, hheld⟩ := mem_filterMap.mp hpair
      obtain ⟨outcome, hlookup, rfl⟩ := map_eq_some_iff.mp hheld
      exact hunshared.evicted cutoff markerCutoff rfl cacheKey hmem outcome hlookup key
        hid entry hentry

/-- **When no envelope is released while it is needed.** After any log, a
command releases no envelope that an entry still queued for the same ledger id
needs, exactly if what the command lets go of is unshared. -/
theorem release_unneeded_iff (log : List LogEntry) (e : LogEntry) :
    ReleasesUnneeded (applyEntry (replay log) e).1.queueOf
        (drainReleases (applyEntry (replay log) e).2) ↔
      Unshared e.order (replay log) e.command :=
  releasesUnneeded_iff_unshared (replay_wellFormed log) e

namespace Sample

noncomputable def shared : List LogEntry :=
  created ++ [entry 2 (.enqueueCommand (submission 1)), entry 3 (.enqueueCommand (submission 1))]

end Sample

/-- Committing the first of two submissions with one envelope releases the
envelope that the second still needs. -/
theorem release_while_needed :
    drainReleases (applyEntry (replay Sample.shared)
        (Sample.entry 4 (.applyHead (Sample.head 0 1)))).2 = [("db:main", Sample.cid 1)] ∧
      ((applyEntry (replay Sample.shared)
        (Sample.entry 4 (.applyHead (Sample.head 0 1)))).1.queueOf ⟨"db", "main"⟩).map
          QueueEntry.requestCid = [Sample.cid 1] :=
  ⟨rfl, rfl⟩

end FlureeDb.Consensus
