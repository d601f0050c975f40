import FlureeDb.Consensus.Idempotency

/-!
Eviction of old outcomes is the same on every replica. The candidates are
listed in an order that differs from node to node; they are sorted by when and
where they were recorded before the batch is cut off, and no two outcomes are
recorded at the same log index. So the sort has one result, and with it the
batch, the state after it and the envelopes in the response.
-/

namespace FlureeDb.Consensus

open FlureeDb.Core Lib List Option Nat HashMap Expired

/-- Every outcome was recorded at the index of an entry of the log, and no two
at the same one. -/
structure RecordedApart (log : List LogEntry) (s : NameServiceState) : Prop where
  indexed : ∀ key outcome, s.idempotency.lookup key = some outcome →
    ∃ e ∈ log, e.index = outcome.recordedIndex
  apart : ∀ key key' outcome outcome', s.idempotency.lookup key = some outcome →
    s.idempotency.lookup key' = some outcome' →
    outcome.recordedIndex = outcome'.recordedIndex → key = key'

variable {log : List LogEntry} {s s' : NameServiceState}

theorem RecordedApart.of_subset (h : RecordedApart log s) (e : LogEntry)
    (hcache : ∀ key outcome, s'.idempotency.lookup key = some outcome → s.idempotency.lookup key =
      some outcome) : RecordedApart (log ++ [e]) s' where
  indexed key outcome hkey := by
    obtain ⟨old, hold, hindex⟩ := h.indexed key outcome (hcache _ _ hkey)
    exact ⟨old, mem_append_left _ hold, hindex⟩
  apart key key' outcome outcome' hkey hkey' :=
    h.apart key key' outcome outcome' (hcache _ _ hkey) (hcache _ _ hkey')

variable {outcome : ApplyOutcome} {response : Response} {e : LogEntry}

theorem Settles.recordedIndex {logIndex : ℕ} {entry : QueueEntry} {command : Command} {key : RefKey}
    (h : Settles logIndex entry command response key outcome) :
    outcome.recordedIndex = logIndex := by
  cases h <;> rfl

/-- The one outcome that a step can record carries the index of its own entry,
which is above all others. -/
theorem RecordedApart.of_recorded (h : RecordedApart log s)
    (hnew : ∀ old ∈ log, old.index < e.index) {entry : QueueEntry}
    (hindex : outcome.recordedIndex = e.index)
    (hcache : s'.idempotency = recordedOutcome s.idempotency entry outcome) :
    RecordedApart (log ++ [e]) s' := by
  have hbelow : ∀ key old, s.idempotency.lookup key = some old →
      old.recordedIndex < e.index := by
    intro key old hold
    obtain ⟨i, hi, heq⟩ := h.indexed key old hold
    exact heq ▸ hnew i hi
  -- an outcome of the new cache is the recorded one, under the entry's key, or old
  have hcases : ∀ key found, s'.idempotency.lookup key = some found →
      (entry.idempotency = some key ∧ found = outcome) ∨
        s.idempotency.lookup key = some found := by
    intro key found hfound
    rw [hcache, lookup_recordedOutcome] at hfound
    split at hfound
    · cases hfound
      exact .inl ⟨‹_›, rfl⟩
    · exact .inr hfound
  constructor
  · intro key found hfound
    rcases hcases key found hfound with ⟨-, rfl⟩ | hold
    · exact ⟨e, by simp, hindex.symm⟩
    · obtain ⟨i, hi, heq⟩ := h.indexed key found hold
      exact ⟨i, mem_append_left _ hi, heq⟩
  · intro key key' found found' hfound hfound' heq
    rcases hcases key found hfound with ⟨hkey, rfl⟩ | hold
    · rcases hcases key' found' hfound' with ⟨hkey', rfl⟩ | hold'
      · rw [hkey, some.injEq] at hkey'
        exact hkey'
      · have := hbelow key' found' hold'
        omega
    · rcases hcases key' found' hfound' with ⟨hkey', rfl⟩ | hold'
      · have := hbelow key found hold
        omega
      · exact h.apart key key' found found' hold hold' heq

theorem QueueEffect.recordedApart (heffect : QueueEffect e.order e.index s s' e.command response)
    (h : RecordedApart log s) (hnew : ∀ old ∈ log, old.index < e.index) :
    RecordedApart (log ++ [e]) s' := by
  obtain ⟨index, command, order⟩ := e
  cases heffect with
  | quiet hquiet hqueues hcache | appended hlive hunseen hqueues hcache
  | cleared hclears hqueues hcache =>
    exact h.of_subset _ fun key outcome hkey => hcache ▸ hkey
  | settled hsettles hqueue hqueues hcache =>
    exact h.of_recorded hnew hsettles.recordedIndex hcache
  | evicted hqueues hcache =>
    refine h.of_subset _ fun key outcome hkey => ?_
    rw [hcache, lookup_eraseAll] at hkey
    split at hkey
    · cases hkey
    · exact hkey

theorem replay_recordedApart (log : List LogEntry)
    (hlog : log.Pairwise fun a b => a.index < b.index) : RecordedApart log (replay log) := by
  induction log using reverseRecOn with
  | nil => constructor <;> simp [replay, NameServiceState.new]
  | append_singleton log e ih =>
    obtain ⟨hlog, -, hnew⟩ := pairwise_append.mp hlog
    rw [replay_concat]
    exact (applyEntry_queueEffect (replay_wellFormed log) e).recordedApart (ih hlog)
      fun old hold => hnew old hold e (mem_singleton_self e)

/-! ### One batch -/

instance : IsTrans Expired le where
  trans a b c hab hbc := by
    unfold le at *
    omega

instance : Std.Total le where
  total a b := by
    unfold le
    omega

def candidates (order : CacheOrder) (s : NameServiceState) (cutoff : ℕ) : List Expired :=
  ((order.iter s.idempotency).filterMap (expiredAt cutoff)).insertionSort le

theorem evictionBatch_eq (order : CacheOrder) (s : NameServiceState) (cutoff : ℕ) :
    evictionBatch order s cutoff =
      ((candidates order s cutoff).take evictBatchSize).map key := rfl

variable {order : CacheOrder} {cutoff : ℕ}

theorem mem_candidates {x : Expired} :
    x ∈ candidates order s cutoff ↔
      ∃ outcome, s.idempotency.lookup x.key = some outcome ∧
        outcome.recordedAtMillis < cutoff ∧ x.recordedAt = outcome.recordedAtMillis ∧
        x.recordedIndex = outcome.recordedIndex := by
  rw [candidates, mem_insertionSort, mem_filterMap]
  constructor
  · rintro ⟨⟨key, outcome⟩, hmem, hexpired⟩
    unfold expiredAt at hexpired
    split at hexpired
    · cases hexpired
      exact ⟨outcome, order.mem_iter.mp hmem, ‹_›, rfl, rfl⟩
    · cases hexpired
  · rintro ⟨outcome, hlookup, hold, hat, hindex⟩
    refine ⟨(x.key, outcome), order.mem_iter.mpr hlookup, ?_⟩
    rw [expiredAt, if_pos hold, ← hat, ← hindex]

/-- Two orders list the same candidates, and sorting leaves no choice among
outcomes that were recorded apart. -/
theorem candidates_order_irrelevant (h : RecordedApart log s) (order order' : CacheOrder)
    (cutoff : ℕ) : candidates order s cutoff = candidates order' s cutoff := by
  have hlisted : (order.iter s.idempotency).Perm (order'.iter s.idempotency) := by
    rw [← Multiset.coe_eq_coe, order.iter_perm, order'.iter_perm]
  have hperm : (candidates order s cutoff).Perm (candidates order' s cutoff) :=
    (perm_insertionSort _ _).trans
      ((hlisted.filterMap _).trans (perm_insertionSort _ _).symm)
  refine hperm.eq_of_pairwise ?_ (pairwise_insertionSort _ _)
    (pairwise_insertionSort _ _)
  intro a b ha hb hab hba
  obtain ⟨outcome, hlookup, -, hat, hindex⟩ := mem_candidates.mp ha
  obtain ⟨outcome', hlookup', -, hat', hindex'⟩ := mem_candidates.mp hb
  have heq : a.recordedAt = b.recordedAt ∧ a.recordedIndex = b.recordedIndex := by
    unfold le at hab hba
    omega
  have hkey := h.apart a.key b.key outcome outcome' hlookup hlookup' (by omega)
  obtain ⟨at1, index1, key1⟩ := a
  simp only at heq hkey
  rw [heq.1, heq.2, hkey]

/-- The outcome under a key was recorded before the one under another: earlier,
or at the same time and at a smaller log index. -/
def ApplyOutcome.OlderThan (outcome other : ApplyOutcome) : Prop :=
  outcome.recordedAtMillis < other.recordedAtMillis ∨
    (outcome.recordedAtMillis = other.recordedAtMillis ∧
      outcome.recordedIndex ≤ other.recordedIndex)

section

variable (order : CacheOrder) (s : NameServiceState) (cutoff markerCutoff : ℕ)

theorem idempotency_applyEvictIdempotency :
    (applyEvictIdempotency order s cutoff markerCutoff).1.idempotency =
      eraseAll s.idempotency (evictionBatch order s cutoff) := by
  unfold applyEvictIdempotency
  dsimp only
  rw [foldl_evictOne (evictionBatch_nodup order s cutoff)]

theorem lookup_applyEvictIdempotency (key : IdempotencyCacheKey) :
    (applyEvictIdempotency order s cutoff markerCutoff).1.idempotency.lookup key =
      if key ∈ evictionBatch order s cutoff then none else s.idempotency.lookup key := by
  rw [idempotency_applyEvictIdempotency, lookup_eraseAll]

end

variable {key : IdempotencyCacheKey}

theorem expired_of_mem_evictionBatch (h : key ∈ evictionBatch order s cutoff) :
    ∃ outcome, s.idempotency.lookup key = some outcome ∧ outcome.recordedAtMillis < cutoff := by
  obtain ⟨x, hx, rfl⟩ := mem_map.mp h
  obtain ⟨outcome, hlookup, hold, -⟩ := mem_candidates.mp (mem_of_mem_take hx)
  exact ⟨outcome, hlookup, hold⟩

theorem olderThan_of_batch {key' : IdempotencyCacheKey} {outcome outcome' : ApplyOutcome}
    (hkey : key ∈ evictionBatch order s cutoff) (hkey' : key' ∉ evictionBatch order s cutoff)
    (hlookup : s.idempotency.lookup key = some outcome)
    (hlookup' : s.idempotency.lookup key' = some outcome')
    (hold : outcome'.recordedAtMillis < cutoff) : outcome.OlderThan outcome' := by
  obtain ⟨x, hx, rfl⟩ := mem_map.mp hkey
  have hx' : (⟨outcome'.recordedAtMillis, outcome'.recordedIndex, key'⟩ : Expired) ∈
      candidates order s cutoff := mem_candidates.mpr ⟨outcome', hlookup', hold, rfl, rfl⟩
  -- the candidates are the batch and what the cut left, in this order
  have hsplit := take_append_drop evictBatchSize (candidates order s cutoff)
  have hsorted := pairwise_insertionSort le
    ((order.iter s.idempotency).filterMap (expiredAt cutoff))
  change (candidates order s cutoff).Pairwise le at hsorted
  rw [← hsplit] at hsorted hx'
  have hdrop := (mem_append.mp hx').resolve_left fun h =>
    hkey' (mem_map.mpr ⟨_, h, rfl⟩)
  have hle := (pairwise_append.mp hsorted).2.2 x hx _ hdrop
  obtain ⟨found, hfound, -, hat, hindex⟩ := mem_candidates.mp (mem_of_mem_take hx)
  rw [hlookup, some.injEq] at hfound
  subst hfound
  unfold le at hle
  simp only at hle
  unfold ApplyOutcome.OlderThan
  omega

/-! ### Many batches -/

/-- The number of outcomes recorded before the cutoff. -/
def NameServiceState.expiredCount (s : NameServiceState) (cutoff : ℕ) : ℕ :=
  sumBy (fun _ outcome => if outcome.recordedAtMillis < cutoff then 1 else 0)
    s.idempotency

theorem length_candidates (order : CacheOrder) (s : NameServiceState) (cutoff : ℕ) :
    (candidates order s cutoff).length = s.expiredCount cutoff := by
  have hlist : ∀ entries : List (IdempotencyCacheKey × ApplyOutcome),
      (entries.filterMap (expiredAt cutoff)).length =
        (entries.map fun e => if e.2.recordedAtMillis < cutoff then 1 else 0).sum := by
    intro entries
    induction entries with
    | nil => rfl
    | cons e entries ih =>
      rw [map_cons, sum_cons, ← ih]
      by_cases hold : e.2.recordedAtMillis < cutoff
      · rw [filterMap_cons_some (by rw [expiredAt, if_pos hold]), if_pos hold,
          length_cons, add_comm]
      · rw [filterMap_cons_none (by rw [expiredAt, if_neg hold]), if_neg hold,
          zero_add]
  have hsum : s.expiredCount cutoff = ((order.iter s.idempotency).map fun e =>
      if e.2.recordedAtMillis < cutoff then 1 else 0).sum := by
    rw [← Multiset.sum_coe, ← Multiset.map_coe, order.iter_perm, Multiset.map_map]
    rfl
  rw [candidates, length_insertionSort, hlist, hsum]

theorem length_evictionBatch (order : CacheOrder) (s : NameServiceState) (cutoff : ℕ) :
    (evictionBatch order s cutoff).length = min evictBatchSize (s.expiredCount cutoff) := by
  rw [evictionBatch_eq, length_map, length_take, length_candidates]

theorem sumBy_eraseAll {f : IdempotencyCacheKey → ApplyOutcome → ℕ}
    {keys : List IdempotencyCacheKey} (hkeys : keys.Nodup)
    (cache : HashMap IdempotencyCacheKey ApplyOutcome)
    (hone : ∀ key ∈ keys, ∃ outcome, cache.lookup key = some outcome ∧ f key outcome = 1) :
    sumBy f cache = keys.length + sumBy f (eraseAll cache keys) := by
  induction keys generalizing cache with
  | nil => exact (zero_add _).symm
  | cons key keys ih =>
    obtain ⟨hnew, hrest⟩ := nodup_cons.mp hkeys
    obtain ⟨outcome, hlookup, hweight⟩ := hone key (mem_cons_self ..)
    have htail := ih hrest (cache.erase key) fun other hother => by
      obtain ⟨found, hfound, hfweight⟩ := hone other (mem_cons_of_mem _ hother)
      have hne : other ≠ key := fun h => hnew (h ▸ hother)
      exact ⟨found, by rw [lookup_erase_eq, if_neg hne, hfound], hfweight⟩
    rw [sumBy_of_lookup f hlookup, hweight, htail]
    change 1 + (keys.length + _) =
      keys.length + 1 + sumBy f (eraseAll (cache.erase key) keys)
    omega

theorem expiredCount_applyEvictIdempotency (order : CacheOrder) (s : NameServiceState)
    (cutoff markerCutoff : ℕ) :
    (applyEvictIdempotency order s cutoff markerCutoff).1.expiredCount cutoff =
      s.expiredCount cutoff - evictBatchSize := by
  have hsum := sumBy_eraseAll
    (f := fun _ outcome => if outcome.recordedAtMillis < cutoff then 1 else 0)
    (evictionBatch_nodup order s cutoff) s.idempotency fun key hkey => by
      obtain ⟨outcome, hlookup, hold⟩ := expired_of_mem_evictionBatch hkey
      exact ⟨outcome, hlookup, if_pos hold⟩
  rw [← idempotency_applyEvictIdempotency order s cutoff markerCutoff,
    length_evictionBatch] at hsum
  unfold NameServiceState.expiredCount at *
  omega

/-- The same eviction command over and over, each time met in some order. -/
def evictRepeatedly (cutoff markerCutoff : ℕ) (orders : List CacheOrder)
    (s : NameServiceState) : NameServiceState :=
  orders.foldl (fun s order => (applyEvictIdempotency order s cutoff markerCutoff).1) s

theorem lookup_of_fresh {markerCutoff : ℕ} (hlookup : s.idempotency.lookup key = some outcome)
    (hfresh : cutoff ≤ outcome.recordedAtMillis) :
    (applyEvictIdempotency order s cutoff markerCutoff).1.idempotency.lookup key =
      some outcome := by
  rw [lookup_applyEvictIdempotency, if_neg, hlookup]
  intro hkey
  obtain ⟨found, hfound, hold⟩ := expired_of_mem_evictionBatch hkey
  rw [hlookup, some.injEq] at hfound
  subst hfound
  omega

/-- Once nothing is left below the cutoff, what is left is what was at or above
it to begin with. -/
theorem evictRepeatedly_eq_retain (cutoff markerCutoff : ℕ) (orders : List CacheOrder)
    (s : NameServiceState) (henough : s.expiredCount cutoff ≤ orders.length * evictBatchSize) :
    (evictRepeatedly cutoff markerCutoff orders s).idempotency =
      retain s.idempotency fun _ outcome => cutoff ≤ outcome.recordedAtMillis := by
  induction orders generalizing s with
  | nil =>
    rw [length_nil, zero_mul, le_zero, NameServiceState.expiredCount,
      sumBy_eq_zero_iff] at henough
    apply Finmap.ext_lookup
    intro key
    rw [lookup_retain]
    change s.idempotency.lookup key = _
    cases hlookup : s.idempotency.lookup key with
    | none => rfl
    | some outcome =>
      have hfresh : cutoff ≤ outcome.recordedAtMillis := by
        have hzero := henough key outcome hlookup
        by_contra hold
        rw [if_pos (by omega)] at hzero
        omega
      rw [filter_some, if_pos (by simpa using hfresh)]
  | cons order orders ih =>
    have hcount := expiredCount_applyEvictIdempotency order s cutoff markerCutoff
    rw [length_cons, succ_mul] at henough
    have hrest := ih (applyEvictIdempotency order s cutoff markerCutoff).1 (by omega)
    change (evictRepeatedly cutoff markerCutoff orders _).idempotency = _
    rw [hrest]
    apply Finmap.ext_lookup
    intro key
    rw [lookup_retain, lookup_retain]
    cases hlookup : s.idempotency.lookup key with
    | none =>
      rw [lookup_applyEvictIdempotency, hlookup, ite_self]
    | some outcome =>
      by_cases hfresh : cutoff ≤ outcome.recordedAtMillis
      · rw [lookup_of_fresh hlookup hfresh]
      · rw [lookup_applyEvictIdempotency, hlookup]
        split
        · simp [filter_some, hfresh]
        · rfl

/-- **Eviction does not depend on the replica.** After any log with increasing
indices the outcomes in the cache are recorded at distinct indices, and an
eviction has the same state and the same response in whatever order the cache
is listed. It removes nothing recorded at or after the cutoff; what it removes
is older than every candidate it leaves, and it leaves one only when the batch
is full; and the same command repeated often enough removes exactly what was
recorded before the cutoff. -/
theorem eviction_replica_independent (log : List LogEntry)
    (hlog : log.Pairwise fun a b => a.index < b.index) (cutoff markerCutoff : ℕ) :
    (∀ key key' outcome outcome', (replay log).idempotency.lookup key = some outcome →
      (replay log).idempotency.lookup key' = some outcome' →
      outcome.recordedIndex = outcome'.recordedIndex → key = key') ∧
    (∀ order order' : CacheOrder,
      applyEvictIdempotency order (replay log) cutoff markerCutoff =
        applyEvictIdempotency order' (replay log) cutoff markerCutoff) ∧
    (∀ (order : CacheOrder) key outcome,
      (replay log).idempotency.lookup key = some outcome →
      (applyEvictIdempotency order (replay log) cutoff markerCutoff).1.idempotency.lookup key ≠
        some outcome →
      outcome.recordedAtMillis < cutoff ∧
      ∀ key' outcome', (applyEvictIdempotency order (replay log) cutoff
          markerCutoff).1.idempotency.lookup key' = some outcome' →
        outcome'.recordedAtMillis < cutoff → outcome.OlderThan outcome') ∧
    (∀ order : CacheOrder,
      (applyEvictIdempotency order (replay log) cutoff markerCutoff).1.expiredCount cutoff =
        (replay log).expiredCount cutoff - evictBatchSize) ∧
    ∀ orders : List CacheOrder,
      (replay log).expiredCount cutoff ≤ orders.length * evictBatchSize →
      (evictRepeatedly cutoff markerCutoff orders (replay log)).idempotency =
        retain (replay log).idempotency
          fun _ outcome => cutoff ≤ outcome.recordedAtMillis := by
  have hapart := replay_recordedApart log hlog
  refine ⟨hapart.apart, ?_, ?_, ?_, ?_⟩
  · intro order order'
    unfold applyEvictIdempotency
    rw [evictionBatch_eq, evictionBatch_eq, candidates_order_irrelevant hapart]
  · intro order key outcome hlookup hgone
    rw [lookup_applyEvictIdempotency] at hgone
    have hkey : key ∈ evictionBatch order (replay log) cutoff := by
      by_contra hkey
      rw [if_neg hkey] at hgone
      exact hgone hlookup
    obtain ⟨found, hfound, hold⟩ := expired_of_mem_evictionBatch hkey
    rw [hlookup, some.injEq] at hfound
    subst hfound
    refine ⟨hold, ?_⟩
    intro key' outcome' hstays hold'
    rw [lookup_applyEvictIdempotency] at hstays
    split at hstays
    · cases hstays
    · exact olderThan_of_batch hkey ‹_› hlookup hstays hold'
  · intro order
    exact expiredCount_applyEvictIdempotency order (replay log) cutoff markerCutoff
  · intro orders henough
    exact evictRepeatedly_eq_retain cutoff markerCutoff orders (replay log) henough

namespace Sample

def otherKey : IdempotencyCacheKey := ⟨"db:main", ⟨"other", by decide, by decide⟩⟩

noncomputable def settledTwice : List LogEntry :=
  created ++ [entry 2 (.enqueueCommand (keyed 1)), entry 3 (.applyHead (head 0 1)),
    entry 4 (.enqueueCommand { submission 2 with idempotency := some otherKey }),
    entry 5 (.poisonQueueEntry (poisoning 1))]

theorem settledTwice_increasing : settledTwice.Pairwise fun a b => a.index < b.index := by
  simp [settledTwice, created, entry]

end Sample

theorem eviction_replica_independent_two :
    ((replay Sample.settledTwice).idempotency.lookup Sample.cacheKey).isSome ∧
      ((replay Sample.settledTwice).idempotency.lookup Sample.otherKey).isSome ∧
      ∀ order order' : CacheOrder,
        applyEvictIdempotency order (replay Sample.settledTwice) 100 0 =
          applyEvictIdempotency order' (replay Sample.settledTwice) 100 0 :=
  ⟨rfl, rfl,
    (eviction_replica_independent Sample.settledTwice Sample.settledTwice_increasing 100 0).2.1⟩

/-- The log as a replica applies it that lists its cache in its own order at each entry. -/
def onReplica (order : ℕ → CacheOrder) (log : List LogEntry) : List LogEntry :=
  log.map fun e => { e with order := order e.index }

/-- **Replicas agree.** In whatever order a replica lists its cache, it comes to the same state
and gives the same responses. -/
theorem replay_replica_independent (log : List LogEntry)
    (hlog : log.Pairwise fun a b => a.index < b.index) (order : ℕ → CacheOrder) :
    replay (onReplica order log) = replay log ∧
      (replaySteps (onReplica order log)).map Step.response =
        (replaySteps log).map Step.response := by
  induction log using reverseRecOn with
  | nil => exact ⟨rfl, rfl⟩
  | append_singleton log e ih =>
    have hlog' := (pairwise_append.mp hlog).1
    obtain ⟨hstate, hresponses⟩ := ih hlog'
    have hentry : applyEntry (replay log) { e with order := order e.index } =
        applyEntry (replay log) e := by
      obtain ⟨index, command, order'⟩ := e
      cases command with
      | evictIdempotency cutoff markerCutoff =>
        -- the only command that lists the cache
        simp only [applyEntry, apply, applyEvictIdempotency, evictionBatch_eq,
          candidates_order_irrelevant (replay_recordedApart log hlog') (order index) order']
      | _ => rfl
    rw [onReplica, map_append, map_singleton, ← onReplica, replay_concat, replay_concat,
      replaySteps_concat, replaySteps_concat, hstate, map_append, map_append, hresponses, hentry]
    exact ⟨rfl, by simp [Run.stepOf, hentry]⟩

namespace Sample

noncomputable def evicted : List LogEntry := settledTwice ++ [entry 6 (.evictIdempotency 100 0)]

theorem replay_replica_independent_two : evicted.length = 6 ∧
    ∀ order, replay (onReplica order evicted) = replay evicted :=
  ⟨rfl, fun order => (replay_replica_independent evicted
    (by simp [evicted, settledTwice, created, entry]) order).1⟩

end Sample

end FlureeDb.Consensus
