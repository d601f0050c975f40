import FlureeDb.Consensus.Idempotency
import FlureeDb.Lib.Tokens

/-!
Who holds the envelope of an accepted submission. Each accepted entry has a
slip in a book that is kept along the log: it waits in its branch's queue, it
is held by the outcome recorded for its key, or it was released under a ledger
id. The book is moved by what a step did and never by looking into the state
after it; the result is that the book and the state agree at every point, so
no envelope is lost and none is released twice.
-/

namespace FlureeDb.Consensus

open FlureeDb.Core Lib List Token

structure Accepted where
  branch : RefKey
  entry : QueueEntry

/-- Where the envelope of an accepted entry is. -/
inductive Place
  | waiting
  | held
  | released (ledgerId : String)
  deriving DecidableEq

abbrev Slip := Token Accepted Place

def Slip.waitsAt (key : RefKey) (slip : Slip) : Bool :=
  slip.place = .waiting ∧ slip.item.branch = key

def Slip.heldUnder (cacheKey : IdempotencyCacheKey) (slip : Slip) : Bool :=
  slip.place = .held ∧ slip.item.entry.idempotency = some cacheKey

/-- The pair under which a released envelope was reported. -/
def Slip.releasedPair (slip : Slip) : Option (String × ContentId) :=
  match slip.place with
  | .released ledgerId => some (ledgerId, slip.item.entry.requestCid)
  | _ => none

def settledPlace (accepted : Accepted) : Place :=
  match accepted.entry.idempotency with
  | some _ => .held
  | none => .released accepted.branch.ledgerId

def settleAt (key : RefKey) (book : List Slip) : List Slip :=
  moveFirst (Slip.waitsAt key) settledPlace book

def clearAt (key : RefKey) (book : List Slip) : List Slip :=
  moveAll (Slip.waitsAt key) (fun _ => .released key.ledgerId) book

variable (book : List Slip)

def forget (cacheKey : IdempotencyCacheKey) : List Slip :=
  moveAll (Slip.heldUnder cacheKey) (fun _ => .released cacheKey.ledgerId) book

def acceptedBy (step : AppliedStep) : Option Accepted :=
  match step.input.command, step.response with
  | .enqueueCommand args, .enqueued _ _ =>
    some ⟨⟨args.ledgerId, args.branch⟩, queuedEntry step.before step.input.index args⟩
  | _, _ => none

/-- How a step moves the book. -/
def custodyStep (step : AppliedStep) : List Slip :=
  match step.input.command, step.response with
  | .enqueueCommand args, .enqueued _ _ =>
    book ++ [⟨⟨⟨args.ledgerId, args.branch⟩, queuedEntry step.before step.input.index args⟩,
      .waiting⟩]
  | .applyHead args, .headApplied _ _ _ _ => settleAt ⟨args.ledgerId, args.branch⟩ book
  | .poisonQueueEntry args, .poisoned _ _ _ _ => settleAt ⟨args.ledgerId, args.branch⟩ book
  | .dropBranch ledgerId branch _, .branchDropped _ _ _ => clearAt ⟨ledgerId, branch⟩ book
  | .purgeBranch ledgerId branch _, .purged _ _ => clearAt ⟨ledgerId, branch⟩ book
  | .resetHead ledgerId branch _ _, .headReset _ _ => clearAt ⟨ledgerId, branch⟩ book
  | .retractLedger ledgerId branch _, .retracted _ _ => clearAt ⟨ledgerId, branch⟩ book
  | .evictIdempotency cutoff _, .evictionApplied _ _ =>
    (evictionBatch step.input.order step.before cutoff).foldl forget book
  | _, _ => book

def custody (steps : List AppliedStep) : List Slip :=
  steps.foldl custodyStep []

variable {key : RefKey} {slip : Slip}

@[simp] theorem Slip.waitsAt_iff :
    slip.waitsAt key = true ↔ slip.place = .waiting ∧ slip.item.branch = key := by
  simp [waitsAt]

@[simp] theorem Slip.heldUnder_iff {cacheKey : IdempotencyCacheKey} :
    slip.heldUnder cacheKey = true ↔
      slip.place = .held ∧ slip.item.entry.idempotency = some cacheKey := by
  simp [heldUnder]

theorem Slip.waitsAt_released (key : RefKey) (accepted : Accepted) (ledgerId : String) :
    Slip.waitsAt key ⟨accepted, .released ledgerId⟩ = false := by
  simp [waitsAt]

theorem Slip.heldUnder_released (cacheKey : IdempotencyCacheKey) (accepted : Accepted)
    (ledgerId : String) : Slip.heldUnder cacheKey ⟨accepted, .released ledgerId⟩ = false := by
  simp [heldUnder]

/-! ### Book and state -/

/-- The waiting slips are the queues, in order. -/
def Waiting (queueOf : RefKey → List QueueEntry) : Prop :=
  ∀ key, (book.filter (Slip.waitsAt key)).map (fun slip => slip.item.entry) = queueOf key

/-- The held slips are the recorded outcomes: one per key, with its envelope. -/
def Held (cache : HashMap IdempotencyCacheKey ApplyOutcome) : Prop :=
  ∀ cacheKey, (book.filter (Slip.heldUnder cacheKey)).map
      (fun slip => slip.item.entry.requestCid) =
    ((cache.lookup cacheKey).map ApplyOutcome.requestCid).toList

/-- A move of slips that wait leaves the held ones alone, and the other way
round. -/
theorem filter_eq_of_disjoint {p q : Slip → Bool} {dest : Accepted → Place}
    (hq : ∀ slip : Slip, p slip = true → q (slip.move dest) = false)
    (hpq : ∀ slip, q slip = true → p slip = false) (book : List Slip) :
    (moveAll p dest book).filter q = book.filter q := by
  rw [filter_moveAll hq]
  apply filter_congr
  intro slip _
  cases hslip : q slip with
  | false => simp
  | true => simp [hpq slip hslip]

variable {queueOf : RefKey → List QueueEntry} {book}

theorem Waiting.append (h : Waiting book queueOf) (key : RefKey) (entry : QueueEntry) :
    Waiting (book ++ [⟨⟨key, entry⟩, .waiting⟩])
      (Function.update queueOf key (queueOf key ++ [entry])) := by
  intro a
  rw [filter_append, map_append, h a]
  by_cases ha : a = key
  · subst a
    simp
  · simp [ha, Ne.symm ha]

variable {cache : HashMap IdempotencyCacheKey ApplyOutcome}

theorem Held.append (h : Held book cache) (accepted : Accepted) :
    Held (book ++ [⟨accepted, .waiting⟩]) cache := by
  intro cacheKey
  rw [filter_append, map_append, h cacheKey]
  simp

variable {entry : QueueEntry} {rest : List QueueEntry}

theorem Waiting.settleAt_eq (h : Waiting book queueOf) (hqueue : queueOf key = entry :: rest) :
    ∃ pre post, book = pre ++ ⟨⟨key, entry⟩, .waiting⟩ :: post ∧
      pre.filter (Slip.waitsAt key) = [] ∧
      (post.filter (Slip.waitsAt key)).map (fun slip => slip.item.entry) = rest ∧
      settleAt key book = pre ++ ⟨⟨key, entry⟩, settledPlace ⟨key, entry⟩⟩ :: post := by
  have hkey := h key
  rw [hqueue, map_eq_cons_iff] at hkey
  obtain ⟨slip, slips, hfilter, hentry, hrest⟩ := hkey
  obtain ⟨pre, post, hbook, hpre, hpost, hslip, hmoved⟩ := moveFirst_eq settledPlace hfilter
  obtain ⟨hplace, hbranch⟩ := Slip.waitsAt_iff.mp hslip
  have heq : slip = ⟨⟨key, entry⟩, .waiting⟩ := by
    obtain ⟨⟨branch, own⟩, place⟩ := slip
    simp only at hplace hbranch hentry
    rw [hplace, hbranch, hentry]
  subst heq
  refine ⟨pre, post, hbook, hpre, ?_, hmoved⟩
  rw [hpost]
  exact hrest

theorem waitsAt_settledPlace (key : RefKey) (accepted : Accepted) :
    Slip.waitsAt key ⟨accepted, settledPlace accepted⟩ = false := by
  unfold Slip.waitsAt settledPlace
  cases accepted.entry.idempotency <;> simp

theorem Waiting.settle (h : Waiting book queueOf) (hqueue : queueOf key = entry :: rest) :
    Waiting (settleAt key book) (Function.update queueOf key rest) := by
  obtain ⟨pre, post, hbook, hpre, hpost, hsettled⟩ := h.settleAt_eq hqueue
  intro a
  rw [hsettled, Function.update_apply]
  split
  · subst a
    rw [filter_append, hpre, nil_append,
      filter_cons_of_neg (by simp [waitsAt_settledPlace]), hpost]
  · rename_i hne
    have ha := h a
    rw [hbook, filter_append, filter_cons_of_neg (by simp [Ne.symm hne])] at ha
    rw [filter_append, filter_cons_of_neg (by simp [waitsAt_settledPlace]), ha]

theorem heldUnder_settledPlace (cacheKey : IdempotencyCacheKey) (accepted : Accepted) :
    Slip.heldUnder cacheKey ⟨accepted, settledPlace accepted⟩ =
      decide (accepted.entry.idempotency = some cacheKey) := by
  unfold Slip.heldUnder settledPlace
  cases accepted.entry.idempotency <;> simp

variable {outcome : ApplyOutcome}

theorem Held.settle (hwaiting : Waiting book queueOf) (h : Held book cache)
    (hqueue : queueOf key = entry :: rest) (hcid : outcome.requestCid = entry.requestCid)
    (hnew : ∀ cacheKey, entry.idempotency = some cacheKey → cache.lookup cacheKey = none) :
    Held (settleAt key book) (recordedOutcome cache entry outcome) := by
  obtain ⟨pre, post, hbook, -, -, hsettled⟩ := hwaiting.settleAt_eq hqueue
  intro cacheKey
  have hold := h cacheKey
  rw [hbook, filter_append, filter_cons_of_neg (by simp)] at hold
  rw [hsettled, filter_append, filter_cons, heldUnder_settledPlace,
    lookup_recordedOutcome]
  by_cases hkey : entry.idempotency = some cacheKey
  · rw [hnew cacheKey hkey, map_append, Option.map_none, Option.toList_none,
      append_eq_nil_iff] at hold
    simp [hkey, hold.1, hold.2, hcid]
  · simp only [hkey]
    exact hold

theorem releasedPair_settle (h : Waiting book queueOf) (hqueue : queueOf key = entry :: rest) :
    ((settleAt key book).filterMap Slip.releasedPair).Perm
      (book.filterMap Slip.releasedPair ++ entry.releasedPairs key) := by
  obtain ⟨pre, post, hbook, -, -, hsettled⟩ := h.settleAt_eq hqueue
  have hreport : Slip.releasedPair ⟨⟨key, entry⟩, settledPlace ⟨key, entry⟩⟩ =
      entry.releasedNow.map fun cid => (key.ledgerId, cid) := by
    unfold Slip.releasedPair settledPlace QueueEntry.releasedNow
    cases entry.idempotency <;> rfl
  rw [hsettled, hbook, filterMap_append, filterMap_append, filterMap_cons,
    hreport, filterMap_cons_none rfl, append_assoc]
  unfold QueueEntry.releasedPairs
  cases entry.releasedNow with
  | none => simp
  | some cid => exact Perm.append_left _ (perm_append_singleton _ _).symm

/-! ### Clearing and forgetting -/

theorem Waiting.clear (h : Waiting book queueOf) (key : RefKey) :
    Waiting (clearAt key book) (Function.update queueOf key []) := by
  intro a
  rw [Function.update_apply, clearAt]
  split
  · subst a
    rw [filter_moveAll (fun _ _ => Slip.waitsAt_released ..)]
    simp
  · rename_i hne
    rw [filter_eq_of_disjoint (fun _ _ => Slip.waitsAt_released ..), h a]
    intro slip hslip
    obtain ⟨-, hbranch⟩ := Slip.waitsAt_iff.mp hslip
    simp [Slip.waitsAt, hbranch, hne]

theorem Held.clear (h : Held book cache) (key : RefKey) : Held (clearAt key book) cache := by
  intro cacheKey
  rw [clearAt, filter_eq_of_disjoint (fun _ _ => Slip.heldUnder_released ..), h cacheKey]
  intro slip hslip
  obtain ⟨hplace, -⟩ := Slip.heldUnder_iff.mp hslip
  simp [Slip.waitsAt, hplace]

theorem releasedPair_clear (h : Waiting book queueOf) (key : RefKey) :
    ((clearAt key book).filterMap Slip.releasedPair).Perm
      (book.filterMap Slip.releasedPair ++
        (queueOf key).map fun entry => (key.ledgerId, entry.requestCid)) := by
  have hmoved := filterMap_moveAll_perm (Slip.waitsAt key)
    (fun _ => .released key.ledgerId) Slip.releasedPair
    (fun accepted => (key.ledgerId, accepted.entry.requestCid)) ?_ ?_ book
  · rw [← h key, map_map]
    exact hmoved
  · intro slip hslip
    simp [Slip.releasedPair, (Slip.waitsAt_iff.mp hslip).1]
  · intro slip _
    rfl

theorem Waiting.forget (h : Waiting book queueOf) (cacheKey : IdempotencyCacheKey) :
    Waiting (forget book cacheKey) queueOf := by
  intro a
  rw [Consensus.forget, filter_eq_of_disjoint (fun _ _ => Slip.waitsAt_released ..), h a]
  intro slip hslip
  obtain ⟨hplace, -⟩ := Slip.waitsAt_iff.mp hslip
  simp [Slip.heldUnder, hplace]

theorem Held.forget (h : Held book cache) (cacheKey : IdempotencyCacheKey) :
    Held (forget book cacheKey) (cache.erase cacheKey) := by
  intro a
  rw [HashMap.lookup_erase_eq, Consensus.forget]
  split
  · subst a
    rw [filter_moveAll (fun _ _ => Slip.heldUnder_released ..)]
    simp
  · rename_i hne
    rw [filter_eq_of_disjoint (fun _ _ => Slip.heldUnder_released ..), h a]
    intro slip hslip
    obtain ⟨-, hkey⟩ := Slip.heldUnder_iff.mp hslip
    simp [Slip.heldUnder, hkey, hne]

theorem releasedPair_forget (h : Held book cache) (cacheKey : IdempotencyCacheKey) :
    ((forget book cacheKey).filterMap Slip.releasedPair).Perm
      (book.filterMap Slip.releasedPair ++ (heldEnvelope cache cacheKey).toList) := by
  have hmoved := filterMap_moveAll_perm (Slip.heldUnder cacheKey)
    (fun _ => .released cacheKey.ledgerId) Slip.releasedPair
    (fun accepted => (cacheKey.ledgerId, accepted.entry.requestCid)) ?_ ?_ book
  · have hpairs : (book.filter (Slip.heldUnder cacheKey)).map
        (fun slip => (cacheKey.ledgerId, slip.item.entry.requestCid)) =
        (heldEnvelope cache cacheKey).toList := by
      have := congrArg (map fun cid => (cacheKey.ledgerId, cid)) (h cacheKey)
      rw [map_map] at this
      refine this.trans ?_
      unfold heldEnvelope
      cases cache.lookup cacheKey <;> rfl
    rw [← hpairs]
    exact hmoved
  · intro slip hslip
    simp [Slip.releasedPair, (Slip.heldUnder_iff.mp hslip).1]
  · intro slip _
    rfl

/-- Forgetting distinct keys one after the other: what the book reports, and
what it still holds. -/
theorem foldl_forget {keys : List IdempotencyCacheKey} (hkeys : keys.Nodup)
    (hwaiting : Waiting book queueOf) (hheld : Held book cache) :
    Waiting (keys.foldl forget book) queueOf ∧
      Held (keys.foldl forget book) (HashMap.eraseAll cache keys) ∧
      ((keys.foldl forget book).filterMap Slip.releasedPair).Perm
        (book.filterMap Slip.releasedPair ++ keys.filterMap (heldEnvelope cache)) ∧
      (keys.foldl forget book).map item = book.map item := by
  induction keys generalizing book cache with
  | nil => exact ⟨hwaiting, hheld, by simp, rfl⟩
  | cons key keys ih =>
    obtain ⟨hnew, hrest⟩ := nodup_cons.mp hkeys
    obtain ⟨hwaiting', hheld', hreported, hitems⟩ :=
      ih hrest (hwaiting.forget key) (hheld.forget key)
    have hsame := filterMap_heldEnvelope_erase cache hnew
    refine ⟨hwaiting', hheld', ?_, hitems.trans (items_moveAll _ _ _)⟩
    rw [hsame] at hreported
    refine hreported.trans ?_
    have hone := (releasedPair_forget hheld key).append_right
      (keys.filterMap (heldEnvelope cache))
    refine hone.trans ?_
    rw [append_assoc, filterMap_cons]
    cases heldEnvelope cache key with
    | none => exact .refl _
    | some pair => exact .refl _

/-! ### Along a log -/

/-- The book accounts for the steps that led to a state. -/
structure Accounts (steps : List AppliedStep) (book : List Slip) (s : NameServiceState) :
    Prop where
  /-- Every accepted entry has exactly one slip. -/
  items : book.map item = steps.filterMap acceptedBy
  waiting : Waiting book s.queueOf
  held : Held book s.idempotency
  /-- Every released slip was reported exactly once, and nothing else was. -/
  released : (book.filterMap Slip.releasedPair).Perm
    (steps.flatMap fun step => drainReleases step.response)

theorem accounts_new : Accounts [] [] NameServiceState.new where
  items := rfl
  waiting _ := rfl
  held _ := rfl
  released := .refl _

variable {response : Response} {steps : List AppliedStep} {s : NameServiceState}

theorem Settles.requestCid {logIndex : ℕ} {command : Command}
    (h : Settles logIndex entry command response key outcome) :
    outcome.requestCid = entry.requestCid := by
  cases h <;> rfl

theorem custodyStep_of_quiet (step : AppliedStep)
    (h : Quiet step.input.command step.response) (book : List Slip) :
    custodyStep book step = book ∧ acceptedBy step = none := by
  obtain ⟨-, hwaiters, henqueued, hevicted⟩ := h
  constructor
  · unfold custodyStep
    split <;> first | rfl | simp_all [waiterResolutionFor]
  · unfold acceptedBy
    split <;> first | rfl | simp_all

/-- A step is accounted for once it is known how it moved the book and what it
reported. -/
theorem Accounts.of_move (h : Accounts steps book s) {step : AppliedStep} (moved : List Slip)
    (hmove : custodyStep book step = moved)
    (hitems : moved.map item = book.map item ++ (acceptedBy step).toList)
    (hwaiting : Waiting moved step.after.queueOf) (hheld : Held moved step.after.idempotency)
    (hreleased : (moved.filterMap Slip.releasedPair).Perm (book.filterMap Slip.releasedPair ++
      drainReleases step.response)) :
    Accounts (steps ++ [step]) (custodyStep book step) step.after := by
  subst hmove
  refine ⟨?_, hwaiting, hheld, ?_⟩
  · rw [hitems, h.items]
    cases hstep : acceptedBy step <;> simp [hstep]
  · rw [flatMap_append, flatMap_singleton]
    exact hreleased.trans (h.released.append_right _)

theorem Accounts.step {s' : NameServiceState} {pin : IdempotencyCacheKey → RefKey}
    (h : Accounts steps book s) (hs : KeysHeld pin s) {e : LogEntry}
    (heffect : QueueEffect e.order e.index s s' e.command response) :
    Accounts (steps ++ [⟨s, e, response, s'⟩]) (custodyStep book ⟨s, e, response, s'⟩) s' := by
  obtain ⟨index, command, order⟩ := e
  cases heffect with
  | quiet hquiet hqueues hcache =>
    obtain ⟨hmove, haccept⟩ :=
      custodyStep_of_quiet ⟨s, ⟨index, command, order⟩, response, s'⟩ hquiet book
    apply h.of_move book hmove
    · simp [haccept]
    · exact hqueues ▸ h.waiting
    · exact hcache ▸ h.held
    · simp [hquiet.releases]
  | @appended args hlive hunseen hqueues hcache =>
    apply h.of_move (book ++ [⟨⟨⟨args.ledgerId, args.branch⟩, queuedEntry s index args⟩,
      .waiting⟩]) rfl
    · exact map_append
    · exact hqueues ▸ h.waiting.append _ _
    · exact hcache ▸ h.held.append _
    · rw [filterMap_append]
      exact .refl _
  | @settled _ _ key entry rest outcome hsettles hqueue hqueues hcache hnext =>
    -- a queued key has no outcome yet, so nothing held is overwritten
    have hunsettled := hs.unsettled key entry (hqueue ▸ mem_cons_self ..)
    apply h.of_move (settleAt key book)
    · cases hsettles <;> rfl
    · rw [settleAt, items_moveFirst]
      cases hsettles <;> simp [acceptedBy]
    · exact hqueues ▸ h.waiting.settle hqueue
    · exact hcache ▸ h.held.settle h.waiting hqueue hsettles.requestCid hunsettled
    · rw [drainReleases_of_settles hsettles]
      exact releasedPair_settle h.waiting hqueue
  | @cleared _ _ key reason hclears hqueues hcache hnext =>
    apply h.of_move (clearAt key book)
    · cases hclears <;> rfl
    · rw [clearAt, items_moveAll]
      cases hclears <;> simp [acceptedBy]
    · exact hqueues ▸ h.waiting.clear key
    · exact hcache ▸ h.held.clear key
    · rw [drainReleases_of_clears hclears]
      exact releasedPair_clear h.waiting key
  | @evicted cutoff markerCutoff hqueues hcache =>
    obtain ⟨hwaiting, hheld, hreported, hitems⟩ :=
      foldl_forget (evictionBatch_nodup order s cutoff) h.waiting h.held
    apply h.of_move _ rfl
    · exact hitems.trans (append_nil _).symm
    · exact hqueues ▸ hwaiting
    · exact hcache ▸ hheld
    · exact hreported

/-- **Envelope accounting.** After any log whose keys are pinned, every accepted
entry is in exactly one place: it waits in its branch's queue, it is held by
the outcome of its key, or it was released and reported exactly once. -/
theorem envelopes_accounted (log : List LogEntry) (hpinned : KeysPinned log) :
    Accounts (replaySteps log) (custody (replaySteps log)) (replay log) := by
  obtain ⟨pin, hpin⟩ := hpinned.exists_pin
  clear hpinned
  induction log using reverseRecOn with
  | nil => exact accounts_new
  | append_singleton log e ih =>
    have hlog : ∀ e' ∈ log, PinnedTo pin e'.command := fun e' he' => hpin e' (by simp [he'])
    have hs : KeyState pin (replay log) := keyState_replay hlog
    rw [replaySteps_concat, custody, foldl_append, replay_concat]
    exact (ih hlog).step hs.keysHeld (applyEntry_queueEffect hs.wellFormed e)

/-- A key is submitted, committed and submitted again: one slip, held by the
outcome. -/
theorem envelopes_accounted_retried :
    (custody (replaySteps Sample.retried)).map place = [.held] ∧
      Accounts (replaySteps Sample.retried) (custody (replaySteps Sample.retried))
        (replay Sample.retried) := by
  refine ⟨rfl, envelopes_accounted Sample.retried ?_⟩
  intro e he e' he' cacheKey _ _
  rw [Sample.retried_refKey e he, Sample.retried_refKey e' he']

end FlureeDb.Consensus
