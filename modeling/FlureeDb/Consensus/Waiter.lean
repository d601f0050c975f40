import FlureeDb.Consensus.Lives

/-!
The waiters of a node. A proposer that was given a queue id registers a channel
under it and waits; the adapter resolves ids and sweeps branches when it applies
what retires their entries. A resolution that finds no channel is buffered for
the registration still to come. A sweep is not: it reaches the channels that
are parked when it runs, and no others.

The node around the map is the part of the adapter that decides which orders are
possible. An `apply` call changes the state for its whole batch first, executes
the resolutions afterwards one by one, and hands its responses back last;
registrations and staged receipts come in between at any point.
-/

namespace FlureeDb.Consensus

open FlureeDb.Core Lib List

/-- What a worker leaves for the proposer, one variant per kind of operation,
and the fallback when it left nothing. -/
inductive AppliedReceipt
  | transact (commitId : ContentId) (commitT : ℤ)
  | push (commitId : ContentId) (commitT : ℤ)
  | revert (commitId : ContentId) (commitT : ℤ)
  | merge (commitId : ContentId) (commitT : ℤ)
  | rebase (commitId : ContentId) (commitT : ℤ)
  | minimal (commitId : ContentId) (commitT : ℤ)
  deriving DecidableEq

namespace AppliedReceipt

def commitId : AppliedReceipt → ContentId
  | transact commitId _ | push commitId _ | revert commitId _ | merge commitId _
  | rebase commitId _ | minimal commitId _ => commitId

def commitT : AppliedReceipt → ℤ
  | transact _ commitT | push _ commitT | revert _ commitT | merge _ commitT
  | rebase _ commitT | minimal _ commitT => commitT

end AppliedReceipt

abbrev StagedReceiptMap := HashMap ℕ (RefKey × AppliedReceipt)

namespace StagedReceiptMap

variable (receipts : StagedReceiptMap)

def stash (queueId : ℕ) (refKey : RefKey) (receipt : AppliedReceipt) : StagedReceiptMap :=
  receipts.insert queueId (refKey, receipt)

def take (queueId : ℕ) : StagedReceiptMap × Option AppliedReceipt :=
  (receipts.erase queueId, (receipts.lookup queueId).map Prod.snd)

/-- The map without the receipts of a branch, which the adapter drops. -/
def takeForRefKey (refKey : RefKey) : StagedReceiptMap :=
  HashMap.retain receipts fun _ staged => staged.1 ≠ refKey

end StagedReceiptMap

inductive WaiterOutcome
  | applied (receipt : AppliedReceipt)
  | aborted (reason : AbortReason)
  deriving DecidableEq

/-- A parked channel, or an outcome that came before its channel. -/
inductive WaiterSlot (Sender : Type)
  | parked (refKey : RefKey) (sender : Sender)
  | resolved (outcome : WaiterOutcome)

abbrev WaiterMap (Sender : Type) := HashMap ℕ (WaiterSlot Sender)

/-- Outcomes sent, each with the channel it went into. -/
abbrev Sent (Sender : Type) := List (Sender × WaiterOutcome)

variable {refKey : RefKey} {queueId : ℕ}

namespace WaiterMap

variable {Sender : Type} (slots : WaiterMap Sender)

def register (queueId : ℕ) (refKey : RefKey) (sender : Sender) : WaiterMap Sender × Sent Sender :=
  match slots.lookup queueId with
  | none => (slots.insert queueId (.parked refKey sender), [])
  | some (.resolved outcome) => (slots.erase queueId, [(sender, outcome)])
  -- a duplicate registration drops the sender that was parked
  | some (.parked _ _) => (slots.insert queueId (.parked refKey sender), [])

def resolveWith (queueId : ℕ) (outcome : WaiterOutcome) : WaiterMap Sender × Sent Sender :=
  match slots.lookup queueId with
  | none => (slots.insert queueId (.resolved outcome), [])
  | some (.parked _ sender) => (slots.erase queueId, [(sender, outcome)])
  | some (.resolved _) => (slots.insert queueId (.resolved outcome), [])

def resolveApplied (queueId : ℕ) (receipt : AppliedReceipt) : WaiterMap Sender × Sent Sender :=
  resolveWith slots queueId (.applied receipt)

def resolveAborted (queueId : ℕ) (reason : AbortReason) : WaiterMap Sender × Sent Sender :=
  resolveWith slots queueId (.aborted reason)

def parkedId (refKey : RefKey) : ℕ × WaiterSlot Sender → Option ℕ
  | (queueId, .parked parkedKey _) => if parkedKey = refKey then some queueId else none
  | (_, .resolved _) => none

variable (order : HashMap.IterOrder ℕ (WaiterSlot Sender))

/-- The ids that a sweep of a branch resolves, in iteration order. -/
def toResolve (slots : WaiterMap Sender) (refKey : RefKey) : List ℕ :=
  (order.iter slots).filterMap (parkedId refKey)

def abortEach (reason : AbortReason) (queueIds : List ℕ)
    (start : WaiterMap Sender × Sent Sender) : WaiterMap Sender × Sent Sender :=
  queueIds.foldl (fun current queueId =>
    let next := resolveAborted current.1 queueId reason
    (next.1, current.2 ++ next.2)) start

def abortAllForBranch (slots : WaiterMap Sender) (refKey : RefKey) (reason : AbortReason) :
    WaiterMap Sender × Sent Sender :=
  abortEach reason (toResolve order slots refKey) (slots, [])

section

variable {slots}

theorem resolveWith_of_parked {sender : Sender}
    (h : slots.lookup queueId = some (.parked refKey sender)) (outcome : WaiterOutcome) :
    resolveWith slots queueId outcome = (slots.erase queueId, [(sender, outcome)]) := by
  simp [resolveWith, h]

theorem resolveWith_of_none (h : slots.lookup queueId = none) (outcome : WaiterOutcome) :
    resolveWith slots queueId outcome = (slots.insert queueId (.resolved outcome), []) := by
  simp [resolveWith, h]

theorem register_of_none (h : slots.lookup queueId = none) (refKey : RefKey) (sender : Sender) :
    register slots queueId refKey sender =
      (slots.insert queueId (.parked refKey sender), []) := by
  simp [register, h]

theorem register_of_resolved {outcome : WaiterOutcome}
    (h : slots.lookup queueId = some (.resolved outcome)) (refKey : RefKey) (sender : Sender) :
    register slots queueId refKey sender = (slots.erase queueId, [(sender, outcome)]) := by
  simp [register, h]

end

theorem parkedId_eq_some_iff {queueId a : ℕ} {slot : WaiterSlot Sender} :
    parkedId refKey (a, slot) = some queueId ↔
      a = queueId ∧ ∃ sender, slot = .parked refKey sender := by
  cases slot with
  | parked =>
    simp only [parkedId, Option.ite_none_right_eq_some, Option.some.injEq,
      WaiterSlot.parked.injEq, exists_and_left, exists_eq', and_true]
    exact and_comm
  | resolved => simp [parkedId]

theorem mem_toResolve {order : HashMap.IterOrder ℕ (WaiterSlot Sender)} {slots : WaiterMap Sender} :
    queueId ∈ toResolve order slots refKey ↔
      ∃ sender, slots.lookup queueId = some (.parked refKey sender) := by
  rw [toResolve, mem_filterMap]
  constructor
  · rintro ⟨⟨a, slot⟩, hmem, hid⟩
    obtain ⟨rfl, sender, rfl⟩ := parkedId_eq_some_iff.mp hid
    exact ⟨sender, order.mem_iter.mp hmem⟩
  · rintro ⟨sender, hlookup⟩
    exact ⟨_, order.mem_iter.mpr hlookup, parkedId_eq_some_iff.mpr ⟨rfl, sender, rfl⟩⟩

theorem nodup_toResolve (order : HashMap.IterOrder ℕ (WaiterSlot Sender))
    (slots : WaiterMap Sender) (refKey : RefKey) : (toResolve order slots refKey).Nodup := by
  have hpairwise := pairwise_map.mp (order.nodup_keys slots)
  refine Pairwise.filterMap _ ?_ hpairwise
  rintro ⟨a, slot⟩ ⟨b, slot'⟩ hne q hq q' hq'
  obtain ⟨rfl, -⟩ := parkedId_eq_some_iff.mp hq
  obtain ⟨rfl, -⟩ := parkedId_eq_some_iff.mp hq'
  exact hne

theorem abortEach_eq {channel : ℕ → Sender} (reason : AbortReason) {queueIds : List ℕ}
    (hnodup : queueIds.Nodup) (slots : WaiterMap Sender) (sent : Sent Sender)
    (hparked : ∀ queueId ∈ queueIds, ∃ refKey,
      slots.lookup queueId = some (.parked refKey (channel queueId))) :
    abortEach reason queueIds (slots, sent) =
      (HashMap.eraseAll slots queueIds,
        sent ++ queueIds.map fun queueId => (channel queueId, .aborted reason)) := by
  induction queueIds generalizing slots sent with
  | nil => simp [abortEach, HashMap.eraseAll]
  | cons queueId rest ih =>
    obtain ⟨hnotin, hrest⟩ := nodup_cons.mp hnodup
    obtain ⟨refKey, hlookup⟩ := hparked queueId (mem_cons_self ..)
    have hfirst : resolveAborted slots queueId reason =
        (slots.erase queueId, [(channel queueId, .aborted reason)]) :=
      resolveWith_of_parked hlookup _
    have hothers : ∀ a ∈ rest, ∃ refKey,
        (slots.erase queueId).lookup a = some (.parked refKey (channel a)) := by
      intro a ha
      have hne : a ≠ queueId := fun h => hnotin (h ▸ ha)
      rw [HashMap.lookup_erase_eq, if_neg hne]
      exact hparked a (mem_cons_of_mem _ ha)
    have htail := ih hrest (slots.erase queueId)
      (sent ++ [(channel queueId, .aborted reason)]) hothers
    change abortEach reason rest ((resolveAborted slots queueId reason).1,
      sent ++ (resolveAborted slots queueId reason).2) = _
    rw [hfirst, htail, append_assoc]
    rfl

theorem abortAllForBranch_of_unparked {slots : WaiterMap Sender}
    (h : ∀ queueId sender, slots.lookup queueId ≠ some (.parked refKey sender))
    (order : HashMap.IterOrder ℕ (WaiterSlot Sender)) (reason : AbortReason) :
    abortAllForBranch order slots refKey reason = (slots, []) := by
  have hnone : toResolve order slots refKey = [] := by
    apply eq_nil_iff_forall_not_mem.mpr
    intro queueId hmem
    obtain ⟨sender, hlookup⟩ := mem_toResolve.mp hmem
    exact h queueId sender hlookup
  rw [abortAllForBranch, hnone]
  rfl

end WaiterMap

/-! ### The node -/

/-- A node: its replicated state, the waiter map and the staged receipts, and
the steps of its `apply` calls, those whose resolution is due, those executed in
the running call, and those of the calls that returned. A queue id is registered
once, so it also names the channel opened for it. -/
structure Node where
  state : NameServiceState
  slots : WaiterMap ℕ
  staged : StagedReceiptMap
  pending : List AppliedStep
  executed : List AppliedStep
  returned : List AppliedStep
  registered : List ℕ
  sent : Sent ℕ

def Node.new : Node := ⟨.new, ∅, ∅, [], [], [], [], []⟩

/-- What can happen at a node: an `apply` call takes a batch, executes a
resolution, returns; a proposer registers; a worker stashes a receipt or takes
it back. -/
inductive NodeEvent
  | apply (batch : List LogEntry)
  | resolve (order : HashMap.IterOrder ℕ (WaiterSlot ℕ))
  | returns
  | register (queueId : ℕ) (refKey : RefKey)
  | stash (queueId : ℕ) (refKey : RefKey) (receipt : AppliedReceipt)
  | unstash (queueId : ℕ)

namespace Node

def steps (n : Node) : List AppliedStep :=
  n.returned ++ n.executed ++ n.pending

/-- The outcomes sent to the channel of an id. -/
def sentTo (n : Node) (queueId : ℕ) : List WaiterOutcome :=
  (n.sent.filter fun message => message.1 = queueId).map Prod.snd

def withWaiters (n : Node) (result : WaiterMap ℕ × Sent ℕ) : Node :=
  { n with slots := result.1, sent := n.sent ++ result.2 }

/-- The adapter's part of an `apply` call that wakes waiters. -/
def execute (n : Node) (order : HashMap.IterOrder ℕ (WaiterSlot ℕ)) :
    Option WaiterResolution → Node
  | some (.applied queueId commitId commitT) =>
    let taken := n.staged.take queueId
    let receipt := taken.2.getD (.minimal commitId commitT)
    { n with staged := taken.1 }.withWaiters (n.slots.resolveApplied queueId receipt)
  | some (.aborted queueId reason) =>
    { n with staged := (n.staged.take queueId).1 }.withWaiters
      (n.slots.resolveAborted queueId reason)
  | some (.abortBranch refKey reason) =>
    { n with staged := n.staged.takeForRefKey refKey }.withWaiters
      (n.slots.abortAllForBranch order refKey reason)
  | none => n

def step (n : Node) : NodeEvent → Node
  | .apply batch =>
    { n with
      state := Run.final applyEntry n.state batch
      pending := Run.trace applyEntry n.state batch }
  | .resolve order =>
    match n.pending with
    | [] => n
    | step :: rest =>
      { n with pending := rest, executed := n.executed ++ [step] }.execute order
        (waiterResolutionFor step.input.command step.response)
  | .returns => { n with returned := n.returned ++ n.executed, executed := [] }
  | .register queueId refKey =>
    { n with registered := queueId :: n.registered }.withWaiters
      (n.slots.register queueId refKey queueId)
  | .stash queueId refKey receipt =>
    { n with staged := n.staged.stash queueId refKey receipt }
  | .unstash queueId => { n with staged := (n.staged.take queueId).1 }

end Node

/-- What may happen when. The raft core drives one `apply` call at a time, a
call returns when its resolutions are executed, and a proposer registers, once,
an id that a returned call gave it. -/
def NodeEvent.Allowed (n : Node) : NodeEvent → Prop
  | .apply _ => n.pending = [] ∧ n.executed = []
  | .returns => n.pending = []
  | .register queueId refKey =>
    (queueId, refKey) ∈ n.returned.filterMap issuedBy ∧ queueId ∉ n.registered
  | .resolve _ | .stash _ _ _ | .unstash _ => True

end FlureeDb.Consensus
