import FlureeDb.Consensus.Heads

/-!
A retracted branch is a tombstone. Every path that writes a head or appends to
a queue makes its own check of the retracted set, and the queue that a branch
had when it was retracted is drained by the retraction. Here the checks are put
together: until a drop or a purge removes the branch, its head stays as it was
and its queue stays empty.
-/

namespace FlureeDb.Consensus

open FlureeDb.Core Lib NameServiceState

/-- What a retraction freezes of a head: the commit, its time, its index and
the log index that last advanced it. The child counter is not part of it, since
a branch can still be forked from a retracted one. -/
def NameServiceState.frozenHead (s : NameServiceState) (key : RefKey) :
    Option (ContentId × ℤ × Option IndexState × ℕ) :=
  (s.refs.lookup key).map fun entry =>
    (entry.head, entry.t, entry.index, entry.lastAdvancedIndex)

/-- A commit or a submission for the branch that went through. -/
inductive Admits (key : RefKey) : Command → Response → Prop
  | applied (args : StagedHead) (hkey : (⟨args.ledgerId, args.branch⟩ : RefKey) = key)
      (ledgerId : String) (head : ContentId) (t : ℤ) (released : Option ContentId) :
      Admits key (.applyHead args) (.headApplied ledgerId head t released)
  | enqueued (args : QueueSubmission) (hkey : (⟨args.ledgerId, args.branch⟩ : RefKey) = key)
      (ledgerId : String) (queueId : ℕ) :
      Admits key (.enqueueCommand args) (.enqueued ledgerId queueId)

variable {s s' : NameServiceState} {key a : RefKey}

theorem frozenHead_of_insert {entry : RefEntry} (hrefs : s'.refs = s.refs.insert a entry)
    (hne : key ≠ a) : s'.frozenHead key = s.frozenHead key := by
  rw [frozenHead, hrefs, HashMap.lookup_insert_eq, if_neg hne]
  rfl

theorem frozenHead_of_erase (hrefs : s'.refs = s.refs.erase a) (hne : key ≠ a) :
    s'.frozenHead key = s.frozenHead key := by
  rw [frozenHead, hrefs, HashMap.lookup_erase_eq, if_neg hne]
  rfl

theorem frozenHead_of_removed (reason : ClearReason) (millis : ℕ) (hne : key ≠ a) :
    (removed s a reason millis).frozenHead key = s.frozenHead key := by
  unfold frozenHead removed
  rw [lookup_removedRefs, if_neg hne]
  split
  · rw [Option.map_map]
    rfl
  · rfl

/-- What one transition leaves of a retracted branch that it does not remove. -/
theorem Transition.tombstone {order : CacheOrder} {logIndex : ℕ} {command : Command}
    {response : Response} (hs : WellFormed s) (h : Transition order logIndex s command s' response)
    (hkey : key ∈ s.retracted) (hremoved : removedBranch command response ≠ some key) :
    key ∈ s'.retracted ∧ s'.frozenHead key = s.frozenHead key ∧
      ¬ Admits key command response := by
  -- the guard of a writing path says that the written branch is another one
  have hother {a : RefKey} (hlive : a ∉ s.retracted) : key ≠ a :=
    fun h => hlive (h ▸ hkey)
  cases h with
  | refused h | peripheral h =>
    refine ⟨hkey, rfl, ?_⟩
    rintro (⟨args, hargs, _, _, _, _⟩ | ⟨args, hargs, _, _⟩)
    · cases h
    · cases h
  | markerConsumed | statusPushed | configPushed | ledgerCreated | poisoned | evicted =>
    exact ⟨hkey, rfl, by rintro ⟨⟩⟩
  | @branchForked args ledger source hledger hnew hsource =>
    refine ⟨hkey, ?_, by rintro ⟨⟩⟩
    have hne : key ≠ ⟨args.ledgerId, args.branch⟩ := by
      -- the forked branch is not registered, a retracted one is
      rintro rfl
      obtain ⟨found, hfound, hmem⟩ := hs.retracted_registered _ hkey
      rw [hledger, Option.some.injEq] at hfound
      exact hnew (hfound ▸ hmem)
    rw [frozenHead, lookup_forkedRefs, if_neg hne]
    split
    · subst key
      rw [frozenHead, hsource]
      rfl
    · rfl
  | @branchDropped ledgerId branch
  | @branchPurged ledgerId branch =>
    have hne : key ≠ ⟨ledgerId, branch⟩ := fun h => hremoved (congrArg some h.symm)
    exact ⟨Finset.mem_erase.mpr ⟨hne, hkey⟩, frozenHead_of_removed _ _ hne, by rintro ⟨⟩⟩
  | headErased hknown hlive =>
    exact ⟨hkey, frozenHead_of_erase rfl (hother hlive), by rintro ⟨⟩⟩
  | headRewritten hknown hlive | indexPublished hcommand hlive | indexSwapped hkind hlive
  | commitSwapped hkind hknown hlive =>
    exact ⟨hkey, frozenHead_of_insert rfl (hother hlive), by rintro ⟨⟩⟩
  | branchRetracted =>
    exact ⟨Finset.mem_insert_of_mem hkey, rfl, by rintro ⟨⟩⟩
  | enqueued hknown hlive =>
    refine ⟨hkey, rfl, ?_⟩
    intro hadmits
    cases hadmits with
    | enqueued _ hargs => exact hother hlive hargs.symm
  | headApplied hlive =>
    refine ⟨hkey, frozenHead_of_insert rfl (hother hlive), ?_⟩
    intro hadmits
    cases hadmits with
    | applied _ hargs => exact hother hlive hargs.symm

theorem WellFormed.queueOf_of_retracted (hs : WellFormed s) (hkey : key ∈ s.retracted) :
    s.queueOf key = [] := by
  by_contra hqueue
  exact (hs.of_queueOf_ne_nil hqueue).2.2.1 hkey

/-- A branch that was retracted with this head and not removed since. -/
structure Entombed (key : RefKey) (head : Option (ContentId × ℤ × Option IndexState × ℕ))
    (s : NameServiceState) : Prop where
  wellFormed : WellFormed s
  retracted : key ∈ s.retracted
  head_eq : s.frozenHead key = head

theorem Entombed.applyEntry {head : Option (ContentId × ℤ × Option IndexState × ℕ)}
    (h : Entombed key head s) (e : LogEntry)
    (hremoved : removedBranch e.command (applyEntry s e).2 ≠ some key) :
    Entombed key head (applyEntry s e).1 ∧ ¬ Admits key e.command (applyEntry s e).2 := by
  obtain ⟨hretracted, hhead, hadmits⟩ :=
    (applyEntry_transition h.wellFormed e).tombstone h.wellFormed h.retracted hremoved
  exact ⟨⟨applyEntry_wellFormed h.wellFormed e, hretracted, hhead.trans h.head_eq⟩, hadmits⟩

/-- **Retraction is a tombstone.** Take any log after which a branch is
retracted, and any continuation in which no drop or purge removes the branch.
Its queue is empty to begin with; and every step of the continuation leaves it
retracted, with the head it had and an empty queue, and lets no commit and no
submission for it through. -/
theorem retraction_is_tombstone (log later : List LogEntry) (key : RefKey)
    (hkey : key ∈ (replay log).retracted)
    (hkept : ∀ step ∈ Run.trace applyEntry (replay log) later,
      removedBranch step.input.command step.response ≠ some key) :
    (replay log).queueOf key = [] ∧
    ∀ step ∈ Run.trace applyEntry (replay log) later,
      key ∈ step.after.retracted ∧
      step.after.frozenHead key = (replay log).frozenHead key ∧
      step.after.queueOf key = [] ∧
      ¬ Admits key step.input.command step.response := by
  have hstart : Entombed key ((replay log).frozenHead key) (replay log) :=
    ⟨replay_wellFormed log, hkey, rfl⟩
  refine ⟨hstart.wellFormed.queueOf_of_retracted hkey, ?_⟩
  intro step hstep
  obtain ⟨pre, e, post, rfl, rfl⟩ := (Run.mem_trace_iff applyEntry).mp hstep
  have hbefore : Entombed key ((replay log).frozenHead key)
      (Run.final applyEntry (replay log) pre) := by
    apply Run.final_of_invariant applyEntry
      (C := fun s i => removedBranch i.command (applyEntry s i).2 ≠ some key)
      (fun s i hs hi => (hs.applyEntry i hi).1) hstart
    intro st hst
    have hmem := hkept st (by rw [Run.trace_append]; exact List.mem_append_left _ hst)
    obtain ⟨_, _, _, -, rfl⟩ := (Run.mem_trace_iff applyEntry).mp hst
    exact hmem
  obtain ⟨hafter, hadmits⟩ := hbefore.applyEntry e (hkept _ hstep)
  exact ⟨hafter.retracted, hafter.head_eq,
    hafter.wellFormed.queueOf_of_retracted hafter.retracted, hadmits⟩

namespace Sample

noncomputable def retracted : List LogEntry := born ++ [entry 4 (.retractLedger "db" "main" 0)]

end Sample

/-- A submission to a retracted branch, and a fork from it. -/
theorem retraction_is_tombstone_forked :
    (replay Sample.retracted).queueOf ⟨"db", "main"⟩ = [] ∧
    ∀ step ∈ Run.trace applyEntry (replay Sample.retracted)
        [Sample.entry 5 (.enqueueCommand (Sample.submission 2)),
          Sample.entry 6 (.createBranch ⟨"db", "dev", "main", none, 0⟩)],
      (⟨"db", "main"⟩ : RefKey) ∈ step.after.retracted ∧
      step.after.frozenHead ⟨"db", "main"⟩ =
        (replay Sample.retracted).frozenHead ⟨"db", "main"⟩ ∧
      step.after.queueOf ⟨"db", "main"⟩ = [] ∧
      ¬ Admits ⟨"db", "main"⟩ step.input.command step.response := by
  apply retraction_is_tombstone Sample.retracted
  · decide
  · intro step hstep
    simp only [Run.trace_cons, Run.trace_nil, List.mem_cons, List.not_mem_nil, or_false] at hstep
    rcases hstep with rfl | rfl
    · exact fun h => nomatch h
    · exact fun h => nomatch h

end FlureeDb.Consensus
