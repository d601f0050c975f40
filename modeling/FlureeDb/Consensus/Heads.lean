import FlureeDb.Consensus.Queues

/-!
The heads of the branches, seen apart from the rest of the state. Seven kinds
of effect cover every transition: most leave the heads alone, two kinds write
one head and keep its lineage (a commit head advances, an index head is
published), and the admin commands fork, remove, erase or rewrite.

From this view heads and indexes move forward: outside the admin commands a
commit time never falls, and an index never overtakes its commit unless a
reset put it there.
-/

namespace FlureeDb.Consensus

open FlureeDb.Core Lib HashMap Option Sample

inductive Advances : Command → Response → RefKey → ContentId → ℤ → Prop
  | applied (args : StagedHead) (released : Option ContentId) :
      Advances (.applyHead args)
        (.headApplied (formatLedgerId args.ledgerId args.branch) args.commitId args.commitT
          released)
        ⟨args.ledgerId, args.branch⟩ args.commitId args.commitT
  | swapped (args : RefCas) (head : ContentId) (hkind : args.kind = .commitHead)
      (hhead : args.new.id = some head) :
      Advances (.compareAndSetRef args) .refCasUpdated ⟨args.ledgerId, args.branch⟩ head
        args.new.t

inductive Publishes : Command → Response → RefKey → Option IndexState → Prop
  | advanced (args : NewIndexHead) :
      Publishes (.advanceIndexHead args) (.indexAdvanced args.t args.newIndexHead)
        ⟨args.ledgerId, args.branch⟩ (some ⟨args.newIndexHead, args.t⟩)
  | rewritten (args : NewIndexHead) :
      Publishes (.rewriteIndexHead args) (.indexAdvanced args.t args.newIndexHead)
        ⟨args.ledgerId, args.branch⟩ (some ⟨args.newIndexHead, args.t⟩)
  | swapped (args : RefCas) (hkind : args.kind = .indexHead) :
      Publishes (.compareAndSetRef args) .refCasUpdated ⟨args.ledgerId, args.branch⟩
        (args.new.id.map fun head => ⟨head, args.new.t⟩)

/-- The commands that may take a head back. -/
def Command.takesHeadsBack : Command → Bool
  | .resetHead _ _ _ _ | .dropBranch _ _ _ | .purgeBranch _ _ _ => true
  | _ => false

inductive HeadEffect (logIndex : ℕ) (s s' : NameServiceState) : Command → Response → Prop
  | kept {command : Command} {response : Response} (hrefs : s'.refs = s.refs) :
      HeadEffect logIndex s s' command response
  | advanced {command : Command} {response : Response} {key : RefKey} {head : ContentId}
      {t : ℤ} {millis : ℕ} (hadvances : Advances command response key head t)
      (hmono : ∀ prior, s.refs.lookup key = some prior → prior.t < t)
      (hrefs : s'.refs = s.refs.insert key
        (replacedEntry (s.refs.lookup key) head t millis logIndex
          ((s.refs.lookup key).bind RefEntry.index))) :
      HeadEffect logIndex s s' command response
  | published {command : Command} {response : Response} {key : RefKey} {entry : RefEntry}
      {index : Option IndexState} {millis : ℕ} (hpublishes : Publishes command response key index)
      (hentry : s.refs.lookup key = some entry)
      (hindex : ∀ new, index = some new → new.t ≤ entry.t ∧
        ∀ existing, entry.index = some existing → existing.t ≤ new.t)
      (hrefs : s'.refs = s.refs.insert key
        { entry with index := index, lastAdvancedAtMillis := millis }) :
      HeadEffect logIndex s s' command response
  | forked {args : NewBranch} {source : RefEntry}
      (hnew : s.refs.lookup ⟨args.ledgerId, args.branch⟩ = none)
      (hsource : s.refs.lookup ⟨args.ledgerId, args.sourceBranch⟩ = some source)
      (hrefs : s'.refs = forkedRefs s source logIndex args) :
      HeadEffect logIndex s s' (.createBranch args)
        (.branchCreated (formatLedgerId args.ledgerId args.branch)
          (forkedEntry source logIndex args).head (forkedEntry source logIndex args).t)
  | removed {command : Command} {response : Response} {key : RefKey}
      (hcommand : command.takesHeadsBack = true) (hchildren : s.childrenOf key = none)
      (hrefs : s'.refs = removedRefs s.refs key) :
      HeadEffect logIndex s s' command response
  | erased {ledgerId branch : String} {snapshot : ResetHeadSnapshot} {millis : ℕ}
      {response : Response} (hknown : s.Registered ⟨ledgerId, branch⟩)
      (hlive : (⟨ledgerId, branch⟩ : RefKey) ∉ s.retracted)
      (hsnapshot : snapshot.commitHeadId = none)
      (hrefs : s'.refs = s.refs.erase ⟨ledgerId, branch⟩) :
      HeadEffect logIndex s s' (.resetHead ledgerId branch snapshot millis) response
  | rewritten {ledgerId branch : String} {snapshot : ResetHeadSnapshot} {millis : ℕ}
      {released : List (String × ContentId)} {head : ContentId}
      (hknown : s.Registered ⟨ledgerId, branch⟩)
      (hlive : (⟨ledgerId, branch⟩ : RefKey) ∉ s.retracted)
      (hsnapshot : snapshot.commitHeadId = some head)
      (hrefs : s'.refs = s.refs.insert ⟨ledgerId, branch⟩
        (replacedEntry (s.refs.lookup ⟨ledgerId, branch⟩) head snapshot.commitT 0 0
          (snapshot.indexHeadId.map fun head => ⟨head, snapshot.indexT⟩))) :
      HeadEffect logIndex s s' (.resetHead ledgerId branch snapshot millis)
        (.headReset (formatLedgerId ledgerId branch) released)

/-! ### The effect of a transition -/

theorem advancedEntry_eq (prior : Option RefEntry) (logIndex : ℕ) (args : StagedHead) :
    advancedEntry prior logIndex args =
      replacedEntry prior args.commitId args.commitT args.appliedAtMillis logIndex
        (prior.bind RefEntry.index) := by
  cases prior with
  | none => rfl
  | some => rfl

variable {s s' : NameServiceState} {response : Response} {command : Command} {logIndex : ℕ}

theorem Transition.headEffect {order : CacheOrder} (hs : WellFormed s)
    (h : Transition order logIndex s command s' response) :
    HeadEffect logIndex s s' command response := by
  cases h with
  | refused | markerConsumed | statusPushed | configPushed | peripheral | ledgerCreated
  | branchRetracted | enqueued | poisoned | evicted => exact .kept rfl
  | @branchForked args ledger source hledger hnew hsource =>
    refine .forked (hs.unborn_of_not_registered ?_) hsource rfl
    rintro ⟨found, hfound, hmem⟩
    simp only [hledger, some.injEq] at hfound
    subst hfound
    exact hnew hmem
  | branchDropped hknown hchildren | branchPurged hknown hchildren =>
    exact .removed rfl hchildren rfl
  | headErased hknown hlive hsnapshot => exact .erased hknown hlive hsnapshot rfl
  | headRewritten hknown hlive hsnapshot => exact .rewritten hknown hlive hsnapshot rfl
  | @indexPublished _ args entry hcommand hlive hentry hstale hahead =>
    have hindex : ∀ new, some (⟨args.newIndexHead, args.t⟩ : IndexState) = some new →
        new.t ≤ entry.t ∧ ∀ existing, entry.index = some existing → existing.t ≤ new.t := by
      rintro new hnew
      cases hnew
      exact ⟨hahead, hstale⟩
    rcases hcommand with rfl | rfl
    · exact .published (.advanced args) hentry hindex rfl
    · exact .published (.rewritten args) hentry hindex rfl
  | @indexSwapped args entry hkind hlive hentry hstale hahead =>
    refine .published (.swapped args hkind) hentry ?_ rfl
    intro new hnew
    obtain ⟨head, -, rfl⟩ := map_eq_some_iff.mp hnew
    exact ⟨hahead, hstale⟩
  | commitSwapped hkind hknown hlive hhead hmono =>
    exact .advanced (.swapped _ _ hkind hhead) hmono rfl
  | @headApplied args entry rest hlive hqueue hid hmono =>
    rw [advancedEntry_eq]
    exact .advanced (.applied args _) hmono rfl

theorem applyEntry_headEffect {s : NameServiceState} (hs : WellFormed s) (entry : LogEntry) :
    HeadEffect entry.index s (applyEntry s entry).1 entry.command (applyEntry s entry).2 :=
  (applyEntry_transition hs entry).headEffect hs

theorem lookup_forkedRefs (s : NameServiceState) (source : RefEntry) (logIndex : ℕ)
    (args : NewBranch) (a : RefKey) :
    (forkedRefs s source logIndex args).lookup a =
      if a = ⟨args.ledgerId, args.branch⟩ then some (forkedEntry source logIndex args)
      else if a = ⟨args.ledgerId, args.sourceBranch⟩ then
        some { source with branches := saturatingSucc32 source.branches }
      else s.refs.lookup a := by
  rw [forkedRefs, lookup_insert_eq, lookup_insert_eq]

/-- What survives of an entry when its branch is not the one removed: all but,
for the source of the removed branch, one child. -/
theorem lookup_removedRefs (refs : HashMap RefKey RefEntry) (key a : RefKey) :
    (removedRefs refs key).lookup a =
      if a = key then none
      else if (refs.lookup key).bind RefEntry.sourceBranch = some a.branch ∧
          a.ledgerName = key.ledgerName then
        (refs.lookup a).map RefEntry.decrement
      else refs.lookup a := by
  unfold removedRefs
  cases hsource : (refs.lookup key).bind RefEntry.sourceBranch with
  | none => simp
  | some parent =>
    have hkey : a = ⟨key.ledgerName, parent⟩ ↔
        some parent = some a.branch ∧ a.ledgerName = key.ledgerName := by
      cases a
      simp [and_comm, eq_comm]
    simp only [lookup_modify, lookup_erase_eq]
    by_cases ha : a = key
    · subst ha
      by_cases hself : a = ⟨a.ledgerName, parent⟩
      · simp [← hself]
      · simp [hself]
    · by_cases hparent : a = ⟨key.ledgerName, parent⟩
      · rw [if_pos hparent, if_pos (hkey.mp hparent), ← hparent, if_neg ha,
          if_neg ha]
      · rw [if_neg hparent, if_neg (fun h => hparent (hkey.mpr h))]

/-! ### Heads move forward -/

/-- Later in time: the commit time does not fall, and a new head needs a larger
one. -/
structure RefEntry.Follows (new old : RefEntry) : Prop where
  t_le : old.t ≤ new.t
  head_changes : new.head ≠ old.head → old.t < new.t

theorem RefEntry.Follows.of_same {new old : RefEntry} (ht : new.t = old.t)
    (hhead : new.head = old.head) : new.Follows old :=
  ⟨ht.ge, fun h => absurd hhead h⟩

variable {key : RefKey}

theorem HeadEffect.follows (h : HeadEffect logIndex s s' command response)
    (hcommand : command.takesHeadsBack = false) {entry : RefEntry}
    (hentry : s.refs.lookup key = some entry) :
    ∃ entry', s'.refs.lookup key = some entry' ∧ entry'.Follows entry := by
  cases h with
  | kept hrefs => exact ⟨entry, by rw [hrefs, hentry], .of_same rfl rfl⟩
  | @advanced _ _ a head t millis hadvances hmono hrefs =>
    rw [hrefs, lookup_insert_eq]
    split
    · subst key
      have hlt := hmono entry hentry
      exact ⟨_, rfl, hlt.le, fun _ => hlt⟩
    · exact ⟨entry, hentry, .of_same rfl rfl⟩
  | @published _ _ a prior index millis hpublishes hprior hindex hrefs =>
    rw [hrefs, lookup_insert_eq]
    split
    · subst key
      rw [hentry, some.injEq] at hprior
      subst hprior
      exact ⟨_, rfl, .of_same rfl rfl⟩
    · exact ⟨entry, hentry, .of_same rfl rfl⟩
  | forked hnew hsource hrefs =>
    -- the new branch had no head; its source changes in the counter only
    rw [hrefs, lookup_forkedRefs]
    split
    · subst key
      rw [hnew] at hentry
      cases hentry
    split
    · subst key
      rw [hentry, some.injEq] at hsource
      subst hsource
      exact ⟨_, rfl, .of_same rfl rfl⟩
    · exact ⟨entry, hentry, .of_same rfl rfl⟩
  | removed hback =>
    rw [hcommand] at hback
    cases hback
  | erased | rewritten => cases hcommand

/-- The commands that publish an index head: the two index publishers, and an
index compare-and-set to an actual head. -/
def Command.publishesIndex : Command → Bool
  | .advanceIndexHead _ | .rewriteIndexHead _ => true
  | .compareAndSetRef args => args.kind = .indexHead ∧ args.new.id ≠ none
  | _ => false

theorem HeadEffect.index_le (h : HeadEffect logIndex s s' command response)
    (hcommand : command.publishesIndex = true) {entry : RefEntry}
    (hentry : s.refs.lookup key = some entry) {index : IndexState}
    (hindex : entry.index = some index) :
    ∃ entry' index', s'.refs.lookup key = some entry' ∧ entry'.index = some index' ∧
      index.t ≤ index'.t := by
  cases h with
  | kept hrefs => exact ⟨entry, index, by rw [hrefs, hentry], hindex, le_rfl⟩
  | @advanced _ _ a head t millis hadvances hmono hrefs =>
    cases hadvances with
    | applied => cases hcommand
    | swapped args head hkind => simp [Command.publishesIndex, hkind] at hcommand
  | @published _ _ a prior new millis hpublishes hprior hnew hrefs =>
    rw [hrefs, lookup_insert_eq]
    split
    · subst key
      rw [hentry, some.injEq] at hprior
      subst hprior
      obtain ⟨index', rfl⟩ : ∃ index', new = some index' := by
        cases hpublishes with
        | advanced => exact ⟨_, rfl⟩
        | rewritten => exact ⟨_, rfl⟩
        | swapped args hkind =>
          obtain ⟨head, hhead⟩ : ∃ head, args.new.id = some head := by
            apply ne_none_iff_exists'.mp
            simpa [Command.publishesIndex, hkind] using hcommand
          exact ⟨⟨head, args.new.t⟩, by rw [hhead, map_some]⟩
      exact ⟨_, index', rfl, rfl, (hnew index' rfl).2 index hindex⟩
    · exact ⟨entry, index, hentry, hindex, le_rfl⟩
  | forked | erased | rewritten => cases hcommand
  | removed hback =>
    cases command <;> simp [Command.publishesIndex, Command.takesHeadsBack] at hcommand hback

def IndexBehind (s : NameServiceState) : Prop :=
  ∀ key entry index, s.refs.lookup key = some entry → entry.index = some index →
    index.t ≤ entry.t

/-- A reset, if the command is one, does not install an index ahead of its
commit. -/
def Command.SnapshotOrdered (command : Command) : Prop :=
  ∀ ledgerId branch snapshot millis, command = .resetHead ledgerId branch snapshot millis →
    snapshot.indexT ≤ snapshot.commitT

theorem IndexBehind.insert (hs : IndexBehind s) {entry : RefEntry}
    (hrefs : s'.refs = s.refs.insert key entry)
    (hentry : ∀ index, entry.index = some index → index.t ≤ entry.t) : IndexBehind s' := by
  intro a found index hfound hindex
  rw [hrefs, lookup_insert_eq] at hfound
  split at hfound
  · cases hfound
    exact hentry index hindex
  · exact hs a found index hfound hindex

theorem HeadEffect.indexBehind (h : HeadEffect logIndex s s' command response) (hs : IndexBehind s)
    (hcommand : command.SnapshotOrdered) : IndexBehind s' := by
  cases h with
  | kept hrefs =>
    intro key entry index hentry
    exact hs key entry index (hrefs ▸ hentry)
  | @advanced _ _ key head t millis hadvances hmono hrefs =>
    apply hs.insert hrefs
    intro index hindex
    obtain ⟨prior, hprior, hindex⟩ := bind_eq_some_iff.mp hindex
    exact (hs key prior index hprior hindex).trans (hmono prior hprior).le
  | published hpublishes hentry hindex hrefs =>
    apply hs.insert hrefs
    intro index h
    exact (hindex index h).1
  | @forked args source hnew hsource hrefs =>
    intro a found index hfound hindex
    rw [hrefs, lookup_forkedRefs] at hfound
    split at hfound
    · cases hfound
      cases hindex
    split at hfound
    · cases hfound
      exact hs _ source index hsource hindex
    · exact hs a found index hfound hindex
  | removed hback hchildren hrefs =>
    intro a found index hfound hindex
    rw [hrefs, lookup_removedRefs] at hfound
    split at hfound
    · cases hfound
    split at hfound
    · obtain ⟨old, hold, rfl⟩ := map_eq_some_iff.mp hfound
      exact hs a old index hold hindex
    · exact hs a found index hfound hindex
  | erased hknown hlive hsnapshot hrefs =>
    intro a found index hfound hindex
    rw [hrefs, lookup_erase_eq] at hfound
    split at hfound
    · cases hfound
    · exact hs a found index hfound hindex
  | rewritten hknown hlive hsnapshot hrefs =>
    apply hs.insert hrefs
    intro index hindex
    obtain ⟨head, -, rfl⟩ := map_eq_some_iff.mp hindex
    exact hcommand _ _ _ _ rfl

theorem replay_indexBehind {log : List LogEntry}
    (hlog : ∀ e ∈ log, e.command.SnapshotOrdered) : IndexBehind (replay log) := by
  induction log using List.reverseRecOn with
  | nil =>
    intro key entry index h
    simp [replay, NameServiceState.new] at h
  | append_singleton log entry ih =>
    rw [List.forall_mem_append, List.forall_mem_singleton] at hlog
    rw [replay_concat]
    exact (applyEntry_headEffect (replay_wellFormed log) entry).indexBehind (ih hlog.1) hlog.2

/-- **Heads and indexes are monotone.** After any log, a command other than a
reset, drop or purge lets every head stay or advance; publishing an index never
takes one back; and if no reset of the log installed an index ahead of its
commit, no index is ahead of its commit. -/
theorem heads_move_forward (log : List LogEntry) :
    (∀ e : LogEntry, e.command.takesHeadsBack = false →
      ∀ key entry, (replay log).refs.lookup key = some entry →
        ∃ entry', (applyEntry (replay log) e).1.refs.lookup key = some entry' ∧
          entry'.Follows entry) ∧
    (∀ e : LogEntry, e.command.publishesIndex = true →
      ∀ key entry index, (replay log).refs.lookup key = some entry →
        entry.index = some index →
        ∃ entry' index', (applyEntry (replay log) e).1.refs.lookup key = some entry' ∧
          entry'.index = some index' ∧ index.t ≤ index'.t) ∧
    ((∀ e ∈ log, e.command.SnapshotOrdered) → IndexBehind (replay log)) := by
  refine ⟨?_, ?_, replay_indexBehind⟩
  · intro e hcommand key entry hentry
    exact (applyEntry_headEffect (replay_wellFormed log) e).follows hcommand hentry
  · intro e hcommand key entry index hentry hindex
    exact (applyEntry_headEffect (replay_wellFormed log) e).index_le hcommand hentry hindex

namespace Sample

noncomputable def born : List LogEntry :=
  created ++ [entry 2 (.enqueueCommand (submission 1)), entry 3 (.applyHead (head 0 1))]

noncomputable def indexed : List LogEntry :=
  born ++ [entry 4 (.advanceIndexHead ⟨"db", "main", cid 8, 1, 0⟩)]

def indexedEntry : RefEntry := ⟨cid 7, 1, 0, 3, some ⟨cid 8, 1⟩, none, 0⟩

end Sample

/-- Rewriting the index of an indexed branch keeps its head and its index time. -/
theorem heads_move_forward_indexed :
    (∃ entry', (applyEntry (replay indexed)
          (entry 5 (.rewriteIndexHead ⟨"db", "main", cid 9, 1, 0⟩))).1.refs.lookup
            ⟨"db", "main"⟩ = some entry' ∧ entry'.Follows indexedEntry) ∧
      (∃ entry' index', (applyEntry (replay indexed)
          (entry 5 (.rewriteIndexHead ⟨"db", "main", cid 9, 1, 0⟩))).1.refs.lookup
            ⟨"db", "main"⟩ = some entry' ∧ entry'.index = some index' ∧ 1 ≤ index'.t) ∧
      IndexBehind (replay indexed) := by
  obtain ⟨hheads, hindexes, hbehind⟩ := heads_move_forward indexed
  refine ⟨hheads _ rfl ⟨"db", "main"⟩ indexedEntry rfl,
    hindexes _ rfl ⟨"db", "main"⟩ indexedEntry ⟨cid 8, 1⟩ rfl rfl, hbehind ?_⟩
  simp [indexed, born, created, entry, Command.SnapshotOrdered]

end FlureeDb.Consensus
