import FlureeDb.Consensus.Heads

/-!
The child counter of a branch against the branches that name it as their
source. Forking and removing keep the two in step, and the counter is what
guards a removal.

A reset to an unborn head is the exception: it deletes the whole entry, and
with it the counter of the branch's own children and the claim the branch had
on its source. Along a log in which resets do not do that to a branch with
lineage, the counters are exact.
-/

namespace FlureeDb.Consensus

open FlureeDb.Core Lib List HashMap Option Nat NameServiceState Sample

/-- The entry at `a` names the branch `key` as its source. -/
def IsChild (key a : RefKey) (entry : RefEntry) : Prop :=
  a.ledgerName = key.ledgerName ∧ entry.sourceBranch = some key.branch

instance (key a : RefKey) (entry : RefEntry) : Decidable (IsChild key a entry) := by
  unfold IsChild
  infer_instance

def childCount (refs : HashMap RefKey RefEntry) (key : RefKey) : ℕ :=
  HashMap.sumBy (fun a entry => if IsChild key a entry then 1 else 0) refs

theorem childCount_insert (refs : HashMap RefKey RefEntry) (key a : RefKey) (entry : RefEntry) :
    childCount (refs.insert a entry) key =
      (if IsChild key a entry then 1 else 0) + childCount (refs.erase a) key :=
  sumBy_insert _ _ _ _

variable {refs : HashMap RefKey RefEntry} {a : RefKey}

theorem childCount_of_lookup {entry : RefEntry} (h : refs.lookup a = some entry) (key : RefKey) :
    childCount refs key =
      (if IsChild key a entry then 1 else 0) + childCount (refs.erase a) key :=
  sumBy_of_lookup _ h

variable {key : RefKey}

theorem childCount_eq_zero_iff :
    childCount refs key = 0 ↔ ∀ a entry, refs.lookup a = some entry → ¬ IsChild key a entry := by
  rw [childCount, sumBy_eq_zero_iff]
  simp only [ite_eq_right_iff, one_ne_zero]

/-- Only the source of an entry counts: replacing an entry by one with the same
source changes no count. -/
theorem childCount_replace {old : RefEntry} (h : refs.lookup a = some old) (new : RefEntry)
    (hsource : new.sourceBranch = old.sourceBranch) (key : RefKey) :
    childCount (refs.insert a new) key = childCount refs key := by
  have hchild : IsChild key a new ↔ IsChild key a old := by
    unfold IsChild
    rw [hsource]
  rw [childCount_insert, childCount_of_lookup h]
  simp only [hchild]

theorem childCount_add (h : refs.lookup a = none) (entry : RefEntry) (key : RefKey) :
    childCount (refs.insert a entry) key =
      (if IsChild key a entry then 1 else 0) + childCount refs key :=
  sumBy_insert_of_none _ h entry

variable {s : NameServiceState}

theorem WellFormed.childCount_le (hs : WellFormed s) {ledger : LedgerRecord}
    (hledger : s.ledgers.lookup key.ledgerName = some ledger) :
    childCount s.refs key ≤ ledger.branches.length := by
  apply sumBy_le_length _ _ RefKey.branch
  · intro a entry hentry hchild
    obtain ⟨found, hfound, hmem⟩ := hs.refs_registered a entry hentry
    rw [hchild.1, hledger, some.injEq] at hfound
    subst hfound
    exact hmem
  · intro a entry a' entry' hchild hchild'
    have hname := hchild.1.trans hchild'.1.symm
    cases a
    simp_all

/-! ### Exact lineage -/

/-- Every counter counts the children of its branch, and every source is born. -/
structure Lineage (s : NameServiceState) : Prop where
  exact_count : ∀ key entry, s.refs.lookup key = some entry →
    entry.branches = childCount s.refs key
  source_born : ∀ key entry parent, s.refs.lookup key = some entry →
    entry.sourceBranch = some parent →
    ∃ source, s.refs.lookup ⟨key.ledgerName, parent⟩ = some source

theorem lineage_new : Lineage new where
  exact_count := by simp [new]
  source_born := by simp [new]

theorem Lineage.childCount_of_unborn (hs : Lineage s) (h : s.refs.lookup key = none) :
    childCount s.refs key = 0 := by
  rw [childCount_eq_zero_iff]
  rintro a entry hentry ⟨hname, hsource⟩
  obtain ⟨source, hborn⟩ := hs.source_born a entry key.branch hentry hsource
  rw [hname, h] at hborn
  cases hborn

theorem Lineage.childCount_of_childrenOf (hs : Lineage s) (h : s.childrenOf key = none) :
    childCount s.refs key = 0 := by
  cases hentry : s.refs.lookup key with
  | none => exact hs.childCount_of_unborn hentry
  | some entry =>
    rw [← hs.exact_count key entry hentry]
    simpa [childrenOf, hentry] using h

variable {s' : NameServiceState}

theorem Lineage.of_write (hs : Lineage s) {new : RefEntry} (hrefs : s'.refs = s.refs.insert key new)
    (hsource : new.sourceBranch = (s.refs.lookup key).bind RefEntry.sourceBranch)
    (hbranches : new.branches = ((s.refs.lookup key).map RefEntry.branches).getD 0) :
    Lineage s' := by
  have hcount (a : RefKey) : childCount s'.refs a = childCount s.refs a := by
    rw [hrefs]
    cases hprior : s.refs.lookup key with
    | none =>
      rw [hprior] at hsource
      rw [childCount_add hprior, if_neg, zero_add]
      rintro ⟨-, hchild⟩
      rw [hsource] at hchild
      cases hchild
    | some =>
      rw [hprior] at hsource
      exact childCount_replace hprior new hsource a
  constructor
  · intro a entry hentry
    rw [hcount]
    rw [hrefs, lookup_insert_eq] at hentry
    split at hentry
    · cases hentry
      subst a
      rw [hbranches]
      cases hprior : s.refs.lookup key with
      | none => exact (hs.childCount_of_unborn hprior).symm
      | some prior => exact hs.exact_count key prior hprior
    · exact hs.exact_count a entry hentry
  · intro a entry parent hentry hparent
    have hborn : ∃ source, s.refs.lookup ⟨a.ledgerName, parent⟩ = some source := by
      rw [hrefs, lookup_insert_eq] at hentry
      split at hentry
      · cases hentry
        subst a
        rw [hsource] at hparent
        obtain ⟨prior, hprior, hparent⟩ := bind_eq_some_iff.mp hparent
        exact hs.source_born key prior parent hprior hparent
      · exact hs.source_born a entry parent hentry hparent
    rw [hrefs, lookup_insert_eq]
    split
    · exact ⟨new, rfl⟩
    · exact hborn

/-! ### Forks -/

def FewBranches (s : NameServiceState) : Prop :=
  ∀ ledgerId ledger, s.ledgers.lookup ledgerId = some ledger → ledger.branches.length < 2 ^ 32

variable {logIndex : ℕ}

section

variable {source : RefEntry} {args : NewBranch}
  (hnew : s.refs.lookup ⟨args.ledgerId, args.branch⟩ = none)
  (hsource : s.refs.lookup ⟨args.ledgerId, args.sourceBranch⟩ = some source)

include hnew hsource

theorem forked_ne_source :
    (⟨args.ledgerId, args.branch⟩ : RefKey) ≠ ⟨args.ledgerId, args.sourceBranch⟩ := by
  intro h
  rw [h, hsource] at hnew
  cases hnew

theorem childCount_forkedRefs (logIndex : ℕ) (a : RefKey) :
    childCount (forkedRefs s source logIndex args) a =
      (if a = ⟨args.ledgerId, args.sourceBranch⟩ then 1 else 0) + childCount s.refs a := by
  have hchild : IsChild a ⟨args.ledgerId, args.branch⟩ (forkedEntry source logIndex args) ↔
      a = ⟨args.ledgerId, args.sourceBranch⟩ := by
    cases a
    simp [IsChild, forkedEntry, eq_comm]
  have hkept := childCount_replace hsource
    { source with branches := saturatingSucc32 source.branches } rfl a
  rw [forkedRefs, childCount_add, hkept]
  · simp only [hchild]
  · rw [lookup_insert_eq, if_neg (forked_ne_source hnew hsource), hnew]

theorem Lineage.of_fork (hs : Lineage s) (hwf : WellFormed s') (hfew : FewBranches s')
    (hrefs : s'.refs = forkedRefs s source logIndex args) : Lineage s' := by
  have hcount := childCount_forkedRefs hnew hsource logIndex
  rw [← hrefs] at hcount
  have hlookup (a : RefKey) := lookup_forkedRefs s source logIndex args a
  rw [← hrefs] at hlookup
  constructor
  · intro a entry hentry
    rw [hcount]
    rw [hlookup] at hentry
    split at hentry
    · cases hentry
      subst a
      rw [if_neg (forked_ne_source hnew hsource), hs.childCount_of_unborn hnew]
      rfl
    split at hentry
    · subst a
      have hborn : s'.refs.lookup ⟨args.ledgerId, args.sourceBranch⟩ = some entry := by
        rw [hlookup, if_neg ‹_›, if_pos rfl]
        exact hentry
      cases hentry
      have hold := hs.exact_count _ source hsource
      have htotal := hcount ⟨args.ledgerId, args.sourceBranch⟩
      rw [if_pos rfl] at htotal
      -- The counter cannot saturate: the source has fewer children than its ledger branches.
      obtain ⟨ledger, hledger, -⟩ := hwf.refs_registered _ _ hborn
      have hbound := hwf.childCount_le hledger
      have hlt := hfew _ ledger hledger
      simp only [if_pos, saturatingSucc32]
      omega
    · rw [if_neg ‹_›, zero_add]
      exact hs.exact_count a entry hentry
  · intro a entry parent hentry hparent
    have hborn : ∃ found, s.refs.lookup ⟨a.ledgerName, parent⟩ = some found := by
      rw [hlookup] at hentry
      split at hentry
      · cases hentry
        cases hparent
        subst a
        exact ⟨source, hsource⟩
      split at hentry
      · cases hentry
        subst a
        exact hs.source_born _ source parent hsource hparent
      · exact hs.source_born a entry parent hentry hparent
    rw [hlookup]
    split
    · exact ⟨_, rfl⟩
    split
    · exact ⟨_, rfl⟩
    · exact hborn

end

/-! ### Removals -/

theorem childCount_removedRefs (refs : HashMap RefKey RefEntry) (key a : RefKey) :
    childCount (removedRefs refs key) a = childCount (refs.erase key) a := by
  unfold removedRefs
  cases (refs.lookup key).bind RefEntry.sourceBranch with
  | none => rfl
  | some parent =>
    cases hparent : (refs.erase key).lookup ⟨key.ledgerName, parent⟩ with
    | none => simp only [modify_of_none hparent]
    | some entry =>
      simp only [modify_of_some hparent]
      exact childCount_replace hparent entry.decrement rfl a

theorem Lineage.of_removed (hs : Lineage s) (hchildren : s.childrenOf key = none)
    (hrefs : s'.refs = removedRefs s.refs key) : Lineage s' := by
  have hnone := childCount_eq_zero_iff.mp (hs.childCount_of_childrenOf hchildren)
  have hlookup (a : RefKey) := lookup_removedRefs s.refs key a
  rw [← hrefs] at hlookup
  have hcount (a : RefKey) := childCount_removedRefs s.refs key a
  rw [← hrefs] at hcount
  constructor
  · intro a entry hentry
    rw [hcount]
    rw [hlookup] at hentry
    split at hentry
    · cases hentry
    cases hprior : s.refs.lookup key with
    | none =>
      simp only [hprior] at hentry
      rw [erase_of_lookup_none hprior]
      exact hs.exact_count a entry hentry
    | some prior =>
      have hsum := childCount_of_lookup hprior a
      have hchild : IsChild a key prior ↔
          (s.refs.lookup key).bind RefEntry.sourceBranch = some a.branch ∧
            a.ledgerName = key.ledgerName := by
        rw [hprior]
        constructor
        · rintro ⟨hname, hsource⟩
          exact ⟨hsource, hname.symm⟩
        · rintro ⟨hsource, hname⟩
          exact ⟨hname.symm, hsource⟩
      simp only [← hchild] at hentry
      split at hentry
      · obtain ⟨old, hold, rfl⟩ := map_eq_some_iff.mp hentry
        have := hs.exact_count a old hold
        rw [if_pos ‹_›] at hsum
        simp only [RefEntry.decrement]
        omega
      · have := hs.exact_count a entry hentry
        rw [if_neg ‹_›] at hsum
        omega
  · intro a entry parent hentry hparent
    obtain ⟨old, hold, hsource⟩ : ∃ old, s.refs.lookup a = some old ∧
        old.sourceBranch = some parent := by
      rw [hlookup] at hentry
      split at hentry
      · cases hentry
      split at hentry
      · obtain ⟨old, hold, rfl⟩ := map_eq_some_iff.mp hentry
        exact ⟨old, hold, hparent⟩
      · exact ⟨entry, hentry, hparent⟩
    obtain ⟨source, hborn⟩ := hs.source_born a old parent hold hsource
    have hne : (⟨a.ledgerName, parent⟩ : RefKey) ≠ key := by
      rintro rfl
      exact hnone a old hold ⟨rfl, hsource⟩
    rw [hlookup, if_neg hne, hborn]
    split
    · exact ⟨source.decrement, rfl⟩
    · exact ⟨source, rfl⟩

/-! ### Along a log -/

/-- The command does not erase a head that has a source or children. -/
def Command.KeepsLineage (s : NameServiceState) (command : Command) : Prop :=
  ∀ ledgerId branch snapshot millis, command = .resetHead ledgerId branch snapshot millis →
    snapshot.commitHeadId = none → (⟨ledgerId, branch⟩ : RefKey) ∉ s.retracted →
    ∀ entry, s.refs.lookup ⟨ledgerId, branch⟩ = some entry →
      entry.sourceBranch = none ∧ entry.branches = 0

variable {command : Command} {response : Response}

theorem HeadEffect.lineage (h : HeadEffect logIndex s s' command response) (hs : Lineage s)
    (hwf : WellFormed s') (hfew : FewBranches s') (hkeeps : command.KeepsLineage s) :
    Lineage s' := by
  cases h with
  | kept hrefs =>
    exact ⟨hrefs ▸ hs.exact_count, hrefs ▸ hs.source_born⟩
  | advanced hadvances hmono hrefs | rewritten hknown hlive hsnapshot hrefs =>
    exact hs.of_write hrefs rfl rfl
  | published hpublishes hentry hindex hrefs =>
    apply hs.of_write hrefs
    · rw [hentry]
      rfl
    · rw [hentry]
      rfl
  | forked hnew hsource hrefs => exact hs.of_fork hnew hsource hwf hfew hrefs
  | removed hback hchildren hrefs => exact hs.of_removed hchildren hrefs
  | @erased ledgerId branch snapshot millis _ hknown hlive hsnapshot hrefs =>
    -- Without lineage, erasing the head is a removal that has no source to tell.
    have hbare := hkeeps ledgerId branch snapshot millis rfl hsnapshot hlive
    have hsource : (s.refs.lookup ⟨ledgerId, branch⟩).bind RefEntry.sourceBranch = none := by
      cases hentry : s.refs.lookup ⟨ledgerId, branch⟩ with
      | none => rfl
      | some entry => exact (hbare entry hentry).1
    have hchildren : s.childrenOf ⟨ledgerId, branch⟩ = none := by
      unfold childrenOf
      cases hentry : s.refs.lookup ⟨ledgerId, branch⟩ with
      | none => rfl
      | some entry => simp [(hbare entry hentry).2]
    apply hs.of_removed hchildren
    rw [hrefs, removedRefs, hsource]

/-- Counters are exact and sources are registered. -/
structure LineageExact (s : NameServiceState) : Prop where
  counts : ∀ key entry, s.refs.lookup key = some entry →
    entry.branches = childCount s.refs key
  sources : ∀ key entry parent, s.refs.lookup key = some entry →
    entry.sourceBranch = some parent → s.Registered ⟨key.ledgerName, parent⟩

/-- The lineage is exact along a whole log: in every state it passes, and at
every removal of a born branch, which then has no children. -/
structure LineageAlong (log : List LogEntry) : Prop where
  states : ∀ pre post, log = pre ++ post → LineageExact (replay pre)
  removals : ∀ step ∈ replaySteps log, ∀ key entry,
    removedBranch step.input.command step.response = some key →
    step.before.refs.lookup key = some entry →
    ∀ a child, step.before.refs.lookup a = some child → ¬ IsChild key a child

variable {log : List LogEntry}

theorem replay_lineage (hfew : ∀ pre post, log = pre ++ post → FewBranches (replay pre))
    (hkeeps : ∀ step ∈ replaySteps log, step.input.command.KeepsLineage step.before) :
    Lineage (replay log) := by
  induction log using reverseRecOn with
  | nil => exact lineage_new
  | append_singleton log entry ih =>
    rw [replaySteps_concat, forall_mem_append, forall_mem_singleton] at hkeeps
    have hs := ih (fun pre post h => hfew pre (post ++ [entry]) (by rw [h, append_assoc])) hkeeps.1
    have hafter := hfew (log ++ [entry]) [] (append_nil _).symm
    have hwf := replay_wellFormed log
    rw [replay_concat] at hafter ⊢
    exact (applyEntry_headEffect hwf entry).lineage hs (applyEntry_wellFormed hwf entry) hafter
      hkeeps.2

/-- **Lineage counters are exact while resets spare lineage.** Along a log of
ledgers with fewer than `2 ^ 32` branches in which no reset to an unborn head
hits a live branch with a source or with children, every counter counts the
children of its branch, every source is registered, and a born branch is
dropped or purged only without children. -/
theorem lineage_exact_along (log : List LogEntry)
    (hfew : ∀ pre post, log = pre ++ post → FewBranches (replay pre))
    (hkeeps : ∀ step ∈ replaySteps log, step.input.command.KeepsLineage step.before) :
    LineageAlong log := by
  have hpre (pre post : List LogEntry) (hlog : log = pre ++ post) :
      Lineage (replay pre) := by
    apply replay_lineage
    · intro pre' post' hpre
      exact hfew pre' (post' ++ post) (by rw [hlog, hpre, append_assoc])
    · intro step hstep
      apply hkeeps
      rw [hlog, replaySteps, Run.trace_append]
      exact mem_append_left _ hstep
  constructor
  · intro pre post hlog
    have hs := hpre pre post hlog
    refine ⟨hs.exact_count, ?_⟩
    intro key entry parent hentry hparent
    obtain ⟨source, hborn⟩ := hs.source_born key entry parent hentry hparent
    exact (replay_wellFormed pre).refs_registered _ source hborn
  · intro step hstep key entry hremoved hentry
    obtain ⟨pre, e, post, hlog, rfl⟩ := (Run.mem_trace_iff applyEntry).mp hstep
    have hs := hpre pre (e :: post) hlog
    have hguard := ((applyEntry_transition (replay_wellFormed pre) e).of_removedBranch hremoved).1
    exact childCount_eq_zero_iff.mp (hs.childCount_of_childrenOf hguard)

/-! ### Few branches, and a log with lineage -/

/-- No ledger lists more branches than so many. -/
def BranchesLe (n : ℕ) (ledgers : HashMap String LedgerRecord) : Prop :=
  ∀ ledgerId ledger, ledgers.lookup ledgerId = some ledger → ledger.branches.length ≤ n

section

variable {n : ℕ} {ledgers : HashMap String LedgerRecord} (h : BranchesLe n ledgers)

include h

theorem BranchesLe.succ : BranchesLe (n + 1) ledgers :=
  fun ledgerId ledger hledger => le_succ_of_le (h ledgerId ledger hledger)

theorem BranchesLe.push {record : LedgerRecord} (hrecord : record.branches.length ≤ n)
    (name branch : String) :
    BranchesLe (n + 1) (ledgers.insert name (record.pushBranch branch)) := by
  intro ledgerId ledger hledger
  rw [lookup_insert_eq] at hledger
  split at hledger
  · cases hledger
    simpa [LedgerRecord.pushBranch] using hrecord
  · exact h.succ ledgerId ledger hledger

theorem BranchesLe.remove (name branch : String) :
    BranchesLe n (removeBranch ledgers name branch) := by
  intro ledgerId ledger hledger
  rw [lookup_removeBranch] at hledger
  split at hledger
  · rw [filter_eq_some_iff, map_eq_some_iff] at hledger
    obtain ⟨⟨old, hold, rfl⟩, -⟩ := hledger
    exact (length_filter_le _ _).trans (h _ old hold)
  · exact h ledgerId ledger hledger

end

theorem Transition.branchesLe {order : CacheOrder} {n : ℕ}
    (h : Transition order logIndex s command s' response) (hs : BranchesLe n s.ledgers) :
    BranchesLe (n + 1) s'.ledgers := by
  cases h with
  | @ledgerCreated args =>
    refine hs.push ?_ _ _
    unfold ledgerFor
    cases hledger : s.ledgers.lookup args.ledgerId with
    | none => exact zero_le n
    | some ledger => exact hs _ ledger hledger
  | branchForked hledger => exact hs.push (hs _ _ hledger) _ _
  | branchDropped | branchPurged => exact (hs.remove _ _).succ
  | _ => exact hs.succ

theorem replay_branchesLe (log : List LogEntry) : BranchesLe log.length (replay log).ledgers := by
  induction log using reverseRecOn with
  | nil => simp [BranchesLe, replay, new]
  | append_singleton log entry ih =>
    rw [replay_concat, length_append]
    exact (applyEntry_transition (replay_wellFormed log) entry).branchesLe ih

namespace Sample

noncomputable def forked : List LogEntry :=
  born ++ [entry 4 (.createBranch ⟨"db", "dev", "main", none, 0⟩)]

def unborn : ResetHeadSnapshot := ⟨none, 0, none, 0⟩

noncomputable def childErased : List LogEntry :=
  forked ++ [entry 5 (.resetHead "db" "dev" unborn 0)]

/-- The source of the fork is reset to an unborn head and then dropped. -/
noncomputable def sourceErased : List LogEntry :=
  forked ++ [entry 5 (.resetHead "db" "main" unborn 0), entry 6 (.dropBranch "db" "main" 0)]

end Sample

theorem lineage_exact_along_forked :
    childCount (replay forked).refs ⟨"db", "main"⟩ = 1 ∧ LineageAlong forked := by
  refine ⟨rfl, lineage_exact_along forked ?_ ?_⟩
  · intro pre post hlog ledgerId ledger hledger
    have hle : pre.length ≤ forked.length := IsPrefix.length_le ⟨post, hlog.symm⟩
    exact ((replay_branchesLe pre ledgerId ledger hledger).trans hle).trans_lt (by decide)
  · simp [replaySteps, forked, born, created, entry, Run.stepOf,
      Command.KeepsLineage]

/-- A reset to an unborn head forgets lineage: the source keeps a child that is
gone, and a source that was erased can be dropped under its child. -/
theorem lineage_lost_by_unborn_reset :
    (∃ entry, (replay childErased).refs.lookup ⟨"db", "main"⟩ = some entry ∧
      entry.branches = 1 ∧ childCount (replay childErased).refs ⟨"db", "main"⟩ = 0) ∧
    ∃ entry, (replay sourceErased).refs.lookup ⟨"db", "dev"⟩ = some entry ∧
      entry.sourceBranch = some "main" ∧
      (replay sourceErased).knows "db" "main" = false :=
  ⟨⟨_, rfl, rfl, rfl⟩, ⟨_, rfl, rfl, rfl⟩⟩

end FlureeDb.Consensus
