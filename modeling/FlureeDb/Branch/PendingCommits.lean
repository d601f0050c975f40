import FlureeDb.Branch.Delta

/-!
Commits found by the list that the nameservice keeps beside a head. Publishing a commit adds a
line to it, which may fail or tear; a reset of the head leaves it alone; a pruning rewrites it
from what it has read, and so loses lines added meanwhile. The list is taken for the commits of a
range if its times have no gap and it ends with the head. It does not know the parents of a
commit, and the walk from the head may find others.
-/

namespace FlureeDb.Branch

open Lib List

variable {Id V : Type}

/-- How the line of a published commit comes out. -/
inductive Append
  | written
  | lost
  | torn

/-- The head of a branch and the lines of its list, with none for one that cannot be parsed; there
is no list before the first line. -/
structure CommitIndex (Id : Type) where
  head : Option (ℤ × Id) := none
  lines : Option (List (Option (ℤ × Id))) := none

inductive IndexEvent (Id : Type)
  | publishCommit (x : Id) (append : Append)
  | resetHead (head : Option (ℤ × Id))
  /-- The pruning has read the first `seen` lines. -/
  | prune (upToT : ℤ) (seen : ℕ)

namespace CommitIndex

variable (dag : CommitDag Id V) (s : CommitIndex Id)

def appendCommitIndexEntry (entry : ℤ × Id) : Append → Option (List (Option (ℤ × Id)))
  | .written => some (s.lines.getD [] ++ [some entry])
  | .lost => s.lines
  | .torn => some (s.lines.getD [] ++ [none])

/-- The head only moves to a later commit. -/
def publishCommit (x : Id) (append : Append) : CommitIndex Id :=
  if s.head.any fun cur => decide (dag.t x ≤ cur.1) then s
  else ⟨some (dag.t x, x), s.appendCommitIndexEntry (dag.t x, x) append⟩

def pruneCommitIndex (upToT : ℤ) (seen : ℕ) : CommitIndex Id :=
  { s with
    lines := s.lines.map fun lines => (lines.take seen).filter fun line =>
      line.any fun entry => decide (upToT < entry.1) }

def step : IndexEvent Id → CommitIndex Id
  | .publishCommit x append => s.publishCommit dag x append
  | .resetHead head => { s with head := head }
  | .prune upToT seen => s.pruneCommitIndex upToT seen

variable [DecidableEq Id]

/-- The listed commits later than `sinceT`, each once, in ascending time. A line that cannot be
parsed makes the list unusable. -/
def pendingCommitCids (sinceT : ℤ) : Option (List (ℤ × Id)) :=
  match s.lines with
  | none => none
  | some lines =>
    if lines.contains none then none
    else some (((lines.filterMap id).filter fun e => decide (sinceT < e.1)).eraseDups.mergeSort
      fun a b => decide (a.1 ≤ b.1))

end CommitIndex

variable [DecidableEq Id]

def pendingCoversRange (pending : List (ℤ × Id)) (fromT : ℤ) (headId : Id) : Bool :=
  match pending.getLast? with
  | none => false
  | some (_, tip) =>
    decide (tip = headId) && pending.zipIdx.all fun e => e.1.1 == fromT + 1 + (e.2 : ℤ)

/-- The commits given to the indexer: the list if it covers the range, or else the walk. -/
def walkCommitChainSince (dag : CommitDag Id V) (pendingCommitCids : Option (List (ℤ × Id)))
    (headId : Id) (fromT : ℤ) : List (ℤ × Id) :=
  match pendingCommitCids with
  | some pending =>
    if pendingCoversRange pending fromT headId then pending
    else (collectDagCids dag headId fromT).reverse
  | none => (collectDagCids dag headId fromT).reverse

section

variable {dag : CommitDag Id V} {s : CommitIndex Id}

/-- Every line is of a commit, with its time. -/
def CommitIndex.Listed (dag : CommitDag Id V) (s : CommitIndex Id) : Prop :=
  ∀ lines ∈ s.lines, ∀ e : ℤ × Id, some e ∈ lines → e.1 = dag.t e.2

omit [DecidableEq Id] in
theorem CommitIndex.Listed.step (h : s.Listed dag) (event : IndexEvent Id) :
    (s.step dag event).Listed dag := by
  have hnew : ∀ (line : Option (ℤ × Id)), (∀ e ∈ line, e.1 = dag.t e.2) →
      ∀ e : ℤ × Id, some e ∈ s.lines.getD [] ++ [line] → e.1 = dag.t e.2 := by
    intro line hline e he
    obtain he | he := mem_append.mp he
    · cases hlines : s.lines with
      | none => simp [hlines] at he
      | some lines => exact h lines hlines e (by simpa [hlines] using he)
    · exact hline e (mem_singleton.mp he).symm
  cases event with
  | resetHead head => exact h
  | prune upToT seen =>
    intro lines hlines e he
    obtain ⟨old, hold, rfl⟩ := Option.mem_map.mp hlines
    exact h old hold e (mem_of_mem_take (mem_of_mem_filter he))
  | publishCommit x append =>
    unfold CommitIndex.step CommitIndex.publishCommit
    dsimp only
    split
    · exact h
    · cases append with
      | lost => exact h
      | written => rintro _ ⟨⟩; exact hnew _ (by rintro _ ⟨⟩; rfl)
      | torn => rintro _ ⟨⟩; exact hnew _ nofun

omit [DecidableEq Id] in
theorem CommitIndex.listed_foldl (events : List (IndexEvent Id)) :
    (events.foldl (step dag) ({} : CommitIndex Id)).Listed dag := by
  refine foldlRecOn (motive := Listed dag) events _ ?_ fun _ h event _ => h.step event
  rintro _ ⟨⟩

theorem CommitIndex.Listed.mem_pending (h : s.Listed dag) {pending : List (ℤ × Id)} {sinceT : ℤ}
    (hpending : s.pendingCommitCids sinceT = some pending) {e : ℤ × Id} (he : e ∈ pending) :
    e.1 = dag.t e.2 ∧ sinceT < e.1 := by
  unfold pendingCommitCids at hpending
  split at hpending
  · cases hpending
  · next lines hlines =>
    split at hpending
    · cases hpending
    · cases hpending
      simp only [mem_mergeSort, mem_eraseDups, mem_filter, mem_filterMap, id_eq,
        exists_eq_right, decide_eq_true_eq] at he
      exact ⟨h lines hlines e he.1, he.2⟩

end

/-- The times of an accepted list grow, and the head is in it. -/
theorem pendingCoversRange_spec {pending : List (ℤ × Id)} {fromT : ℤ} {headId : Id}
    (h : pendingCoversRange pending fromT headId = true) :
    headId ∈ pending.map Prod.snd ∧ pending.Pairwise fun a b => a.1 < b.1 := by
  unfold pendingCoversRange at h
  split at h
  · cases h
  · next t tip hlast =>
    simp only [Bool.and_eq_true, decide_eq_true_eq, all_eq_true, beq_iff_eq] at h
    refine ⟨h.1 ▸ mem_map_of_mem (mem_of_getLast? hlast), pairwise_iff_getElem.mpr ?_⟩
    intro i j hi hj
    have hti := h.2 (pending[i], i) (mk_mem_zipIdx_iff_getElem?.mpr (getElem?_eq_getElem hi))
    have htj := h.2 (pending[j], j) (mk_mem_zipIdx_iff_getElem?.mpr (getElem?_eq_getElem hj))
    simp only at hti htj
    omega

omit [DecidableEq Id] in
theorem mem_iff_of_listed {dag : CommitDag Id V} {l : List (ℤ × Id)}
    (h : ∀ e ∈ l, e.1 = dag.t e.2) (e : ℤ × Id) :
    e ∈ l ↔ e.1 = dag.t e.2 ∧ e.2 ∈ l.map Prod.snd := by
  refine ⟨fun he => ⟨h e he, mem_map_of_mem he⟩, fun ⟨ht, he⟩ => ?_⟩
  obtain ⟨e', he', heq⟩ := mem_map.mp he
  rwa [← show e' = e from Prod.ext (by rw [h e' he', ht, heq]) heq]

/-- A list of commits in growing time is what the walk finds if it has the same commits. -/
theorem eq_collectDagCids_iff {dag : CommitDag Id V} {fromT : ℤ} {headId : Id}
    {pending : List (ℤ × Id)} (hlisted : ∀ e ∈ pending, e.1 = dag.t e.2)
    (hgrows : pending.Pairwise fun a b => a.1 < b.1) :
    pending = (collectDagCids dag headId fromT).reverse ↔
      ∀ x, x ∈ pending.map Prod.snd ↔ x ∈ traceIds dag headId fromT := by
  constructor
  · intro h x
    rw [h, map_reverse, mem_reverse]
    rfl
  · intro h
    have hnodup : (pending.map Prod.fst).Nodup := pairwise_map.mpr (hgrows.imp ne_of_lt)
    have hwalk : (collectDagCids dag headId fromT).Nodup :=
      Nodup.of_map Prod.snd (traceIds_nodup headId fromT)
    have hmem : ∀ e, e ∈ pending ↔ e ∈ (collectDagCids dag headId fromT).reverse := by
      intro e
      rw [mem_reverse, mem_iff_of_listed hlisted, h]
      exact (mem_iff_of_listed (fun e => t_of_mem_walkDag) e).symm
    refine Perm.eq_of_pairwise (fun a b ha hb hab hba => ?_) (hgrows.imp le_of_lt)
      (pairwise_reverse.mpr (pairwise_newestFirst _))
      ((perm_ext_iff_of_nodup hnodup.of_map (nodup_reverse.mpr hwalk)).mpr hmem)
    exact inj_on_of_nodup_map hnodup ha ((hmem b).mpr hb) (le_antisymm hab hba)

/-- After any events, a list that covers the range gives the commits that the walk finds exactly
if each of its commits is reached from the head by way of commits later than `fromT`, and it has
every parent later than `fromT` of each. -/
theorem pending_commits_agree_iff (dag : CommitDag Id V)
    (events : List (IndexEvent Id)) (fromT : ℤ) (headId : Id) (hhead : headId ∈ dag.ids)
    (pending : List (ℤ × Id))
    (hpending : (events.foldl (CommitIndex.step dag) {}).pendingCommitCids fromT = some pending)
    (hcovers : pendingCoversRange pending fromT headId = true) :
    walkCommitChainSince dag (some pending) headId fromT =
        (collectDagCids dag headId fromT).reverse ↔
      (∀ x ∈ pending.map Prod.snd, dag.ReachesSince fromT headId x) ∧
        ∀ x ∈ pending.map Prod.snd, ∀ y ∈ dag.parents x, fromT < dag.t y →
          y ∈ pending.map Prod.snd := by
  obtain ⟨hin, hgrows⟩ := pendingCoversRange_spec hcovers
  have hlisted := fun e (he : e ∈ pending) =>
    (CommitIndex.listed_foldl events).mem_pending hpending he
  rw [walkCommitChainSince, if_pos hcovers,
    eq_collectDagCids_iff (fun e he => (hlisted e he).1) hgrows]
  simp only [mem_traceIds_since hhead]
  constructor
  · intro h
    refine ⟨fun x hx => (h x).mp hx, fun x hx y hy hty => (h y).mpr ⟨?_, hty⟩⟩
    exact ((h x).mp hx).1.tail ⟨((h x).mp hx).2, hy⟩
  · rintro ⟨hreach, hclosed⟩ x
    refine ⟨hreach x, ?_⟩
    rintro ⟨hpath, hlate⟩
    -- every commit on the way from the head is late, so it is listed
    induction hpath with
    | refl => exact hin
    | @tail y z _ hz ih => exact hclosed y (ih hz.1) z hz.2 hlate

/-- The commits published on the branch that merges the other one. -/
def sideMergeEvents : List (IndexEvent ℕ) :=
  [0, 1, 2, 4].map fun x => .publishCommit x .written

theorem sideMerge_pending :
    (sideMergeEvents.foldl (CommitIndex.step sideMerge) {}).pendingCommitCids 1 =
      some [(2, 1), (3, 2), (4, 4)] := by
  change some (mergeSort [((2 : ℤ), 1), (3, 2), (4, 4)] _) = _
  rw [mergeSort_of_pairwise (by decide)]

theorem pending_commits_agree_iff_of_sideMerge :
    pendingCoversRange [((2 : ℤ), 1), (3, 2), (4, 4)] 1 4 = true ∧
      (walkCommitChainSince sideMerge (some [(2, 1), (3, 2), (4, 4)]) 4 1 =
          (collectDagCids sideMerge 4 1).reverse ↔
        (∀ x ∈ [1, 2, 4], sideMerge.ReachesSince 1 4 x) ∧
          ∀ x ∈ [1, 2, 4], ∀ y ∈ sideMerge.parents x, 1 < sideMerge.t y → y ∈ [1, 2, 4]) :=
  ⟨by decide, pending_commits_agree_iff sideMerge sideMergeEvents 1 4 (by decide) _
    sideMerge_pending (by decide)⟩

/-- The commit of the side branch is not in the list, which covers the range. -/
theorem merged_commit_is_not_listed :
    (sideMergeEvents.foldl (CommitIndex.step sideMerge) {}).pendingCommitCids 1 =
        some [(2, 1), (3, 2), (4, 4)] ∧
      walkCommitChainSince sideMerge (some [(2, 1), (3, 2), (4, 4)]) 4 1 =
        [(2, 1), (3, 2), (4, 4)] ∧
        (2, 3) ∈ (collectDagCids sideMerge 4 1).reverse := by
  refine ⟨sideMerge_pending, by decide, ?_⟩
  rw [mem_reverse]
  exact (walkDag_perm 4 1).mem_iff.mpr (by decide)

end FlureeDb.Branch
