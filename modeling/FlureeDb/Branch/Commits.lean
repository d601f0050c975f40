import FlureeDb.Core.Comparator
import FlureeDb.Lib.HashMap
import FlureeDb.Lib.Worklist

/-!
Commits and the graph of their parents. A content store holds every commit of the
graph, so that loading one does not fail. The walk back from a head cuts at a time:
a commit at or below it is not listed, and neither is what only it leads to. What a
walk lists is sorted by time, the newest first, and the delta keys of a branch and
the data that a merge collects are folds over such a list.

Of a commit this leaves out the envelope fields that no walk reads: its wall clock
time, its signatures, its transaction and the metadata of it.
-/

namespace FlureeDb.Branch

open FlureeDb.Core Lib List Relation.ReflTransGen

structure ConflictKey where
  s : Sid
  p : Sid
  g : Option Sid
  deriving DecidableEq

/-- A commit as it is read back: every flake has the time of the commit. -/
structure Commit (Id V : Type) where
  t : ℤ
  parents : List Id
  flakes : List (Flake V)
  namespaceDelta : HashMap ℕ String
  graphDelta : HashMap ℕ String

/-- Finitely many commits, with the parents of each among them. -/
structure CommitDag (Id V : Type) where
  ids : List Id
  commit : Id → Commit Id V
  closed : ∀ x ∈ ids, ∀ y ∈ (commit x).parents, y ∈ ids

/-- The key of the fact of a flake. -/
def conflictKey {V : Type} (f : Flake V) : ConflictKey := ⟨f.s, f.p, f.g⟩

namespace CommitDag

variable {Id V : Type} (dag : CommitDag Id V)

def t (x : Id) : ℤ := (dag.commit x).t

def parents (x : Id) : List Id := (dag.commit x).parents

/-- A commit is an ancestor of another, or the other itself. -/
def Reaches : Id → Id → Prop := Lib.Reaches dag.parents

/-- A commit later than the time is reached by way of commits that are later, too. -/
def ReachesSince (time : ℤ) (x y : Id) : Prop :=
  Relation.ReflTransGen (fun z w => time < dag.t z ∧ w ∈ dag.parents z) x y ∧ time < dag.t y

/-- The time grows from each parent to its child. -/
def Increasing : Prop := ∀ x ∈ dag.ids, ∀ y ∈ dag.parents x, dag.t y < dag.t x

variable {dag} {y : Id}

theorem Reaches.mem_ids {x : Id} (h : dag.Reaches x y) (hx : x ∈ dag.ids) : y ∈ dag.ids :=
  Reaches.invariant dag.closed h hx

/-- An ancestor is not later, and earlier unless it is the commit itself. -/
theorem Increasing.t_lt (hdag : dag.Increasing) {x : Id} (hx : x ∈ dag.ids) (h : dag.Reaches x y) :
    y = x ∨ dag.t y < dag.t x := by
  induction h with
  | refl => exact .inl rfl
  | @tail y z hxy hz ih =>
    have hlt := hdag y (Reaches.mem_ids hxy hx) z hz
    obtain rfl | hy := ih
    · exact .inr hlt
    · exact .inr (hlt.trans hy)

theorem Increasing.t_le (hdag : dag.Increasing) {x : Id} (hx : x ∈ dag.ids) (h : dag.Reaches x y) :
    dag.t y ≤ dag.t x := by
  obtain rfl | hlt := hdag.t_lt hx h
  · exact le_rfl
  · exact hlt.le

end CommitDag

variable {Id V : Type} [DecidableEq Id] (dag : CommitDag Id V)

def newestFirst (a b : ℤ × Id) : Bool := decide (b.1 ≤ a.1)

variable (head : Id) (stopAtT : ℤ)

/-- The commits from the head back that are later than `stopAtT`, in descending time. -/
def walkDag : List (ℤ × Id) :=
  let result := (Walk.collect dag.parents (fun x => decide (dag.t x ≤ stopAtT)) dag.ids head).map
    fun x => (dag.t x, x)
  result.mergeSort newestFirst

def collectDagCids : List (ℤ × Id) := walkDag dag head stopAtT

def traceIds : List Id := (collectDagCids dag head stopAtT).map Prod.snd

def traceCommitsById : List (Commit Id V) :=
  (traceIds dag head stopAtT).map dag.commit

/-- The keys that the traced commits touch, each once. -/
def computeDeltaKeys : List ConflictKey :=
  ((traceCommitsById dag head stopAtT).flatMap fun c => c.flakes.map conflictKey).dedup

structure CollectedCommitData (V : Type) where
  flakes : List (Flake V)
  namespaceDelta : HashMap ℕ String
  graphDelta : HashMap ℕ String

/-- The flakes of the commits one after the other; in the deltas the first commit that
has a key wins. -/
def collectFromCommits {Id V : Type} (commits : List (Commit Id V))
    (flakeTransform : Flake V → Flake V) : CollectedCommitData V :=
  commits.foldl
    (fun data c =>
      ⟨data.flakes ++ c.flakes.map flakeTransform, data.namespaceDelta ∪ c.namespaceDelta,
        data.graphDelta ∪ c.graphDelta⟩)
    ⟨[], ∅, ∅⟩

def collectCommitData : CollectedCommitData V :=
  collectFromCommits ((traceIds dag head stopAtT).reverse.map dag.commit) id

/-! ### What a walk lists -/

variable {dag}

theorem walkDag_perm :
    (walkDag dag head stopAtT).Perm
      ((Walk.collect dag.parents (fun x => decide (dag.t x ≤ stopAtT)) dag.ids head).map
        fun x => (dag.t x, x)) :=
  mergeSort_perm ..

/-- A walk that finds the commits in descending time lists them as it finds them. -/
theorem traceIds_of_sorted {head : Id} {stopAtT : ℤ}
    (h : (Walk.collect dag.parents (fun x => decide (dag.t x ≤ stopAtT)) dag.ids head).Pairwise
      fun x y => dag.t y ≤ dag.t x) :
    traceIds dag head stopAtT =
      Walk.collect dag.parents (fun x => decide (dag.t x ≤ stopAtT)) dag.ids head := by
  unfold traceIds collectDagCids walkDag
  rw [mergeSort_of_pairwise (pairwise_map.mpr (h.imp decide_eq_true)), map_map]
  exact map_id _

theorem traceIds_perm (head : Id) (stopAtT : ℤ) :
    (traceIds dag head stopAtT).Perm
      (Walk.collect dag.parents (fun x => decide (dag.t x ≤ stopAtT)) dag.ids head) := by
  have hperm : (traceIds dag head stopAtT).Perm (map Prod.snd _) :=
    (walkDag_perm head stopAtT).map Prod.snd
  simpa [Function.comp_def] using hperm

theorem traceIds_nodup (head : Id) (stopAtT : ℤ) : (traceIds dag head stopAtT).Nodup :=
  (traceIds_perm head stopAtT).nodup_iff.mpr (Walk.collect_nodup head)

variable {head} {stopAtT}

theorem t_of_mem_walkDag {e : ℤ × Id} (h : e ∈ walkDag dag head stopAtT) : e.1 = dag.t e.2 := by
  obtain ⟨x, -, rfl⟩ := mem_map.mp ((walkDag_perm head stopAtT).mem_iff.mp h)
  rfl

omit [DecidableEq Id] in
theorem pairwise_newestFirst (l : List (ℤ × Id)) :
    (l.mergeSort newestFirst).Pairwise fun a b => b.1 ≤ a.1 := by
  have hsorted : (l.mergeSort newestFirst).Pairwise fun a b => newestFirst a b = true := by
    refine pairwise_mergeSort (fun a b c hab hbc => ?_) (fun a b => ?_) _
    · simp only [newestFirst, decide_eq_true_eq] at hab hbc ⊢
      exact hbc.trans hab
    · simp only [newestFirst, Bool.or_eq_true, decide_eq_true_eq]
      exact le_total b.1 a.1
  exact hsorted.imp fun hab => of_decide_eq_true hab

theorem traceIds_sorted (head : Id) (stopAtT : ℤ) :
    (traceIds dag head stopAtT).Pairwise fun x y => dag.t y ≤ dag.t x := by
  have hsorted : (walkDag dag head stopAtT).Pairwise fun a b => b.1 ≤ a.1 := pairwise_newestFirst _
  refine pairwise_map.mpr (hsorted.imp_of_mem ?_)
  intro a b ha hb hab
  rwa [← t_of_mem_walkDag ha, ← t_of_mem_walkDag hb]

/-- A commit is listed if it is later than the cut and reached through commits that
are. -/
theorem mem_traceIds_past (hhead : head ∈ dag.ids) {x : Id} :
    x ∈ traceIds dag head stopAtT ↔
      ReachesPast dag.parents (fun x => decide (dag.t x ≤ stopAtT)) head x ∧ stopAtT < dag.t x := by
  have hclosed : ∀ x ∈ dag.ids, ∀ y ∈ dag.parents x, y ∈ dag.ids := dag.closed
  rw [(traceIds_perm head stopAtT).mem_iff, Walk.mem_collect hclosed hhead]
  simp

/-- The same, said of the graph. -/
theorem mem_traceIds_since (hhead : head ∈ dag.ids) {x : Id} :
    x ∈ traceIds dag head stopAtT ↔ dag.ReachesSince stopAtT head x := by
  rw [mem_traceIds_past hhead]
  unfold CommitDag.ReachesSince ReachesPast
  simp only [decide_eq_false_iff_not, not_le]

theorem mem_ids_of_mem_traceIds (hhead : head ∈ dag.ids) {x : Id}
    (h : x ∈ traceIds dag head stopAtT) : x ∈ dag.ids := by
  obtain ⟨hpast, -⟩ := (mem_traceIds_past hhead).mp h
  exact CommitDag.Reaches.mem_ids (mono (fun _ _ h => h.2) _ _ hpast) hhead

/-- Where all times are positive, a walk down to 0 lists all ancestors. -/
theorem mem_traceIds_zero {head : Id} (hpositive : ∀ x ∈ dag.ids, 0 < dag.t x) (hhead : head ∈ dag.ids)
    {x : Id} : x ∈ traceIds dag head 0 ↔ dag.Reaches head x := by
  rw [mem_traceIds_past hhead]
  constructor
  · exact fun h => mono (fun _ _ h => h.2) _ _ h.1
  · intro h
    refine ⟨?_, hpositive x (CommitDag.Reaches.mem_ids h hhead)⟩
    induction h with
    | refl => exact refl
    | @tail y z hy hz ih =>
      have hy0 := hpositive y (CommitDag.Reaches.mem_ids hy hhead)
      exact tail ih ⟨decide_eq_false (not_le.mpr hy0), hz⟩

end FlureeDb.Branch
