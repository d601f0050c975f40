import FlureeDb.Branch.Meeting

/-!
What a comparison of two branches sees. The commits of a branch are listed down to the
time of the common ancestor, while the commits that the other branch lacks are set by
the graph. The two agree only if no commit that both branches have is later than the
ancestor, and every commit that one of them lacks is.
-/

namespace FlureeDb.Branch

open FlureeDb.Core Lib

variable {Id V : Type} [DecidableEq Id] {dag : CommitDag Id V} {a b : Id}

/-- Where times grow, a walk lists the ancestors that are later than the cut. -/
theorem mem_traceIds (hdag : dag.Increasing) (ha : a ∈ dag.ids) {stopAtT : ℤ} {x : Id} :
    x ∈ traceIds dag a stopAtT ↔ dag.Reaches a x ∧ stopAtT < dag.t x := by
  rw [mem_traceIds_past ha]
  refine and_congr_left fun hlate => ⟨fun h => Relation.ReflTransGen.mono (fun _ _ h => h.2) _ _ h,
    fun h => ?_⟩
  -- every commit on the way is later than the one behind it
  induction h with
  | refl => exact Relation.ReflTransGen.refl
  | @tail y z hy hz ih =>
    have hlt := hdag y (CommitDag.Reaches.mem_ids hy ha) z hz
    exact Relation.ReflTransGen.tail (ih (hlate.trans hlt))
      ⟨decide_eq_false (not_le.mpr (hlate.trans hlt)), hz⟩

/-- No commit comes before one of its children. -/
theorem traceIds_children_first (hdag : dag.Increasing) (ha : a ∈ dag.ids) (stopAtT : ℤ) :
    (traceIds dag a stopAtT).Pairwise fun x y => x ∉ dag.parents y := by
  refine (traceIds_sorted a stopAtT).imp_of_mem fun {x y} _ hy hle hparent => ?_
  have hin := CommitDag.Reaches.mem_ids ((mem_traceIds hdag ha).mp hy).1 ha
  exact absurd (hdag y hin x hparent) (not_lt.mpr hle)

/-- The commits visited from the first head are those that the second lacks, each
once, and each after its children. -/
structure SeesOwn (dag : CommitDag Id V) (a b : Id) (stopAtT : ℤ) : Prop where
  visits : ∀ x, x ∈ traceIds dag a stopAtT ↔ dag.Reaches a x ∧ ¬ dag.Reaches b x
  once : (traceIds dag a stopAtT).Nodup
  children_first : (traceIds dag a stopAtT).Pairwise fun x y => x ∉ dag.parents y

theorem seesOwn_iff (hdag : dag.Increasing) (ha : a ∈ dag.ids) {stopAtT : ℤ} :
    SeesOwn dag a b stopAtT ↔
      (∀ c, Common dag a b c → dag.t c ≤ stopAtT) ∧
        ∀ x, dag.Reaches a x → ¬ dag.Reaches b x → stopAtT < dag.t x := by
  constructor
  · intro h
    refine ⟨fun c hc => ?_, fun x hx hlacks => ?_⟩
    · by_contra hlate
      exact ((h.visits c).mp ((mem_traceIds hdag ha).mpr ⟨hc.1, not_le.mp hlate⟩)).2 hc.2
    · exact ((mem_traceIds hdag ha).mp ((h.visits x).mpr ⟨hx, hlacks⟩)).2
  · rintro ⟨hcommon, hown⟩
    refine ⟨fun x => ?_, traceIds_nodup a stopAtT, traceIds_children_first hdag ha stopAtT⟩
    rw [mem_traceIds hdag ha]
    refine and_congr_right fun hx => ⟨fun hlate hb => ?_, hown x hx⟩
    exact absurd (hcommon x ⟨hx, hb⟩) (not_le.mpr hlate)

theorem branch_comparison_exact_iff (hdag : dag.Increasing) (ha : a ∈ dag.ids) (hb : b ∈ dag.ids)
    {ancestor : CommonAncestor Id} (_ : Answer dag a b ancestor) :
    SeesOwn dag a b ancestor.t ∧ SeesOwn dag b a ancestor.t ↔
      (∀ c, Common dag a b c → dag.t c ≤ ancestor.t) ∧
        (∀ x, dag.Reaches a x → ¬ dag.Reaches b x → ancestor.t < dag.t x) ∧
          ∀ x, dag.Reaches b x → ¬ dag.Reaches a x → ancestor.t < dag.t x := by
  rw [seesOwn_iff hdag ha, seesOwn_iff hdag hb]
  refine ⟨fun h => ⟨h.1.1, h.1.2, h.2.2⟩, fun h => ⟨⟨h.1, h.2.1⟩, fun c hc => ?_, h.2.2⟩⟩
  exact h.1 c (And.symm hc)

/-- A branch that has merged a side branch as old as its own start. -/
def sideMerge : CommitDag ℕ Unit where
  ids := [0, 1, 2, 3, 4]
  commit
    | 0 => bareCommit 1 []
    | 1 => bareCommit 2 [0]
    | 2 => bareCommit 3 [1]
    | 3 => bareCommit 2 [0]
    | _ => bareCommit 4 [2, 3]
  closed := by decide

theorem sideMerge_increasing : sideMerge.Increasing := by
  unfold CommitDag.Increasing
  decide

theorem branch_comparison_exact_iff_of_sideMerge :
    (sideMerge.Increasing ∧ Answer sideMerge 2 3 ⟨0, 1⟩) ∧
      (SeesOwn sideMerge 2 3 1 ∧ SeesOwn sideMerge 3 2 1 ↔
        (∀ c, Common sideMerge 2 3 c → sideMerge.t c ≤ 1) ∧
          (∀ x, sideMerge.Reaches 2 x → ¬ sideMerge.Reaches 3 x → 1 < sideMerge.t x) ∧
            ∀ x, sideMerge.Reaches 3 x → ¬ sideMerge.Reaches 2 x → 1 < sideMerge.t x) :=
  have hanswer : Answer sideMerge 2 3 ⟨0, 1⟩ := ⟨11, by decide⟩
  ⟨⟨sideMerge_increasing, hanswer⟩,
    branch_comparison_exact_iff sideMerge_increasing (by decide) (by decide) hanswer⟩

/-- The ancestor of the two heads is commit 2, so that the side branch, which the
second head lacks, is left out. -/
theorem branch_comparison_misses_side_branch :
    sideMerge.Increasing ∧ Answer sideMerge 4 2 ⟨2, 3⟩ ∧
      (sideMerge.Reaches 4 3 ∧ ¬ sideMerge.Reaches 2 3) ∧ 3 ∉ traceIds sideMerge 4 3 ∧
        ¬ SeesOwn sideMerge 4 2 3 := by
  have hown : sideMerge.Reaches 4 3 := Reaches.tail (Reaches.refl ..) (by decide)
  have hlacks : ¬ sideMerge.Reaches 2 3 := by
    intro h
    have hle : ¬ (3 : ℕ) ≤ 2 := by decide
    refine hle (Reaches.invariant (p := fun x => x ≤ 2) (fun x hx y hy => ?_) h le_rfl)
    interval_cases x
    · cases hy
    · rw [List.mem_singleton.mp hy]
      decide
    · rw [List.mem_singleton.mp hy]
      decide
  have hout : 3 ∉ traceIds sideMerge 4 3 := by
    intro hin
    exact absurd ((mem_traceIds sideMerge_increasing (by decide)).mp hin).2 (by decide)
  exact ⟨sideMerge_increasing, ⟨11, by decide⟩, ⟨hown, hlacks⟩, hout,
    fun h => hout ((h.visits 3).mpr ⟨hown, hlacks⟩)⟩

end FlureeDb.Branch
