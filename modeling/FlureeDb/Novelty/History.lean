import FlureeDb.Lib.OpHistory
import FlureeDb.Novelty.Dedup

/-!
Novelty beside the history of all flakes given to it. A clearing hands the facts that
are present at the cutoff to the index. The presence of a fact, resolved from the index
and the stored flakes, is compared with its presence in the history. Facts are the same
by equality, not by the comparators that the deduplication uses: two flakes with the
same list index and different languages are two facts, and the comparator of metadata
takes them for one.
-/

namespace FlureeDb.Novelty

open FlureeDb.Core Lib List

variable {V : Type} [ObjectValue V] (sort : Bool → UnstableSort)

/-- The operations that flakes hold on the fact of `key`, as `==` tells facts apart. -/
def opsEq (key : Flake V) (flakes : List (Flake V)) : OpLog :=
  (flakes.filter fun f => key.eq f).map opOf

/-- Flakes of the identity of `key` are flakes of its fact. -/
def Single (key : Flake V) (flakes : List (Flake V)) : Prop :=
  ∀ f ∈ flakes, keyCmp key f = .eq → key.eq f = true

variable {flakes : List (Flake V)} {key : Flake V}

theorem opsEq_eq_opsOf (h : Single key flakes) : opsEq key flakes = opsOf key flakes := by
  unfold opsEq
  congr 1
  refine filter_congr fun f hf => ?_
  rw [Bool.eq_iff_iff, beq_iff_eq]
  exact ⟨keyCmp_of_eq, h f hf⟩

theorem opsEq_eq_nil (h : ∀ f ∈ flakes, ¬ key.eq f = true) : opsEq key flakes = [] := by
  unfold opsEq
  rw [filter_eq_nil_iff.mpr h]
  rfl

theorem opsOf_filter_later (key : Flake V) (flakes : List (Flake V)) (cutoff : ℤ) :
    opsOf key (flakes.filter fun f => cutoff < f.t) =
      (opsOf key flakes).filter (cutoff < ·.1) := by
  unfold opsOf
  rw [filter_map, filter_filter, filter_filter]
  congr 1
  refine filter_congr fun f _ => ?_
  rw [Bool.and_comm]
  rfl

def Call.given (g : GraphId) : Call V → List (Flake V)
  | .applyCommit reverseGraph flakes _ => flakes.filter (routesTo reverseGraph g)
  | .bulkApplyCommits reverseGraph batches => bulkBatch reverseGraph batches g
  | .tierCompact _ => []
  | .clearUpTo _ => []

/-- Novelty with what was given to it: the flakes of every graph, the facts that went
into the index, and the cutoffs. -/
structure Trail (V : Type) [ObjectValue V] where
  novelty : Novelty V
  history : GraphId → List (Flake V)
  indexed : GraphId → Flake V → Bool
  cutoffs : List ℤ

namespace Trail

def new (t : ℤ) : Trail V where
  novelty := Novelty.new t
  history _ := []
  indexed _ _ := false
  cutoffs := []

/-- Whether a fact of a graph is present at a time, from the index and what is
stored. -/
def present (tr : Trail V) (g : GraphId) (f : Flake V) (toT : ℤ) : Bool :=
  OpLog.resolve (tr.indexed g f) (opsEq f (tr.novelty.stored g)) toT

/-- What a call adds to the records. A clearing moves the facts that are present at the
cutoff into the index. -/
def follow (tr : Trail V) (c : Call V) (n : Novelty V) : Trail V where
  novelty := n
  history g := tr.history g ++ c.given g
  indexed g f :=
    match c with
    | .clearUpTo cutoff => tr.present g f cutoff
    | _ => tr.indexed g f
  cutoffs :=
    match c with
    | .clearUpTo cutoff => cutoff :: tr.cutoffs
    | _ => tr.cutoffs

def call (tr : Trail V) (c : Call V) : Except Failure (Trail V) :=
  (tr.novelty.call sort c).map (tr.follow c)

/-- Every commit is later than what was given before, and its flakes carry its time. -/
def Timely (tr : Trail V) : Call V → Prop
  | .applyCommit _ flakes commitT =>
    (∀ f ∈ flakes, f.t = commitT) ∧ ∀ g, ∀ f ∈ tr.history g, f.t < commitT
  | .bulkApplyCommits _ batches =>
    (∀ batch ∈ batches, ∀ f ∈ batch.1, f.t = batch.2) ∧
      (batches.Pairwise fun a b => a.2 < b.2) ∧
      ∀ batch ∈ batches, ∀ g, ∀ f ∈ tr.history g, f.t < batch.2
  | .tierCompact _ => True
  | .clearUpTo _ => True

/-- The comparators tell the facts of every graph apart, a bulk load agrees with its
commits one after the other, and it leaves no more flakes in a graph than handles can
name. -/
structure Safe (tr : Trail V) (c : Call V) : Prop where
  distinct : ∀ g, ∀ a ∈ tr.history g ++ c.given g, Single a (tr.history g ++ c.given g)
  agrees : ∀ reverseGraph batches, c = .bulkApplyCommits reverseGraph batches →
    tr.novelty.BulkAgrees reverseGraph batches
  room : ∀ reverseGraph batches, c = .bulkApplyCommits reverseGraph batches → ∀ g : GraphId,
    (tr.novelty.stored g).length + (bulkBatch reverseGraph batches g).length ≤
      maxSegments * maxSegmentFlakes

end Trail

/-! ### What calls store -/

theorem dedupWalk_sublist (state : Option (Flake V × Bool)) (flakes : List (Flake V)) :
    (dedupWalk state flakes).Sublist flakes := by
  fun_induction dedupWalk state flakes with
  | case1 => exact Sublist.refl _
  | case5 => exact Sublist.cons _ ‹_›
  | _ => exact Sublist.cons_cons _ ‹_›

variable {f : Flake V} {n n' : Novelty V} {reverseGraph : Sid → Option GraphId} {g : GraphId}
  {c : Call V}

theorem mem_bulkKept {storedFlakes newFlakes : List (Flake V)}
    (h : f ∈ bulkKept sort storedFlakes newFlakes) : f ∈ storedFlakes ++ newFlakes :=
  ((sort true).perm bulkCmp _).mem_iff.mp ((dedupWalk_sublist none _).subset h)

theorem bulkKept_length (storedFlakes newFlakes : List (Flake V)) :
    (bulkKept sort storedFlakes newFlakes).length ≤ storedFlakes.length + newFlakes.length := by
  rw [← length_append, ← ((sort true).perm bulkCmp (storedFlakes ++ newFlakes)).length_eq]
  exact (dedupWalk_sublist none _).length_le

theorem bulkSegments_length {kept : List (Flake V)} {k : ℕ}
    (h : kept.length ≤ (k + 1) * maxSegmentFlakes) : (bulkSegments sort kept).length ≤ k + 1 := by
  unfold bulkSegments
  split
  · exact Nat.zero_le _
  · exact (chunks_small sort true kept).2 k h

variable {batches : List (List (Flake V) × ℤ)}

theorem mem_stored_applyCommit {commitT : ℤ}
    (h : n.applyCommit sort reverseGraph flakes commitT = .ok n') (hf : f ∈ n'.stored g) :
    f ∈ n.stored g ++ flakes.filter (routesTo reverseGraph g) := by
  rcases applyCommit_ok sort h with ⟨rfl, rfl⟩ | ⟨-, routed, hroute, -, rfl⟩
  · exact mem_append_left _ hf
  · rw [accept_stored, mem_append] at hf
    rw [← batchOf_route hroute, mem_append]
    refine hf.imp_right fun hf => ?_
    obtain ⟨e, he, rfl⟩ := mem_map.mp hf
    obtain ⟨he, hg⟩ := mem_filter.mp he
    exact mem_map.mpr ⟨e, mem_filter.mpr ⟨mem_of_mem_filter he, hg⟩, rfl⟩

theorem mem_stored_bulkApplyCommits (h : n.bulkApplyCommits sort reverseGraph batches = .ok n')
    (hf : f ∈ n'.stored g) : f ∈ n.stored g ++ bulkBatch reverseGraph batches g := by
  by_cases hg : bulkBatch reverseGraph batches g = []
  · unfold stored at hf
    rw [(bulkApplyCommits_untouched sort h hg).1] at hf
    exact mem_append_left _ hf
  · rw [(bulkApplyCommits_stored sort h hg).2] at hf
    exact mem_bulkKept sort hf

theorem mem_stored_call (hsound : n.Sound) (hfits : n.Fits) (h : n.call sort c = .ok n')
    (hf : f ∈ n'.stored g) : f ∈ n.stored g ++ c.given g := by
  rcases call_ok sort h with ⟨reverseGraph, flakes, commitT, rfl, happly⟩ |
    ⟨reverseGraph, batches, rfl, hbulk⟩ | ⟨width, rfl, rfl⟩ | ⟨cutoff, rfl, hclear⟩
  · exact mem_stored_applyCommit sort happly hf
  · exact mem_stored_bulkApplyCommits sort hbulk hf
  · exact mem_append_left _ ((tierCompact_stored sort n width g).mem_iff.mp hf)
  · obtain ⟨m, hm, hstored, -⟩ := clearUpTo_effect sort hsound hfits cutoff
    obtain rfl : m = n' := Option.some.inj (hm.symm.trans hclear)
    rw [hstored] at hf
    exact mem_append_left _ (mem_of_mem_filter hf)

/-! ### Nothing is lost -/

variable {tr : Trail V}

namespace Trail

structure Lossless (tr : Trail V) : Prop where
  sound : tr.novelty.Sound
  fits : tr.novelty.Fits
  given : ∀ g : GraphId, ∀ f ∈ tr.novelty.stored g, f ∈ tr.history g
  distinct : ∀ g, ∀ a ∈ tr.history g, Single a (tr.history g)
  indexed : ∀ g f, (∀ x ∈ tr.history g, ¬ f.eq x = true) → tr.indexed g f = false
  faithful : ∀ (g : GraphId) (f : Flake V), Single f (tr.history g) →
    OpLog.Faithful tr.cutoffs (tr.indexed g f) (opsOf f (tr.history g))
      (opsOf f (tr.novelty.stored g)) (tr.novelty.factState.get g f)

theorem lossless_new (t : ℤ) : (new t : Trail V).Lossless where
  sound := sound_new t
  fits _ := Nat.zero_le _
  given _ _ h := by cases h
  distinct _ _ h := by cases h
  indexed _ _ _ := rfl
  faithful _ _ _ := OpLog.faithful_empty

/-- The records that a call leaves of a fact. -/
theorem faithful_call (hlossless : tr.Lossless) (htimely : tr.Timely c) (hsafe : tr.Safe c)
    (h : tr.novelty.call sort c = .ok n') (hsingle : Single f (tr.history g)) :
    OpLog.Faithful (tr.follow c n').cutoffs ((tr.follow c n').indexed g f)
      (opsOf f (tr.history g) ++ opsOf f (c.given g)) (opsOf f (n'.stored g))
      (n'.factState.get g f) := by
  have hbefore := hlossless.faithful g f hsingle
  rcases call_ok sort h with ⟨reverseGraph, flakes, commitT, rfl, happly⟩ |
    ⟨reverseGraph, batches, rfl, hbulk⟩ | ⟨width, rfl, rfl⟩ | ⟨cutoff, rfl, hclear⟩
  · obtain ⟨hcarry, hlater⟩ := htimely
    rw [applyCommit_stored sort happly, applyCommit_get sort happly]
    refine hbefore.keepBatch (t := commitT) (fun op hop => ?_) (fun op hop => ?_)
    · obtain ⟨x, hx, -, rfl⟩ := mem_opsOf.mp hop
      exact hcarry x (mem_of_mem_filter hx)
    · obtain ⟨x, hx, -, rfl⟩ := mem_opsOf.mp hop
      exact hlater g x hx
  · obtain ⟨hcarry, htimes, hlater⟩ := htimely
    change OpLog.Faithful tr.cutoffs (tr.indexed g f)
      (opsOf f (tr.history g) ++ opsOf f (bulkBatch reverseGraph batches g)) _ _
    by_cases hg : bulkBatch reverseGraph batches g = []
    · obtain ⟨hsegs, hget⟩ := bulkApplyCommits_untouched sort hbulk hg
      unfold stored at hbefore ⊢
      rw [hg, hsegs, hget, opsOf_nil, append_nil]
      exact hbefore
    · obtain ⟨hstored, hget⟩ := bulkApplyCommits_touched sort hbulk hg f
      rw [hstored, hget, ← flatten_opBatches]
      refine hbefore.walk (timed_opBatches htimes hcarry reverseGraph g f) (fun op hop x hx => ?_)
        (bulkOps_sorted sort f _ _) (fun op => ?_) ?_
      · rw [flatten_opBatches] at hx
        obtain ⟨a, ha, -, rfl⟩ := mem_opsOf.mp hop
        obtain ⟨b, hb, -, rfl⟩ := mem_opsOf.mp hx
        obtain ⟨batch, hbatch, hb⟩ := mem_flatMap.mp (mem_of_mem_filter hb)
        change a.t < b.t
        rw [hcarry batch hbatch b hb]
        exact hlater batch hbatch g a ha
      · rw [flatten_opBatches]
        exact mem_bulkOps sort f _ _ op
      · rw [flatten_opBatches]
        exact hsafe.agrees reverseGraph batches rfl g f hg
  · rw [tierCompact_factState]
    change OpLog.Faithful tr.cutoffs (tr.indexed g f) (opsOf f (tr.history g) ++ []) _ _
    rw [append_nil]
    exact hbefore.congr fun op => (opsOf_perm (tierCompact_stored sort _ width g) f).mem_iff
  · change OpLog.Faithful (cutoff :: tr.cutoffs) (tr.present g f cutoff)
      (opsOf f (tr.history g) ++ []) _ _
    have hstored : Single f (tr.novelty.stored g) :=
      fun x hx => hsingle x (hlossless.given g x hx)
    rw [append_nil]
    unfold present
    rw [opsEq_eq_opsOf hstored]
    obtain ⟨m, hm, hcleared, heffect⟩ :=
      clearUpTo_effect sort hlossless.sound hlossless.fits cutoff
    obtain rfl : m = n' := Option.some.inj (hm.symm.trans hclear)
    rcases heffect with ⟨hzero, rfl⟩ | hget
    · rw [stored_eq_nil hlossless.sound hzero] at hbefore ⊢
      exact hbefore.cut_nil cutoff
    · have hops : opsOf f (m.stored g) =
          (opsOf f (tr.novelty.stored g)).filter (cutoff < ·.1) := by
        rw [hcleared, opsOf_filter_later]
      rw [hget, hops]
      exact hbefore.cut cutoff

theorem indexed_call (hlossless : tr.Lossless) (c : Call V)
    (hnone : ∀ x ∈ tr.history g, ¬ f.eq x = true) : (tr.follow c n').indexed g f = false := by
  have hbefore := hlossless.indexed g f hnone
  cases c with
  | clearUpTo cutoff =>
    change tr.present g f cutoff = false
    unfold present
    rw [opsEq_eq_nil fun x hx => hnone x (hlossless.given g x hx)]
    exact hbefore
  | applyCommit | bulkApplyCommits | tierCompact => exact hbefore

theorem lossless_call {tr tr' : Trail V} (hlossless : tr.Lossless) (h : tr.call sort c = .ok tr')
    (htimely : tr.Timely c) (hsafe : tr.Safe c) : tr'.Lossless := by
  obtain ⟨n', hcall, rfl⟩ := Checked.map_eq_ok.mp h
  have hfits : n'.Fits := by
    refine call_fits sort hlossless.sound hlossless.fits hcall fun hisBulk => ?_
    cases c with
    | bulkApplyCommits reverseGraph batches =>
      have hbulk := Checked.mapError_eq_ok.mp hcall
      intro g
      by_cases hg : bulkBatch reverseGraph batches g = []
      · rw [(bulkApplyCommits_untouched sort hbulk hg).1]
        exact hlossless.fits g
      · rw [(bulkApplyCommits_stored sort hbulk hg).1]
        exact @bulkSegments_length _ _ sort _ (maxSegments - 1)
          ((bulkKept_length sort _ _).trans (hsafe.room reverseGraph batches rfl g))
    | applyCommit | tierCompact | clearUpTo => cases hisBulk
  refine ⟨call_sound sort hlossless.sound hcall, hfits, fun g f hf => ?_, hsafe.distinct,
    fun g f hnone => ?_, fun g f hsingle => ?_⟩
  · rcases mem_append.mp (mem_stored_call sort hlossless.sound hlossless.fits hcall hf)
      with hf | hf
    · exact mem_append_left _ (hlossless.given g f hf)
    · exact mem_append_right _ hf
  · exact indexed_call hlossless c fun x hx => hnone x (mem_append_left _ hx)
  · change OpLog.Faithful _ _ (opsOf f (tr.history g ++ c.given g)) _ _
    rw [opsOf_append]
    exact faithful_call sort hlossless htimely hsafe hcall
      fun x hx => hsingle x (mem_append_left _ hx)

theorem Lossless.present_eq (h : tr.Lossless) (g : GraphId) (f : Flake V) {toT : ℤ}
    (htoT : ∀ c ∈ tr.cutoffs, c ≤ toT) :
    tr.present g f toT = OpLog.presentAt (opsEq f (tr.history g)) toT := by
  unfold present
  by_cases hsingle : Single f (tr.history g)
  · have hstored : Single f (tr.novelty.stored g) := fun x hx => hsingle x (h.given g x hx)
    rw [opsEq_eq_opsOf hsingle, opsEq_eq_opsOf hstored, Bool.eq_iff_iff, OpLog.presentAt_iff]
    exact (h.faithful g f hsingle).resolves toT htoT
  · -- a flake of the same identity is another fact, so the history has none of this one
    unfold Single at hsingle
    push Not at hsingle
    obtain ⟨x, hx, hkey, hne⟩ := hsingle
    have hnone : ∀ y ∈ tr.history g, ¬ f.eq y = true := by
      intro y hy heq
      have hyx := h.distinct g y hy x hx (keyCmp_trans (keyCmp_symm (keyCmp_of_eq heq)) hkey)
      exact hne (eq_trans heq hyx)
    rw [opsEq_eq_nil hnone, opsEq_eq_nil fun y hy => hnone y (h.given g y hy),
      h.indexed g f hnone]
    rfl

theorem lossless_of_reach {t₀ : ℤ}
    (h : Reach (Trail.call sort) (fun tr c _ => tr.Timely c ∧ tr.Safe c) (new t₀) tr) :
    tr.Lossless := by
  induction h with
  | start => exact lossless_new t₀
  | step _ htaken hok ih => exact lossless_call sort ih htaken hok.1 hok.2

end Trail

/-- **Deduplication loses nothing in safe runs.** In every run of calls with later and later
commits in which the comparators tell the facts given apart and every bulk load agrees with
its commits and has room: the presence of every fact at every time from the cutoffs on,
resolved from the index and the stored flakes, is the one resolved from all flakes
given. -/
theorem presence_eq_history (t₀ : ℤ) (tr : Trail V)
    (h : Reach (Trail.call sort) (fun tr c _ => tr.Timely c ∧ tr.Safe c) (Trail.new t₀) tr)
    (g : GraphId) (f : Flake V) (toT : ℤ) (htoT : ∀ c ∈ tr.cutoffs, c ≤ toT) :
    tr.present g f toT = OpLog.presentAt (opsEq f (tr.history g)) toT :=
  (Trail.lossless_of_reach sort h).present_eq g f htoT

namespace Sample

/-- A commit, a clearing that moves its fact into the index, and a commit that retracts
the fact. -/
def asserting : Call OrdinaryValue := .applyCommit noGraphs [fact 1 1 true] 1

def clearing : Call OrdinaryValue := .clearUpTo 1

def retracting : Call OrdinaryValue := .applyCommit noGraphs [fact 1 2 false] 2

def assertedTrail : Trail OrdinaryValue :=
  (Trail.new 0).follow asserting ((new 0).accept sorts [(fact 1 1 true, 0)] 1)

def clearedNovelty : Novelty OrdinaryValue :=
  (assertedTrail.novelty.clearUpTo sorts 1).getD (new 0)

def clearedTrail : Trail OrdinaryValue := assertedTrail.follow clearing clearedNovelty

def retractedTrail : Trail OrdinaryValue :=
  clearedTrail.follow retracting (clearedNovelty.accept sorts [(fact 1 2 false, 0)] 2)

/-- Calls on one fact are safe, bulk loads apart. -/
theorem safe_of_one_fact {tr : Trail OrdinaryValue} {c : Call OrdinaryValue} (hc : ¬ c.isBulk)
    (h : ∀ g, ∀ f ∈ tr.history g ++ c.given g, f ∈ [fact 1 1 true, fact 1 2 false]) :
    tr.Safe c := by
  have hall : ∀ a ∈ [fact 1 1 true, fact 1 2 false], ∀ b ∈ [fact 1 1 true, fact 1 2 false],
      a.eq b = true := by decide +kernel
  refine ⟨fun g a ha b hb _ => hall a (h g a ha) b (h g b hb), ?_, ?_⟩
  · rintro reverseGraph batches rfl
    exact absurd trivial hc
  · rintro reverseGraph batches rfl
    exact absurd trivial hc

theorem retractedTrail_reach : Reach (Trail.call sorts) (fun tr c _ => tr.Timely c ∧ tr.Safe c)
    (Trail.new 0) retractedTrail := by
  have hfirst : ∀ g, ∀ f ∈ assertedTrail.history g, f = fact 1 1 true :=
    fun g f hf => mem_singleton.mp (mem_of_mem_filter hf)
  have hcleared : ∀ g, ∀ f ∈ clearedTrail.history g, f = fact 1 1 true := by
    intro g f hf
    change f ∈ assertedTrail.history g ++ [] at hf
    rw [append_nil] at hf
    exact hfirst g f hf
  have hassert : (Trail.new 0).call sorts asserting = .ok assertedTrail := rfl
  have hclear : assertedTrail.call sorts clearing = .ok clearedTrail := rfl
  have hretract : clearedTrail.call sorts retracting = .ok retractedTrail := rfl
  refine Reach.step (Reach.step (Reach.step Reach.start hassert ⟨⟨?_, ?_⟩, ?_⟩) hclear
    ⟨trivial, ?_⟩) hretract ⟨⟨?_, ?_⟩, ?_⟩
  · decide +kernel
  · exact fun g f hf => by cases hf
  · refine safe_of_one_fact id fun g f hf => ?_
    rw [hfirst g f hf]
    exact mem_cons_self
  · refine safe_of_one_fact id fun g f hf => ?_
    rw [hcleared g f hf]
    exact mem_cons_self
  · decide +kernel
  · intro g f hf
    rw [hcleared g f hf]
    decide
  · refine safe_of_one_fact id fun g f hf => ?_
    rcases mem_append.mp hf with hf | hf
    · rw [hcleared g f hf]
      exact mem_cons_self
    · rw [mem_singleton.mp (mem_of_mem_filter hf)]
      simp

/-- The same text in two languages, at the same place of a list. -/
def tagged (lang : String) (t : ℤ) : Flake OrdinaryValue :=
  { fact 1 t true with m := some ⟨some lang, some 0⟩ }

def english : Call OrdinaryValue := .applyCommit noGraphs [tagged "en" 1] 1

def french : Call OrdinaryValue := .applyCommit noGraphs [tagged "fr" 2] 2

def englishTrail : Trail OrdinaryValue :=
  (Trail.new 0).follow english ((new 0).accept sorts [(tagged "en" 1, 0)] 1)

def bothTrail : Trail OrdinaryValue :=
  englishTrail.follow french (englishTrail.novelty.accept sorts [(tagged "fr" 2, 0)] 2)

end Sample

open Sample

/-- A fact in the index that is retracted later. -/
theorem presence_eq_history_of_indexed_fact :
    retractedTrail.cutoffs = [1] ∧ retractedTrail.present 0 (fact 1 0 true) 1 = true ∧
      retractedTrail.present 0 (fact 1 0 true) 2 = false ∧
      ∀ toT, 1 ≤ toT → retractedTrail.present 0 (fact 1 0 true) toT =
        OpLog.presentAt (opsEq (fact 1 0 true) (retractedTrail.history 0)) toT := by
  refine ⟨rfl, by decide +kernel, by decide +kernel, fun toT htoT => ?_⟩
  exact presence_eq_history sorts 0 retractedTrail retractedTrail_reach 0 (fact 1 0 true) toT
    fun c hc => by rwa [mem_singleton.mp hc]

/-- The second of two facts at one place of a list, in different languages, is dropped. -/
theorem dedup_drops_other_language : ∃ tr : Trail OrdinaryValue,
    Reach (Trail.call sorts) (fun tr c _ => tr.Timely c) (Trail.new 0) tr ∧ tr.cutoffs = [] ∧
      tr.present 0 (tagged "fr" 2) 2 = false ∧
      OpLog.presentAt (opsEq (tagged "fr" 2) (tr.history 0)) 2 = true := by
  have hfirst : (Trail.new 0).call sorts english = .ok englishTrail := rfl
  have hsecond : englishTrail.call sorts french = .ok bothTrail := rfl
  refine ⟨bothTrail, Reach.step (Reach.step Reach.start hfirst ?_) hsecond ?_, rfl,
    by decide +kernel, by decide +kernel⟩
  · exact ⟨by decide +kernel, fun g f hf => by cases hf⟩
  · refine ⟨by decide +kernel, fun g f hf => ?_⟩
    obtain rfl := mem_singleton.mp (mem_of_mem_filter hf)
    decide

end FlureeDb.Novelty
