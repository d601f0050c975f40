import FlureeDb.Index.KWayMerge
import FlureeDb.Index.OverlayScan
import FlureeDb.Novelty.FactState

/-!
How the operations on one fact are resolved, in the three places that do it: the overlay of a
read, the state of novelty, and the merge of run streams into an index. The rule is that the
latest operation decides, and a retract at one time. The overlay and novelty keep to it in any
order of the operations. The merge looks at the time only and keeps the first of the latest.
-/

namespace FlureeDb.Index

open Lib BinaryCursor List OpLog NoveltyOp KWayMerge

def OverlayOp.event (o : OverlayOp) : ℤ × Bool := (o.t, o.op)

def sortOverlayOps (sort : UnstableSort) (order : RunSortOrder) (ops : List OverlayOp) :
    List OverlayOp :=
  sort.sort (fun a b => cmpV2ForOrder order a.key b.key) ops

/-- The scan over a run of operations on one fact, with the best one so far. -/
def resolveFrom : OverlayOp → List OverlayOp → List OverlayOp
  | best, [] => [best]
  | best, o :: ops =>
    if o.key = best.key then resolveFrom (if wins o.event best.event then o else best) ops
    else best :: resolveFrom o ops

def resolveOverlayOps : List OverlayOp → List OverlayOp
  | [] => []
  | o :: ops => resolveFrom o ops

section

variable {order : RunSortOrder}

def overlayEvents (key : FactKeyV3) (ops : List OverlayOp) : OpLog :=
  (ops.filter fun o => o.key = key).map OverlayOp.event

theorem overlayEvents_cons (key : FactKeyV3) (o : OverlayOp) (ops : List OverlayOp) :
    overlayEvents key (o :: ops) =
      if o.key = key then o.event :: overlayEvents key ops else overlayEvents key ops := by
  unfold overlayEvents
  split
  next h => rw [filter_cons_of_pos (by simpa using h), map_cons]
  next h => rw [filter_cons_of_neg (by simpa using h)]

/-- A run of one fact is replaced by the operation that decides it, in its place. -/
theorem resolveFrom_spec {best : OverlayOp} {ops : List OverlayOp}
    (hsorted : (best :: ops).Pairwise fun a b => a.key.sortKey order ≤ b.key.sortKey order) :
    OpsSorted order (resolveFrom best ops) ∧
      (∀ o ∈ resolveFrom best ops, best.key.sortKey order ≤ o.key.sortKey order) ∧
        ∀ key, overlayEvents key (resolveFrom best ops) =
          ((overlayEvents key (best :: ops)).foldl latest none).toList := by
  induction ops generalizing best with
  | nil =>
    refine ⟨pairwise_singleton _ _, by simp [resolveFrom], fun key => ?_⟩
    rw [resolveFrom, overlayEvents_cons]
    split
    · rfl
    · rfl
  | cons o ops ih =>
    obtain ⟨hbest, htail⟩ := pairwise_cons.mp hsorted
    obtain ⟨hlater, hops⟩ := pairwise_cons.mp htail
    rw [resolveFrom]
    by_cases hkey : o.key = best.key
    · rw [if_pos hkey]
      set best' := if wins o.event best.event then o else best with hbest'
      have hsame : best'.key = best.key := by
        rw [hbest']
        split
        · exact hkey
        · rfl
      have hevent : latest (some best.event) o.event = some best'.event := by
        rw [hbest', latest]
        split
        · rfl
        · rfl
      obtain ⟨hout, hle, hevents⟩ := @ih best' (pairwise_cons.mpr
        ⟨fun x hx => by rw [hsame]; exact hbest x (mem_cons_of_mem _ hx), hops⟩)
      rw [hsame] at hle
      refine ⟨hout, hle, fun key => ?_⟩
      rw [hevents, overlayEvents_cons, overlayEvents_cons, overlayEvents_cons, hsame, hkey]
      split
      · change (foldl _ (some best'.event) _).toList =
          (foldl _ (latest (some best.event) o.event) _).toList
        rw [hevent]
      · rfl
    · rw [if_neg hkey]
      obtain ⟨hout, hle, hevents⟩ := @ih o htail
      have hbefore : best.key.sortKey order < o.key.sortKey order :=
        lt_of_le_of_ne (hbest o mem_cons_self) fun heq =>
          hkey (FactKeyV3.sortKey_inj.mp heq).symm
      refine ⟨pairwise_cons.mpr ⟨fun x hx => hbefore.trans_le (hle x hx), hout⟩, ?_, ?_⟩
      · intro x hx
        rcases mem_cons.mp hx with rfl | hx
        · exact le_rfl
        · exact hbefore.le.trans (hle x hx)
      · intro key
        rw [overlayEvents_cons, hevents, overlayEvents_cons key best (o :: ops)]
        split
        next hbkey =>
          -- the fact of the first operation is behind none of the others
          have hnone : overlayEvents key (o :: ops) = [] := by
            rw [overlayEvents, map_eq_nil_iff, filter_eq_nil_iff]
            intro x hx hxkey
            rw [decide_eq_true_eq] at hxkey
            have hlt : best.key.sortKey order < x.key.sortKey order := by
              rcases mem_cons.mp hx with rfl | hx
              · exact hbefore
              · exact hbefore.trans_le (hlater x hx)
            rw [hbkey, hxkey] at hlt
            exact lt_irrefl _ hlt
          rw [hnone]
          rfl
        · rfl

/-- The resolved overlay is in order with one operation for each fact, the one that decides
it. -/
theorem resolveOverlayOps_spec (sort : UnstableSort) (order : RunSortOrder) (ops : List OverlayOp) :
    OpsSorted order (resolveOverlayOps (sortOverlayOps sort order ops)) ∧
      ∀ key, overlayEvents key (resolveOverlayOps (sortOverlayOps sort order ops)) =
        ((overlayEvents key ops).foldl latest none).toList := by
  have htrans : Std.TransCmp fun a b : OverlayOp => cmpV2ForOrder order a.key b.key :=
    @transCmp_of_compares OverlayOp (List ℕ) _ _ (fun o => o.key.sortKey order)
      fun a b => cmpV2_compares order a.key b.key
  have hsorted : (sortOverlayOps sort order ops).Pairwise fun a b =>
      a.key.sortKey order ≤ b.key.sortKey order :=
    (sort.sorted (fun a b : OverlayOp => cmpV2ForOrder order a.key b.key) ops).imp
      cmpV2_isLE.mp
  have hperm : (sortOverlayOps sort order ops).Perm ops := sort.perm _ ops
  have hevents : ∀ key, (overlayEvents key (sortOverlayOps sort order ops)).foldl latest none =
      (overlayEvents key ops).foldl latest none := by
    intro key
    exact foldl_latest_congr (fun op => ((hperm.filter _).map _).mem_iff) none
  cases hops : sortOverlayOps sort order ops with
  | nil =>
    refine ⟨Pairwise.nil, fun key => ?_⟩
    rw [← hevents, hops]
    rfl
  | cons =>
    rw [hops] at hsorted
    obtain ⟨hout, -, hresolved⟩ := resolveFrom_spec hsorted
    refine ⟨hout, fun key => ?_⟩
    rw [← hevents, hops]
    exact hresolved key

end

/-! ### The merge -/

def NoveltyOp.event (n : NoveltyOp) : ℤ × Bool := (n.t.val, n.op)

/-- The operations on a fact in the streams, stream by stream. -/
def streamEvents (key : FactKeyV3) (streams : List (List NoveltyOp)) : OpLog :=
  (ofFact key streams).map event

/-- What a merge gives for a fact. -/
def winnerEvents (key : FactKeyV3) (winners : List NoveltyOp) : OpLog :=
  (winners.filter fun n => n.key = key).map event

/-- The first of the latest operations is a retract, unless all of them are asserts. -/
def FirstLatestRules (log : OpLog) : Prop :=
  ∀ before cur after, log = before ++ cur :: after → (∀ op ∈ before, op.1 < cur.1) →
    (∀ op ∈ after, op.1 ≤ cur.1) → cur.2 = true → ∀ op ∈ after, op.1 = cur.1 → op.2 = true

section

variable {order : RunSortOrder}

theorem firstLatest_unique {before before' after after' : OpLog} {cur cur' : ℤ × Bool}
    (heq : before ++ cur :: after = before' ++ cur' :: after')
    (hbefore : ∀ op ∈ before, op.1 < cur.1) (hafter : ∀ op ∈ after, op.1 ≤ cur.1)
    (hbefore' : ∀ op ∈ before', op.1 < cur'.1) (hafter' : ∀ op ∈ after', op.1 ≤ cur'.1) :
    cur = cur' ∧ after = after' := by
  wlog hle : before.length ≤ before'.length generalizing before before' after after' cur cur'
  · obtain ⟨rfl, rfl⟩ := this heq.symm hbefore' hafter' hbefore hafter (Nat.le_of_not_le hle)
    exact ⟨rfl, rfl⟩
  obtain ⟨mid, rfl⟩ : before <+: before' :=
    prefix_of_prefix_length_le ⟨_, heq⟩ (prefix_append _ _) hle
  rw [append_assoc, append_cancel_left_eq] at heq
  cases mid with
  | nil => exact cons_eq_cons.mp heq
  | cons =>
    obtain ⟨rfl, rfl⟩ := cons_eq_cons.mp heq
    have hlt := hbefore' cur (by simp)
    have hle := hafter cur' (by simp)
    omega

/-- The winner decides its fact exactly if the first of the latest does. -/
theorem firstLatest_decides_iff (first : NoveltyOp) (rest : List NoveltyOp) :
    OpLog.Decides ((first :: rest).map event) (firstLatest first rest).event ↔
      FirstLatestRules ((first :: rest).map event) := by
  obtain ⟨before, after, hsplit, hbefore, hafter⟩ := firstLatest_split first rest
  generalize firstLatest first rest = winner at hsplit hbefore hafter ⊢
  have hevents : (first :: rest).map event =
      before.map event ++ winner.event :: after.map event := by
    rw [hsplit, map_append, map_cons]
  have hearlier : ∀ op ∈ before.map event, op.1 < winner.event.1 := by
    intro op hop
    obtain ⟨n, hn, rfl⟩ := mem_map.mp hop
    exact Int.ofNat_lt.mpr (hbefore n hn)
  have hlater : ∀ op ∈ after.map event, op.1 ≤ winner.event.1 := by
    intro op hop
    obtain ⟨n, hn, rfl⟩ := mem_map.mp hop
    exact Int.ofNat_le.mpr (hafter n hn)
  rw [hevents]
  constructor
  · rintro ⟨-, hbelow⟩ before' cur after' heq hbefore' hafter' hcur op hop htime
    obtain ⟨rfl, rfl⟩ := firstLatest_unique heq hearlier hlater hbefore' hafter'
    rcases hbelow op (by simp [hop]) with hlt | ⟨-, himp⟩
    · omega
    · exact himp hcur
  · intro hrules
    refine ⟨by simp, fun op hop => ?_⟩
    rcases mem_append.mp hop with hop | hop
    · exact .inl (hearlier op hop)
    · rcases mem_cons.mp hop with rfl | hop
      · exact Below.refl _
      · rcases (hlater op hop).lt_or_eq with hlt | heq
        · exact .inl hlt
        · exact .inr ⟨heq, fun hwinner => hrules _ _ _ rfl hearlier hlater hwinner op hop heq⟩

/-- What the merge gives for a fact: the first of the latest, if the fact has records. -/
theorem winnerEvents_merged {streams : List (List NoveltyOp)}
    (hsorted : ∀ stream ∈ streams, NoveltySorted order stream) (key : FactKeyV3) :
    (ofFact key streams = [] ∧ winnerEvents key ((merged order streams).map Prod.fst) = []) ∨
      ∃ first rest, ofFact key streams = first :: rest ∧
        winnerEvents key ((merged order streams).map Prod.fst) = [(firstLatest first rest).event] := by
  obtain ⟨hpairs, hgroups, hall⟩ := merged_spec hsorted
  have hgroup : ∀ g ∈ merged order streams, g.1.key = key → ∃ first rest,
      ofFact key streams = first :: rest ∧ g.1 = firstLatest first rest := by
    intro g hg hkey
    obtain ⟨first, rest, hof, hwinner, -⟩ := hgroups g hg
    rw [hkey] at hof
    exact ⟨first, rest, hof, hwinner⟩
  cases hof : ofFact key streams with
  | nil =>
    refine .inl ⟨rfl, ?_⟩
    rw [winnerEvents, map_eq_nil_iff, filter_eq_nil_iff]
    intro n hn hkey
    obtain ⟨g, hg, rfl⟩ := mem_map.mp hn
    obtain ⟨first, rest, hof', -⟩ := hgroup g hg (by simpa using hkey)
    rw [hof] at hof'
    cases hof'
  | cons first rest =>
    refine .inr ⟨first, rest, rfl, ?_⟩
    have hfirst : first ∈ ofFact key streams := by rw [hof]; exact mem_cons_self
    obtain ⟨g, hg, hkey⟩ := hall first (mem_of_mem_filter hfirst)
    rw [key_of_mem_ofFact hfirst] at hkey
    -- the keys increase, so no other result is of the fact
    have hfilter : ((merged order streams).map Prod.fst).filter (fun n => n.key = key) = [g.1] := by
      obtain ⟨before, after, hsplit⟩ := append_of_mem hg
      rw [hsplit] at hpairs ⊢
      obtain ⟨-, hafter, hbefore⟩ := pairwise_append.mp hpairs
      obtain ⟨hafter, -⟩ := pairwise_cons.mp hafter
      have hnone : ∀ gs : List (NoveltyOp × List NoveltyOp), (∀ x ∈ gs, x.1.key ≠ key) →
          (gs.map Prod.fst).filter (fun n => n.key = key) = [] := by
        intro gs hgs
        rw [filter_eq_nil_iff]
        intro n hn
        obtain ⟨x, hx, rfl⟩ := mem_map.mp hn
        simpa using hgs x hx
      rw [map_append, map_cons, filter_append,
        filter_cons_of_pos (by simpa using hkey), hnone before, hnone after]
      · rfl
      · intro x hx heq
        have hlt := hafter x hx
        rw [heq, hkey] at hlt
        exact lt_irrefl _ hlt
      · intro x hx heq
        have hlt := hbefore x hx g mem_cons_self
        rw [heq, hkey] at hlt
        exact lt_irrefl _ hlt
    obtain ⟨first', rest', hof', hwinner⟩ := hgroup g hg hkey
    rw [hof] at hof'
    obtain ⟨rfl, rfl⟩ := cons_eq_cons.mp hof'
    rw [winnerEvents, hfilter, hwinner]
    rfl

end

/-! ### One rule -/

/-- All three resolve the operations that the streams have on a fact to what decides them: the
overlay and the state of novelty when they are given the same operations in any order, and the
merge of the streams with and without history. -/
def OneRule (sort : UnstableSort) (order : RunSortOrder) (streams : List (List NoveltyOp))
    (key : FactKeyV3) : Prop :=
  ∃ decided : Option (ℤ × Bool),
    (∀ cur, decided = some cur ↔ OpLog.Decides (streamEvents key streams) cur) ∧
      (∀ ops, (overlayEvents key ops).Perm (streamEvents key streams) →
        overlayEvents key (resolveOverlayOps (sortOverlayOps sort order ops)) = decided.toList) ∧
        (∀ (V : Type) (_ : Core.ObjectValue V) (g : ℕ) (f : Core.Flake V)
          (flakes : List (Core.Flake V)),
          (Novelty.opsOf f flakes).Perm (streamEvents key streams) →
            (Novelty.FactState.new.recordAll g flakes).get g f = decided) ∧
          winnerEvents key (mergedDeduped order streams) = decided.toList ∧
            winnerEvents key ((merged order streams).map Prod.fst) = decided.toList

/-- The rule is one for a fact exactly if the first of its latest operations, stream by stream,
is a retract or all of them are asserts. -/
theorem one_rule_iff (sort : UnstableSort) {order : RunSortOrder} {streams : List (List NoveltyOp)}
    (hsorted : ∀ stream ∈ streams, NoveltySorted order stream) (key : FactKeyV3) :
    OneRule sort order streams key ↔ FirstLatestRules (streamEvents key streams) := by
  have hmerged := winnerEvents_merged hsorted key
  constructor
  · rintro ⟨decided, hdecided, -, -, -, hwinner⟩
    rcases hmerged with ⟨hnone, -⟩ | ⟨first, rest, hof, hout⟩
    · rw [streamEvents, hnone]
      intro before cur after heq
      simp at heq
    · rw [hout] at hwinner
      have hsome : decided = some (firstLatest first rest).event := by
        cases decided with
        | none => cases hwinner
        | some => exact congrArg some (singleton_inj.mp hwinner).symm
      rw [streamEvents, hof]
      rw [streamEvents, hof] at hdecided
      exact (firstLatest_decides_iff first rest).mp ((hdecided _).mp hsome)
  · intro hrules
    have hwinner : winnerEvents key ((merged order streams).map Prod.fst) =
        ((streamEvents key streams).foldl latest none).toList := by
      rcases hmerged with ⟨hnone, hout⟩ | ⟨first, rest, hof, hout⟩
      · rw [hout, streamEvents, hnone]
        rfl
      · rw [streamEvents, hof] at hrules ⊢
        have hlatest : ((first :: rest).map event).foldl latest none = _ :=
          foldl_latest_iff.mpr ((firstLatest_decides_iff first rest).mpr hrules)
        rw [hout, hlatest]
        rfl
    refine ⟨(streamEvents key streams).foldl latest none, fun cur => foldl_latest_iff,
      fun ops hperm => ?_, fun V _ g f flakes hperm => ?_, ?_, hwinner⟩
    · rw [(resolveOverlayOps_spec sort order ops).2,
        foldl_latest_congr (fun op => hperm.mem_iff)]
    · rw [Novelty.FactState.get_recordAll, ← foldl_latest_congr (fun op => hperm.mem_iff)]
      rfl
    · rw [mergedDeduped_eq]
      exact hwinner

open Sample
open UnstableSort (insertionSort)

/-- An assert and a retract at one time, the retract in the first stream. -/
theorem one_rule_of_retract_first :
    OneRule insertionSort .spot [[novel 0 1 1 2 false], [novel 0 1 1 1 true, novel 0 1 1 2 true]]
      (key 1 1) := by
  refine (one_rule_iff insertionSort (by unfold NoveltySorted; decide) (key 1 1)).mpr ?_
  intro before cur after heq hbefore hafter hcur
  have hevents : streamEvents (key 1 1)
      [[novel 0 1 1 2 false], [novel 0 1 1 1 true, novel 0 1 1 2 true]] =
        [(2, false), (1, true), (2, true)] := by decide
  rw [hevents] at heq
  cases before with
  | nil =>
    obtain ⟨rfl, -⟩ := cons_eq_cons.mp heq
    cases hcur
  | cons =>
    obtain ⟨rfl, hrest⟩ := cons_eq_cons.mp heq
    have hlt := hbefore (2, false) mem_cons_self
    have hmem : cur ∈ [((1 : ℤ), true), (2, true)] := by rw [hrest]; simp
    rcases mem_pair.mp hmem with rfl | rfl
    · exact absurd hlt (by decide)
    · exact absurd hlt (by decide)

/-- The retract is in the second stream: the merge keeps the assert, the overlay the retract. -/
theorem merge_keeps_assert_of_tie :
    winnerEvents (key 1 1) (mergedDeduped .spot
        [[novel 0 1 1 2 true], [novel 0 1 1 2 false]]) = [(2, true)] ∧
      overlayEvents (key 1 1) (resolveOverlayOps (sortOverlayOps insertionSort .spot
        [⟨key 1 1, 2, true⟩, ⟨key 1 1, 2, false⟩])) = [(2, false)] ∧
        ¬OneRule insertionSort .spot [[novel 0 1 1 2 true], [novel 0 1 1 2 false]] (key 1 1) := by
  have hmerge : winnerEvents (key 1 1) (mergedDeduped .spot
      [[novel 0 1 1 2 true], [novel 0 1 1 2 false]]) = [(2, true)] := by decide
  have hoverlay : overlayEvents (key 1 1) (resolveOverlayOps (sortOverlayOps insertionSort .spot
      [⟨key 1 1, 2, true⟩, ⟨key 1 1, 2, false⟩])) = [(2, false)] := by decide
  refine ⟨hmerge, hoverlay, ?_⟩
  rintro ⟨decided, -, hresolved, -, hdeduped, -⟩
  have hsame := (hresolved _ (Perm.of_eq (by decide))).symm.trans hoverlay
  rw [← hdeduped] at hsame
  exact absurd hsame (by decide)

end FlureeDb.Index
