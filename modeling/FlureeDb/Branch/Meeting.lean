import Mathlib.Data.Finset.Max
import FlureeDb.Branch.Ancestor

/-!
When the search for a common ancestor finds the right commit. A side has seen a commit once it has
expanded a child of it, so that the commits both sides have seen by the time they are down to some
time are said by the graph. The search returns one of the first that both have seen, whatever is
behind it; and if there is none, it ends only if the second side does not run dry before the first.
-/

namespace FlureeDb.Branch

open FlureeDb.Core Lib List CommitDag.Reaches Lib.Reaches

variable {Id V : Type} [DecidableEq Id] {dag : CommitDag Id V} {other : List Id}

section

variable (dag)

/-- A side that has expanded its commits down to the time has seen the commit. -/
def SeenBy (head : Id) (time : ℤ) (c : Id) : Prop :=
  c = head ∨ ∃ x, dag.Reaches head x ∧ c ∈ dag.parents x ∧ time ≤ dag.t x

/-- Both sides have seen the commit by then. -/
def SeenByBoth (a b : Id) (time : ℤ) (c : Id) : Prop := SeenBy dag a time c ∧ SeenBy dag b time c

/-- At the time the first side expands a child of the commit, which the other has seen before. -/
def MetBy (a b : Id) (time : ℤ) (c : Id) : Prop :=
  (∃ x, dag.Reaches a x ∧ c ∈ dag.parents x ∧ dag.t x = time) ∧ SeenBy dag b (time + 1) c

end

section

variable {head c x : Id} {time time' : ℤ}

omit [DecidableEq Id] in
theorem SeenBy.mono (h : SeenBy dag head time' c) (hle : time ≤ time') : SeenBy dag head time c :=
  h.imp_right fun ⟨x, hx, hc, ht⟩ => ⟨x, hx, hc, hle.trans ht⟩

omit [DecidableEq Id] in
theorem SeenBy.reaches (h : SeenBy dag head time c) : dag.Reaches head c := by
  obtain rfl | ⟨x, hx, hc, -⟩ := h
  · exact refl ..
  · exact tail hx hc

end

namespace Side

/-- How many commits can still be expanded. -/
def pending (dag : CommitDag Id V) (side : Side Id) : ℕ :=
  (dag.ids.toFinset \ side.expanded.toFinset).card

theorem pending_le (side : Side Id) : side.pending dag ≤ dag.ids.length :=
  (Finset.card_le_card Finset.sdiff_subset).trans (toFinset_card_le _)

variable {head : Id} {side side' : Side Id} {e : ℤ × Id} {new : List Id}

theorem Expands.pending_lt (h : Expands dag side e new side') (hinv : Inv dag head side)
    (hhead : head ∈ dag.ids) : side'.pending dag < side.pending dag := by
  have he : e.2 ∈ dag.ids :=
    mem_ids (hinv.sound _ (hinv.seen e h.mem)) hhead
  have heq : side'.expanded.toFinset = insert e.2 side.expanded.toFinset := by
    ext x
    simp [h.mem_expanded hinv]
  rw [pending, heq, Finset.sdiff_insert]
  refine Finset.card_erase_lt_of_mem ?_
  rw [Finset.mem_sdiff, mem_toFinset, mem_toFinset, Side.mem_expanded]
  exact ⟨he, fun hout => hout.2 (mem_map_of_mem h.mem)⟩

section

variable (hinv : Inv dag head side) (hhead : head ∈ dag.ids)

include hinv

theorem frontier_of_expands (hdag : dag.Increasing) (hhead : head ∈ dag.ids)
    (h : Expands dag side e new side') {e' : ℤ × Id} (he' : e' ∈ side'.frontier) :
    ∃ e'' ∈ side.frontier, e'.1 ≤ e''.1 := by
  rw [h.perm.mem_iff, mem_append, mem_map] at he'
  obtain he' | ⟨p, hp, rfl⟩ := he'
  · exact ⟨e', mem_of_mem_erase he', le_rfl⟩
  · have hin := mem_ids (hinv.sound _ (hinv.seen e h.mem)) hhead
    have hlt := hdag e.2 hin p (h.mem_new.mp hp).1
    rw [← hinv.entry e h.mem] at hlt
    exact ⟨e, h.mem, hlt.le⟩

variable {c : Id} {time : ℤ}

/-- A side whose entries are all below the time has seen what it has to have seen by then. -/
theorem Inv.mem_visited (hdag : dag.Increasing) (hhead : head ∈ dag.ids)
    (hbelow : ∀ e ∈ side.frontier, e.1 < time) (hc : SeenBy dag head time c) : c ∈ side.visited := by
  obtain rfl | ⟨x, hx, hparent, hlate⟩ := hc
  · exact hinv.head_mem
  · refine hinv.closed x (mem_expanded.mpr ⟨by_contra fun hnew => ?_, fun hin => ?_⟩) c hparent
    · obtain ⟨e, he, hreach, hne⟩ := hinv.behind hx hnew
      have hin := mem_ids (hinv.sound _ (hinv.seen e he)) hhead
      have hlt := (hdag.t_lt hin hreach).resolve_left (symm hne)
      rw [← hinv.entry e he] at hlt
      exact absurd (hbelow e he) (not_lt.mpr (hlate.trans hlt.le))
    · obtain ⟨e, he, rfl⟩ := mem_map.mp hin
      rw [← hinv.entry e he] at hlate
      exact absurd (hbelow e he) (not_lt.mpr hlate)

/-- A side that has only expanded commits from the time on has seen no more. -/
theorem Inv.seenBy (hlate : ∀ x ∈ side.expanded, time ≤ dag.t x) (hc : c ∈ side.visited) :
    SeenBy dag head time c :=
  (hinv.origin c hc).imp_right fun ⟨y, hy, hparent⟩ =>
    ⟨y, hinv.sound y (mem_expanded.mp hy).1, hparent, hlate y hy⟩

theorem mem_expanded_of_dry (hdry : side.frontier = []) {x : Id} (hx : dag.Reaches head x) :
    x ∈ side.expanded := by
  rw [mem_expanded, hdry]
  refine ⟨by_contra fun hnew => ?_, not_mem_nil⟩
  obtain ⟨e, he, -⟩ := hinv.behind hx hnew
  rw [hdry] at he
  cases he

end

/-! ### Advancing a side -/

/-- Advancing finds the first new commit that the other side has seen. -/
theorem match_advanceFrontier (h : side.expand dag = some (e, new, side')) {α : Type}
    (found : CommonAncestor Id → α) (next : Side Id → α) :
    (match advanceFrontier dag side other with
      | (some ancestor, _) => found ancestor
      | (none, side) => next side) =
      match new.find? fun p => decide (p ∈ other) with
      | some p => found ⟨p, dag.t p⟩
      | none => next side' := by
  obtain ⟨taken, htaken, heq⟩ := Option.map_eq_some_iff.mp h
  obtain ⟨-, rfl, rfl⟩ := heq
  unfold advanceFrontier
  rw [htaken]
  exact match_scanParents ..

theorem advanceFrontier_of_dry (hdry : side.frontier = []) :
    advanceFrontier dag side other = (none, side) := by
  unfold advanceFrontier
  rw [popMax_eq_none.mpr hdry]

theorem maxT_of_expand (h : side.expand dag = some (e, new, side')) :
    maxT side.frontier = some e.1 :=
  maxT_eq_some.mpr ⟨⟨e, (expands_of_expand h).mem, rfl⟩, (expands_of_expand h).latest⟩

end Side

/-- The two sides before they meet: what the second has expanded is later than all that the first
has left, and what the first has expanded is not earlier than what the second has left. -/
structure Apart (dag : CommitDag Id V) (a b : Id) (sideA sideB : Side Id) : Prop where
  invA : Side.Inv dag a sideA
  invB : Side.Inv dag b sideB
  disjoint : ∀ x ∈ sideA.visited, x ∉ sideB.visited
  ahead : ∀ x ∈ sideB.expanded, ∀ e ∈ sideA.frontier, e.1 < dag.t x
  level : ∀ x ∈ sideA.expanded, ∀ e ∈ sideB.frontier, e.1 ≤ dag.t x

variable {p x : Id} {y : Id}

section

variable {a b : Id} {sideA sideB sideA' sideB' : Side Id} {e : ℤ × Id} {new seen : List Id}

theorem apart_start (hne : a ≠ b) : Apart dag a b (Side.start dag a) (Side.start dag b) where
  invA := Side.inv_start a
  invB := Side.inv_start b
  disjoint x hx hx' := by
    rw [Side.start, mem_singleton] at hx hx'
    exact hne (hx.symm.trans hx')
  ahead x hx := by
    rw [Side.mem_expanded] at hx
    exact absurd hx.1 hx.2
  level x hx := by
    rw [Side.mem_expanded] at hx
    exact absurd hx.1 hx.2

/-- A round in which one side expands a commit. The other has nothing later, and has seen
`seen`. -/
inductive Turn (dag : CommitDag Id V) (sideA sideB : Side Id) (e : ℤ × Id) (new : List Id) :
    Side Id → Side Id → List Id → Prop
  | first {side' : Side Id} (h : sideA.expand dag = some (e, new, side'))
      (hB : sideB.frontier ≠ []) (hle : ∀ e' ∈ sideB.frontier, e'.1 ≤ e.1) :
      Turn dag sideA sideB e new side' sideB sideB.visited
  | second {side' : Side Id} (h : sideB.expand dag = some (e, new, side'))
      (hlate : ∀ e' ∈ sideA.frontier, e'.1 < e.1) :
      Turn dag sideA sideB e new sideA side' sideA.visited

/-- How a round goes, by which side has entries left and which has the later one. -/
inductive Round (dag : CommitDag Id V) (sideA sideB : Side Id) : Prop
  | dry (hA : sideA.frontier = []) (hB : sideB.frontier = [])
  | turn {e : ℤ × Id} {new seen : List Id} {sideA' sideB' : Side Id}
      (h : Turn dag sideA sideB e new sideA' sideB' seen)
  | stuck (hA : sideA.frontier ≠ []) (hB : sideB.frontier = [])

variable (dag) in
theorem round_cases (sideA sideB : Side Id) : Round dag sideA sideB := by
  cases hB : sideB.expand dag with
  | none =>
    have hdry := Side.expand_eq_none.mp hB
    by_cases hA : sideA.frontier = []
    · exact .dry hA hdry
    · exact .stuck hA hdry
  | some taken =>
    obtain ⟨eB, newB, sideB'⟩ := taken
    have hexpB := Side.expands_of_expand hB
    cases hA : sideA.expand dag with
    | none =>
      refine .turn (.second hB fun e' he' => ?_)
      rw [Side.expand_eq_none.mp hA] at he'
      cases he'
    | some taken =>
      obtain ⟨eA, newA, sideA'⟩ := taken
      by_cases hle : eB.1 ≤ eA.1
      · exact .turn (.first hA (ne_nil_of_mem hexpB.mem) fun e' he' =>
          (hexpB.latest e' he').trans hle)
      · exact .turn (.second hB fun e' he' =>
          ((Side.expands_of_expand hA).latest e' he').trans_lt (not_le.mp hle))

theorem find?_eq_none_iff_new :
    new.find? (fun p => decide (p ∈ other)) = none ↔ ∀ p ∈ new, p ∉ other := by
  simp

theorem searchLoop_over (hA : sideA.frontier = []) (hB : sideB.frontier = []) (fuel : ℕ) :
    searchLoop dag (fuel + 1) sideA sideB = some (.error noCommonAncestor) := by
  rw [searchLoop, if_pos ⟨maxT_eq_none.mpr hA, maxT_eq_none.mpr hB⟩]

theorem searchLoop_stuck (hA : sideA.frontier ≠ []) (hB : sideB.frontier = []) (fuel : ℕ) :
    searchLoop dag (fuel + 1) sideA sideB = searchLoop dag fuel sideA sideB := by
  have hadvance : firstAdvances sideA sideB = false := by
    unfold firstAdvances
    rw [maxT_eq_none.mpr hB]
    split
    next h => cases h
    next => rfl
  rw [searchLoop, if_neg (fun h => hA (maxT_eq_none.mp h.1)), if_neg (by simp [hadvance]),
    Side.advanceFrontier_of_dry hB]

namespace Turn

variable (h : Turn dag sideA sideB e new sideA' sideB' seen)

include h

theorem searchLoop (fuel : ℕ) :
    searchLoop dag (fuel + 1) sideA sideB =
      match new.find? fun p => decide (p ∈ seen) with
      | some p => some (.ok ⟨p, dag.t p⟩)
      | none => searchLoop dag fuel sideA' sideB' := by
  cases h with
  | @first side' h hB hle =>
    have hmax := Side.maxT_of_expand h
    have hadvance : firstAdvances sideA sideB = true := by
      obtain ⟨tb, htb⟩ := Option.ne_none_iff_exists'.mp (mt maxT_eq_none.mp hB)
      unfold firstAdvances
      rw [hmax, htb]
      obtain ⟨⟨e', he', rfl⟩, -⟩ := maxT_eq_some.mp htb
      exact decide_eq_true (hle e' he')
    rw [searchLoop, if_neg (by simp [hmax]), if_pos hadvance]
    exact Side.match_advanceFrontier h _ (searchLoop dag fuel · sideB)
  | @second side' h hlate =>
    have hmax := Side.maxT_of_expand h
    have hadvance : firstAdvances sideA sideB = false := by
      unfold firstAdvances
      rw [hmax]
      cases hA : maxT sideA.frontier with
      | none => rfl
      | some ta =>
        obtain ⟨⟨e', he', rfl⟩, -⟩ := maxT_eq_some.mp hA
        exact decide_eq_false (not_le.mpr (hlate e' he'))
    rw [searchLoop, if_neg (by simp [hmax]), if_neg (by simp [hadvance])]
    exact Side.match_advanceFrontier h _ (searchLoop dag fuel sideA)

theorem inv (hA : Side.Inv dag a sideA) (hB : Side.Inv dag b sideB) :
    Side.Inv dag a sideA' ∧ Side.Inv dag b sideB' := by
  cases h with
  | first h => exact ⟨(Side.expands_of_expand h).inv hA, hB⟩
  | second h => exact ⟨hA, (Side.expands_of_expand h).inv hB⟩

/-- What is new was reached from the head of the side that expands, what is seen from the other. -/
theorem common (hA : Side.Inv dag a sideA) (hB : Side.Inv dag b sideB) (hp : p ∈ new)
    (hseen : p ∈ seen) : dag.Reaches a p ∧ dag.Reaches b p := by
  obtain ⟨hA', hB'⟩ := h.inv hA hB
  cases h with
  | first h =>
    exact ⟨hA'.sound p ((Side.expands_of_expand h).mem_visited.mpr (.inl hp)), hB.sound p hseen⟩
  | second h =>
    exact ⟨hA.sound p hseen, hB'.sound p ((Side.expands_of_expand h).mem_visited.mpr (.inl hp))⟩

variable (hapart : Apart dag a b sideA sideB) (ha : a ∈ dag.ids) (hb : b ∈ dag.ids)

include hapart ha hb

theorem apart (hdag : dag.Increasing) (hnew : ∀ p ∈ new, p ∉ seen) : Apart dag a b sideA' sideB' := by
  obtain ⟨hA', hB'⟩ := h.inv hapart.invA hapart.invB
  cases h with
  | @first side' h _ hle =>
    have hexp := Side.expands_of_expand h
    refine ⟨hA', hB', fun x hx => ?_, fun x hx e' he' => ?_, fun x hx e' he' => ?_⟩
    · obtain hx | hx := hexp.mem_visited.mp hx
      · exact hnew x hx
      · exact hapart.disjoint x hx
    · obtain ⟨e'', he'', hle⟩ := Side.frontier_of_expands hapart.invA hdag ha hexp he'
      exact hle.trans_lt (hapart.ahead x hx e'' he'')
    · obtain rfl | hx := (hexp.mem_expanded hapart.invA).mp hx
      · rw [← hapart.invA.entry e hexp.mem]
        exact hle e' he'
      · exact hapart.level x hx e' he'
  | @second side' h hlate =>
    have hexp := Side.expands_of_expand h
    refine ⟨hA', hB', fun x hx hx' => ?_, fun x hx e' he' => ?_, fun x hx e' he' => ?_⟩
    · obtain hx' | hx' := hexp.mem_visited.mp hx'
      · exact hnew x hx' hx
      · exact hapart.disjoint x hx hx'
    · obtain rfl | hx := (hexp.mem_expanded hapart.invB).mp hx
      · rw [← hapart.invB.entry e hexp.mem]
        exact hlate e' he'
      · exact hapart.ahead x hx e' he'
    · obtain ⟨e'', he'', hle⟩ := Side.frontier_of_expands hapart.invB hdag hb hexp he'
      exact hle.trans (hapart.level x hx e'' he'')

theorem pending_lt :
    sideA'.pending dag + sideB'.pending dag < sideA.pending dag + sideB.pending dag := by
  cases h with
  | first h => exact Nat.add_lt_add_right ((Side.expands_of_expand h).pending_lt hapart.invA ha) _
  | second h => exact Nat.add_lt_add_left ((Side.expands_of_expand h).pending_lt hapart.invB hb) _

end Turn

/-! ### What the search meets -/

/-- The search returns a commit at a time: a parent of a commit of that time on one side that the
other side has seen, and the first of the parents if the other has seen that one. The first side
comes first. -/
inductive Meets (dag : CommitDag Id V) (a b : Id) (time : ℤ) (p : Id) : Prop
  | first (x : Id) (reaches : dag.Reaches a x) (t_eq : dag.t x = time) (parent : p ∈ dag.parents x)
      (seen : SeenBy dag b (time + 1) p)
      (head : ∀ c ∈ (dag.parents x).head?, SeenBy dag b (time + 1) c → c = p)
  | second (x : Id) (reaches : dag.Reaches b x) (t_eq : dag.t x = time) (parent : p ∈ dag.parents x)
      (seen : SeenBy dag a time p) (none_first : ∀ c, ¬ MetBy dag a b time c)
      (head : ∀ c ∈ (dag.parents x).head?, SeenBy dag a time c → c = p)

omit [DecidableEq Id] in
theorem Meets.seenByBoth {time : ℤ} (h : Meets dag a b time p) : SeenByBoth dag a b time p := by
  cases h with
  | first x hx ht hp hseen => exact ⟨.inr ⟨x, hx, hp, ht.ge⟩, hseen.mono (by omega)⟩
  | second x hx ht hp hseen => exact ⟨hseen, .inr ⟨x, hx, hp, ht.ge⟩⟩

/-- The first parent is new if it was not seen, and then it is found if the other has seen it. -/
theorem find?_fresh_head {visited parents : List Id} {c : Id} (hc : c ∈ parents.head?)
    (hnew : c ∉ visited) (hseen : c ∈ seen)
    (hfind : (fresh visited parents).find? (fun p => decide (p ∈ seen)) = some p) : c = p := by
  cases parents with
  | nil => cases hc
  | cons d rest =>
    obtain rfl : d = c := Option.some.inj hc
    rw [fresh, if_neg hnew, find?_cons_of_pos (by simpa using hseen)] at hfind
    exact Option.some.inj hfind

variable (hdag : dag.Increasing) (ha : a ∈ dag.ids) (hb : b ∈ dag.ids)
  (hapart : Apart dag a b sideA sideB)

include hdag ha hb hapart

/-- A turn that finds a commit meets it, and no commit was seen by both before. -/
theorem Turn.meets (h : Turn dag sideA sideB e new sideA' sideB' seen)
    (hfind : new.find? (fun p => decide (p ∈ seen)) = some p) :
    (∀ c, ¬ SeenByBoth dag a b (e.1 + 1) c) ∧ Meets dag a b e.1 p := by
  have hseen : p ∈ seen := by simpa using find?_some hfind
  have hp : p ∈ new := mem_of_find?_eq_some hfind
  cases h with
  | @first side' h hB hle =>
    have hexp := Side.expands_of_expand h
    have hbelow : ∀ e' ∈ sideA.frontier, e'.1 < e.1 + 1 := fun e' he' =>
      Int.lt_add_one_of_le (hexp.latest e' he')
    have hbelow' : ∀ e' ∈ sideB.frontier, e'.1 < e.1 + 1 := fun e' he' =>
      Int.lt_add_one_of_le (hle e' he')
    have hseenA := fun c => hapart.invA.mem_visited hdag ha hbelow (c := c)
    have hseenB := fun c => hapart.invB.mem_visited hdag hb hbelow' (c := c)
    refine ⟨fun c hc => hapart.disjoint c (hseenA c hc.1) (hseenB c hc.2), ?_⟩
    refine .first e.2 (hapart.invA.sound _ (hapart.invA.seen e hexp.mem))
      (hapart.invA.entry e hexp.mem).symm (hexp.mem_new.mp hp).1
      (hapart.invB.seenBy (fun x hx => hapart.ahead x hx e hexp.mem) hseen) fun c hc hcB => ?_
    rw [hexp.new_eq] at hfind
    exact find?_fresh_head hc (fun hcA => hapart.disjoint c hcA (hseenB c hcB)) (hseenB c hcB) hfind
  | @second side' h hlate =>
    have hexp := Side.expands_of_expand h
    have hbelow : ∀ e' ∈ sideB.frontier, e'.1 < e.1 + 1 := fun e' he' =>
      Int.lt_add_one_of_le (hexp.latest e' he')
    have hseenA := fun c => hapart.invA.mem_visited hdag ha hlate (c := c)
    have hseenB := fun c => hapart.invB.mem_visited hdag hb hbelow (c := c)
    refine ⟨fun c hc => hapart.disjoint c (hseenA c (hc.1.mono (by omega))) (hseenB c hc.2), ?_⟩
    refine .second e.2 (hapart.invB.sound _ (hapart.invB.seen e hexp.mem))
      (hapart.invB.entry e hexp.mem).symm (hexp.mem_new.mp hp).1
      (hapart.invA.seenBy (fun x hx => hapart.level x hx e hexp.mem) hseen) ?_ fun c hc hcA => ?_
    · rintro c ⟨⟨x, hx, hparent, ht⟩, hcB⟩
      exact hapart.disjoint c (hseenA c (.inr ⟨x, hx, hparent, ht.ge⟩)) (hseenB c hcB)
    · rw [hexp.new_eq] at hfind
      exact find?_fresh_head hc (fun hcB => hapart.disjoint c (hseenA c hcA) hcB) (hseenA c hcA) hfind

omit hb in
/-- If the second side is dry, the two sides share nothing. -/
theorem not_common_of_dry (hB : sideB.frontier = []) (hA : dag.Reaches a x)
    (hx : dag.Reaches b x) : False := by
  have hin := Side.mem_expanded_of_dry hapart.invB hB hx
  have hnew : x ∉ sideA.visited := fun hin' =>
    hapart.disjoint x hin' (Side.mem_expanded.mp hin).1
  obtain ⟨e, he, hbehind, hne⟩ := hapart.invA.behind hA hnew
  have hlow := (hdag.t_lt (mem_ids (hapart.invA.sound _ (hapart.invA.seen e he)) ha)
    hbehind).resolve_left (symm hne)
  rw [← hapart.invA.entry e he] at hlow
  exact lt_asymm hlow (hapart.ahead x hin e he)

/-- Two heads that share an ancestor: the search ends, with a commit that it meets. -/
theorem searchLoop_meets (hA : dag.Reaches a x) (hB : dag.Reaches b x) (fuel : ℕ)
    (hfuel : sideA.pending dag + sideB.pending dag < fuel) :
    ∃ p time, searchLoop dag fuel sideA sideB = some (.ok ⟨p, dag.t p⟩) ∧
      (∀ c, ¬ SeenByBoth dag a b (time + 1) c) ∧ Meets dag a b time p := by
  induction fuel generalizing sideA sideB with
  | zero => omega
  | succ fuel ih =>
    cases round_cases dag sideA sideB with
    | dry _ hdry | stuck _ hdry => exact (not_common_of_dry hdag ha hapart hdry hA hB).elim
    | @turn e new seen sideA' sideB' h =>
      rw [h.searchLoop]
      cases hfind : new.find? fun p => decide (p ∈ seen) with
      | some p => exact ⟨p, e.1, rfl, h.meets hdag ha hb hapart hfind⟩
      | none =>
        have hlt := h.pending_lt hapart ha hb
        have hnew := find?_eq_none_iff_new.mp hfind
        exact ih (h.apart hapart ha hb hdag hnew) (by omega)

omit hdag ha hb hapart

def Common (dag : CommitDag Id V) (a b c : Id) : Prop := dag.Reaches a c ∧ dag.Reaches b c

/-- The second head has an ancestor that is not later than any of the first. -/
def Bottoms (dag : CommitDag Id V) (a b : Id) : Prop :=
  ∃ x, dag.Reaches b x ∧ ∀ y, dag.Reaches a y → dag.t x ≤ dag.t y

include hdag ha hb hapart

variable (hnone : ∀ c, ¬ Common dag a b c)

include hnone

omit hdag ha hb in
theorem Turn.new_of_unrelated (h : Turn dag sideA sideB e new sideA' sideB' seen) :
    ∀ p ∈ new, p ∉ seen := fun p hp hseen =>
  hnone p (h.common hapart.invA hapart.invB hp hseen)

/-- The second side keeps a low commit until the first is dry, and then the search
ends. -/
theorem searchLoop_ends (hx : dag.Reaches b x)
    (hlow : ∀ y, dag.Reaches a y → dag.t x ≤ dag.t y) (fuel : ℕ)
    (hkept : sideA.frontier ≠ [] → x ∉ sideB.expanded)
    (hfuel : sideA.pending dag + sideB.pending dag < fuel) :
    searchLoop dag fuel sideA sideB = some (.error noCommonAncestor) := by
  induction fuel generalizing sideA sideB with
  | zero => omega
  | succ fuel ih =>
    cases round_cases dag sideA sideB with
    | dry hA hB => exact searchLoop_over hA hB fuel
    | stuck hA hB => exact absurd (Side.mem_expanded_of_dry hapart.invB hB hx) (hkept hA)
    | @turn e new seen sideA' sideB' h =>
      have hnew := h.new_of_unrelated hapart hnone
      have hlt := h.pending_lt hapart ha hb
      rw [h.searchLoop, find?_eq_none_iff_new.mpr hnew]
      refine ih (h.apart hapart ha hb hdag hnew) ?_ (by omega)
      cases h with
      | first h => exact fun _ => hkept (ne_nil_of_mem (Side.expands_of_expand h).mem)
      | second h hlate =>
        intro hA hin
        have hexp := Side.expands_of_expand h
        obtain rfl | hin := (hexp.mem_expanded hapart.invB).mp hin
        · obtain ⟨e', he'⟩ := exists_mem_of_ne_nil _ hA
          have hle := hlow e'.2 (hapart.invA.sound _ (hapart.invA.seen e' he'))
          have hlt := hlate e' he'
          rw [hapart.invA.entry e' he', hapart.invB.entry e hexp.mem] at hlt
          exact absurd hlt (not_lt.mpr hle)
        · exact hkept hA hin

/-- If the first head has the lowest commit, the second side runs dry before it. -/
theorem searchLoop_never_ends (hy : dag.Reaches a y)
    (hlow : ∀ x, dag.Reaches b x → dag.t y < dag.t x) (fuel : ℕ) (hkept : y ∉ sideA.expanded) :
    searchLoop dag fuel sideA sideB = none := by
  induction fuel generalizing sideA sideB with
  | zero => rfl
  | succ fuel ih =>
    cases round_cases dag sideA sideB with
    | dry hA => exact absurd (Side.mem_expanded_of_dry hapart.invA hA hy) hkept
    | stuck hA hB =>
      rw [searchLoop_stuck hA hB]
      exact ih hapart hkept
    | @turn e new seen sideA' sideB' h =>
      have hnew := h.new_of_unrelated hapart hnone
      rw [h.searchLoop, find?_eq_none_iff_new.mpr hnew]
      refine ih (h.apart hapart ha hb hdag hnew) ?_
      cases h with
      | first h hB hle =>
        intro hin
        have hexp := Side.expands_of_expand h
        obtain rfl | hin := (hexp.mem_expanded hapart.invA).mp hin
        · obtain ⟨e', he'⟩ := exists_mem_of_ne_nil _ hB
          have hlt := hlow e'.2 (hapart.invB.sound _ (hapart.invB.seen e' he'))
          have hle := hle e' he'
          rw [hapart.invB.entry e' he', hapart.invA.entry e hexp.mem] at hle
          exact absurd hlt (not_lt.mpr hle)
        · exact hkept hin
      | second h => exact hkept

end

/-! ### What the search finds -/

variable {answer : Except CommitError (CommonAncestor Id)} {c : Id} {ancestor : CommonAncestor Id}

section

variable {a b : Id}

theorem findCommonAncestor_of_ne (hne : a ≠ b) (fuel : ℕ) :
    findCommonAncestor dag fuel a b =
      searchLoop dag fuel (Side.start dag a) (Side.start dag b) := by
  have hA : b ∉ (Side.start dag a).visited := fun h => hne (mem_singleton.mp h).symm
  have hB : a ∉ (Side.start dag b).visited := fun h => hne (mem_singleton.mp h)
  rw [findCommonAncestor, if_neg hne, if_neg hA, if_neg hB]

/-- As many rounds as the two sides can make. -/
def rounds (dag : CommitDag Id V) : ℕ := 2 * dag.ids.length + 1

theorem pending_start_lt (a b : Id) :
    (Side.start dag a).pending dag + (Side.start dag b).pending dag < rounds dag := by
  have hA : (Side.start dag a).pending dag ≤ dag.ids.length := Side.pending_le _
  have hB : (Side.start dag b).pending dag ≤ dag.ids.length := Side.pending_le _
  unfold rounds
  omega

variable {fuel : ℕ}

variable {sideA sideB : Side Id}

theorem searchLoop_succ {fuel : ℕ} (h : searchLoop dag fuel sideA sideB = some answer) :
    searchLoop dag (fuel + 1) sideA sideB = some answer := by
  induction fuel generalizing sideA sideB with
  | zero => cases h
  | succ fuel ih =>
    cases round_cases dag sideA sideB with
    | dry hA hB =>
      rw [searchLoop_over hA hB] at h ⊢
      exact h
    | stuck hA hB =>
      rw [searchLoop_stuck hA hB] at h ⊢
      exact ih h
    | turn hturn =>
      rw [hturn.searchLoop] at h ⊢
      split at h
      next => exact h
      next => exact ih h

theorem findCommonAncestor_mono {fuel' : ℕ} (hle : fuel ≤ fuel')
    (h : findCommonAncestor dag fuel a b = some answer) :
    findCommonAncestor dag fuel' a b = some answer := by
  induction hle with
  | refl => exact h
  | step _ ih =>
    by_cases heq : a = b
    · subst heq
      rw [findCommonAncestor, if_pos rfl] at ih ⊢
      exact ih
    · rw [findCommonAncestor_of_ne heq] at ih ⊢
      exact searchLoop_succ ih

theorem searchLoop_sound (hA : Side.Inv dag a sideA) (hB : Side.Inv dag b sideB)
    (h : searchLoop dag fuel sideA sideB = some (.ok ancestor)) :
    Common dag a b ancestor.commitId ∧ ancestor.t = dag.t ancestor.commitId := by
  induction fuel generalizing sideA sideB with
  | zero => cases h
  | succ fuel ih =>
    cases round_cases dag sideA sideB with
    | dry hdry hdry' =>
      rw [searchLoop_over hdry hdry'] at h
      cases h
    | stuck hwet hdry =>
      rw [searchLoop_stuck hwet hdry] at h
      exact ih hA hB h
    | turn hturn =>
      rw [hturn.searchLoop] at h
      split at h
      next p hfind =>
        cases h
        have hseen := find?_some hfind
        exact ⟨hturn.common hA hB (mem_of_find?_eq_some hfind) (of_decide_eq_true hseen), rfl⟩
      next => exact ih (hturn.inv hA hB).1 (hturn.inv hA hB).2 h

/-- A common ancestor of which no other is later, nor a descendant. -/
structure MostRecent (dag : CommitDag Id V) (a b : Id) (ancestor : CommonAncestor Id) : Prop where
  common : Common dag a b ancestor.commitId
  t_eq : ancestor.t = dag.t ancestor.commitId
  latest : ∀ c, Common dag a b c → dag.t c ≤ ancestor.t
  last : ∀ c, Common dag a b c → dag.Reaches c ancestor.commitId → c = ancestor.commitId

def Finds (dag : CommitDag Id V) (a b : Id) : Prop :=
  ∃ fuel answer, findCommonAncestor dag fuel a b = some answer ∧
    match answer with
    | .ok ancestor => MostRecent dag a b ancestor
    | .error e => e = noCommonAncestor ∧ ∀ c, ¬ Common dag a b c

omit [DecidableEq Id] in
theorem mostRecent_of_latest (hdag : dag.Increasing) (ha : a ∈ dag.ids) (hp : Common dag a b p)
    (hlatest : ∀ c, Common dag a b c → dag.t c ≤ dag.t p) :
    MostRecent dag a b ⟨p, dag.t p⟩ where
  common := hp
  t_eq := rfl
  latest := hlatest
  last c hc hreach := by
    obtain heq | hlt := hdag.t_lt (mem_ids hc.1 ha) hreach
    · exact heq.symm
    · exact absurd hlt (not_lt.mpr (hlatest c hc))

/-- Without a common ancestor, the second head has the lowest commit or the first one
has one below all of it. -/
theorem bottoms_or (ha : a ∈ dag.ids) :
    Bottoms dag a b ∨ ∃ y, dag.Reaches a y ∧ ∀ x, dag.Reaches b x → dag.t y < dag.t x := by
  classical
  obtain ⟨y, hy, hmin⟩ := (dag.ids.toFinset.filter (dag.Reaches a)).exists_min_image dag.t
    ⟨a, Finset.mem_filter.mpr ⟨mem_toFinset.mpr ha, refl ..⟩⟩
  have hy := (Finset.mem_filter.mp hy).2
  by_cases hlow : ∃ x, dag.Reaches b x ∧ dag.t x ≤ dag.t y
  · obtain ⟨x, hx, hle⟩ := hlow
    refine .inl ⟨x, hx, fun z hz => hle.trans (hmin z ?_)⟩
    exact Finset.mem_filter.mpr
      ⟨mem_toFinset.mpr (mem_ids hz ha), hz⟩
  · exact .inr ⟨y, hy, fun x hx => not_le.mp fun hle => hlow ⟨x, hx, hle⟩⟩

/-- No common ancestor is later. -/
def Latest (dag : CommitDag Id V) (a b c : Id) : Prop := ∀ c', Common dag a b c' → dag.t c' ≤ dag.t c

/-- The time at which the sides first have seen a commit together. What one side meets there, and the
other has seen before, is latest; and so is all that both have seen by then, unless each side meets
a commit that the other has seen before. -/
structure MeetsLatestAt (dag : CommitDag Id V) (a b : Id) (time : ℤ) : Prop where
  seen : ∃ c, SeenByBoth dag a b time c
  first : ∀ c, ¬ SeenByBoth dag a b (time + 1) c
  met_by_a : ∀ c, MetBy dag a b time c → Latest dag a b c
  met_by_b : ∀ c, MetBy dag b a time c → Latest dag a b c
  met : ((∃ c, MetBy dag a b time c) ∧ ∃ c, MetBy dag b a time c) ∨
    ∀ c, SeenByBoth dag a b time c → Latest dag a b c

/-- Heads that share an ancestor meet at a latest one; others have equally low commits. -/
def MeetsLatest (dag : CommitDag Id V) (a b : Id) : Prop :=
  a = b ∨ (∃ time, MeetsLatestAt dag a b time) ∨
    ((∀ c, ¬ Common dag a b c) ∧ Bottoms dag a b ∧ Bottoms dag b a)

omit [DecidableEq Id] in
theorem common_of_seenByBoth {time : ℤ} (h : SeenByBoth dag a b time c) : Common dag a b c :=
  ⟨h.1.reaches, h.2.reaches⟩

omit [DecidableEq Id] in
/-- There is one time at which the sides first have seen a commit together. -/
theorem time_unique {time time' : ℤ} (hseen : SeenByBoth dag a b time c)
    (hfirst : ∀ c, ¬ SeenByBoth dag a b (time + 1) c) (hseen' : SeenByBoth dag a b time' p)
    (hfirst' : ∀ c, ¬ SeenByBoth dag a b (time' + 1) c) : time = time' := by
  refine le_antisymm (not_lt.mp fun hlt => ?_) (not_lt.mp fun hlt => ?_)
  · exact hfirst' c ⟨hseen.1.mono (by omega), hseen.2.mono (by omega)⟩
  · exact hfirst p ⟨hseen'.1.mono (by omega), hseen'.2.mono (by omega)⟩

section

variable (hdag : dag.Increasing) (ha : a ∈ dag.ids) (hb : b ∈ dag.ids) (hne : a ≠ b)

include hdag ha hb hne

/-- Different heads that share an ancestor: the search finds a commit that it meets. -/
theorem findCommonAncestor_meets (hc : Common dag a b c) :
    ∃ p time, findCommonAncestor dag (rounds dag) a b = some (.ok ⟨p, dag.t p⟩) ∧
      (∀ c, ¬ SeenByBoth dag a b (time + 1) c) ∧ Meets dag a b time p := by
  rw [findCommonAncestor_of_ne hne]
  exact searchLoop_meets hdag ha hb (apart_start hne) hc.1 hc.2 _ (pending_start_lt a b)

theorem finds_of_meetsLatestAt {time : ℤ} (h : MeetsLatestAt dag a b time) : Finds dag a b := by
  obtain ⟨c, hc⟩ := h.seen
  obtain ⟨p, time', hfound, hfirst, hmeets⟩ :=
    findCommonAncestor_meets hdag ha hb hne (common_of_seenByBoth hc)
  cases time_unique hc h.first hmeets.seenByBoth hfirst
  refine ⟨_, _, hfound, mostRecent_of_latest hdag ha (common_of_seenByBoth hmeets.seenByBoth) ?_⟩
  cases hmeets with
  | first x hx ht hp hseen => exact h.met_by_a p ⟨⟨x, hx, hp, ht⟩, hseen⟩
  | second x hx ht hp hseen hnone =>
    obtain ⟨⟨c, hc⟩, -⟩ | hall := h.met
    · exact absurd hc (hnone c)
    · exact hall p ⟨hseen, .inr ⟨x, hx, hp, ht.ge⟩⟩

/-- Heads that share nothing: the search ends if the second has a low commit, and only then. -/
theorem finds_iff_of_unrelated (hnone : ∀ c, ¬ Common dag a b c) : Finds dag a b ↔ Bottoms dag a b := by
  constructor
  · rintro ⟨fuel, answer, hfound, -⟩
    refine (bottoms_or ha).resolve_right ?_
    rintro ⟨y, hy, hlow⟩
    have hstart : y ∉ (Side.start dag a).expanded := fun hin =>
      (Side.mem_expanded.mp hin).2 (Side.mem_expanded.mp hin).1
    rw [findCommonAncestor_of_ne hne, searchLoop_never_ends hdag ha hb (apart_start hne) hnone
      hy hlow fuel hstart] at hfound
    cases hfound
  · rintro ⟨x, hx, hlow⟩
    refine ⟨rounds dag, .error noCommonAncestor, ?_, rfl, hnone⟩
    rw [findCommonAncestor_of_ne hne]
    exact searchLoop_ends hdag ha hb (apart_start hne) hnone hx hlow _
      (fun _ hin => (Side.mem_expanded.mp hin).2 (Side.mem_expanded.mp hin).1)
      (pending_start_lt a b)

end

omit [DecidableEq Id] in
theorem MeetsLatestAt.symm {time : ℤ} (h : MeetsLatestAt dag a b time) :
    MeetsLatestAt dag b a time where
  seen := h.seen.imp fun _ hc => ⟨hc.2, hc.1⟩
  first c hc := h.first c ⟨hc.2, hc.1⟩
  met_by_a c hc c' hc' := h.met_by_b c hc c' ⟨hc'.2, hc'.1⟩
  met_by_b c hc c' hc' := h.met_by_a c hc c' ⟨hc'.2, hc'.1⟩
  met := h.met.imp And.symm fun hall c hc c' hc' => hall c ⟨hc.2, hc.1⟩ c' ⟨hc'.2, hc'.1⟩

omit [DecidableEq Id] in
theorem MeetsLatest.symm (h : MeetsLatest dag a b) : MeetsLatest dag b a := by
  obtain rfl | ⟨time, h⟩ | ⟨hnone, hbottoms⟩ := h
  · exact .inl rfl
  · exact .inr (.inl ⟨time, h.symm⟩)
  · exact .inr (.inr ⟨fun c hc => hnone c (And.symm hc), And.symm hbottoms⟩)

theorem finds_of_meetsLatest (hdag : dag.Increasing) (ha : a ∈ dag.ids) (hb : b ∈ dag.ids)
    (h : MeetsLatest dag a b) : Finds dag a b := by
  by_cases hne : a = b
  · subst hne
    refine ⟨0, .ok ⟨a, dag.t a⟩, by rw [findCommonAncestor, if_pos rfl], ?_⟩
    exact mostRecent_of_latest hdag ha ⟨refl .., refl ..⟩ fun c hc => hdag.t_le ha hc.1
  obtain heq | ⟨time, h⟩ | ⟨hnone, hbottom, -⟩ := h
  · exact absurd heq hne
  · exact finds_of_meetsLatestAt hdag ha hb hne h
  · exact (finds_iff_of_unrelated hdag ha hb hne hnone).mpr hbottom

end

/-! ### The order of the heads and of the parents -/

/-- The same commits with the parents of each in some order. -/
structure Rearranged (dag dag' : CommitDag Id V) : Prop where
  ids_eq : dag'.ids = dag.ids
  t_eq : ∀ x, dag'.t x = dag.t x
  parents_perm : ∀ x, (dag'.parents x).Perm (dag.parents x)

omit [DecidableEq Id] in
theorem rearranged_refl (dag : CommitDag Id V) : Rearranged dag dag :=
  ⟨rfl, fun _ => rfl, fun _ => Perm.refl _⟩

def Answer (dag : CommitDag Id V) (a b : Id) (ancestor : CommonAncestor Id) : Prop :=
  ∃ fuel, findCommonAncestor dag fuel a b = some (.ok ancestor)

theorem Answer.common {a b : Id} (h : Answer dag a b ancestor) :
    Common dag a b ancestor.commitId ∧ ancestor.t = dag.t ancestor.commitId := by
  obtain ⟨fuel, h⟩ := h
  by_cases hsame : a = b
  · subst hsame
    rw [findCommonAncestor, if_pos rfl] at h
    cases h
    exact ⟨⟨refl .., refl ..⟩, rfl⟩
  · rw [findCommonAncestor_of_ne hsame] at h
    exact searchLoop_sound (Side.inv_start a) (Side.inv_start b) h

/-- The search is right for the two heads, in whichever order they and the parents
are given, and the time of its answer does not depend on the order. -/
structure Correct (dag : CommitDag Id V) (a b : Id) : Prop where
  finds : ∀ dag', Rearranged dag dag' → Finds dag' a b ∧ Finds dag' b a
  order_free : ∀ dag' dag'', Rearranged dag dag' → Rearranged dag dag'' → ∀ answer answer',
    Answer dag' a b answer ∨ Answer dag' b a answer →
      Answer dag'' a b answer' ∨ Answer dag'' b a answer' → answer.t = answer'.t

section

variable {dag' : CommitDag Id V} {a b : Id}

omit [DecidableEq Id] in
theorem Rearranged.reaches_iff (h : Rearranged dag dag') : dag'.Reaches x y ↔ dag.Reaches x y := by
  have hedge : (fun x y => y ∈ dag'.parents x) = fun x y => y ∈ dag.parents x := by
    funext x y
    exact propext (h.parents_perm x).mem_iff
  unfold CommitDag.Reaches Lib.Reaches
  rw [hedge]

omit [DecidableEq Id] in
theorem Rearranged.common_iff (h : Rearranged dag dag') : Common dag' a b c ↔ Common dag a b c := by
  unfold Common
  rw [h.reaches_iff, h.reaches_iff]

omit [DecidableEq Id] in
theorem Rearranged.increasing (h : Rearranged dag dag') (hdag : dag.Increasing) :
    dag'.Increasing := by
  intro x hx y hy
  rw [h.t_eq, h.t_eq]
  exact hdag x (h.ids_eq ▸ hx) y ((h.parents_perm x).mem_iff.mp hy)

omit [DecidableEq Id] in
theorem Rearranged.seenBy (h : Rearranged dag dag') : SeenBy dag' = SeenBy dag := by
  funext head time c
  simp only [SeenBy, h.reaches_iff, h.t_eq, (h.parents_perm _).mem_iff]

omit [DecidableEq Id] in
theorem Rearranged.metBy (h : Rearranged dag dag') : MetBy dag' = MetBy dag := by
  funext a b time c
  simp only [MetBy, h.seenBy, h.reaches_iff, h.t_eq, (h.parents_perm _).mem_iff]

omit [DecidableEq Id] in
/-- The order of the parents does not matter to where the sides meet. -/
theorem Rearranged.meetsLatest (h : Rearranged dag dag') :
    MeetsLatest dag a b → MeetsLatest dag' a b := by
  have hlatest : ∀ c, Latest dag a b c → Latest dag' a b c := by
    intro c hc c' hc'
    rw [h.t_eq, h.t_eq]
    exact hc c' (h.common_iff.mp hc')
  have hbottoms : ∀ {a b}, Bottoms dag a b → Bottoms dag' a b := by
    rintro a b ⟨x, hx, hlow⟩
    refine ⟨x, h.reaches_iff.mpr hx, fun y hy => ?_⟩
    rw [h.t_eq, h.t_eq]
    exact hlow y (h.reaches_iff.mp hy)
  rintro (heq | ⟨time, hseen, hfirst, hmetA, hmetB, hmet⟩ | ⟨hnone, hlow, hlow'⟩)
  · exact .inl heq
  · refine .inr (.inl ⟨time, ?_⟩)
    have hboth : SeenByBoth dag' a b = SeenByBoth dag a b := by
      unfold SeenByBoth
      rw [h.seenBy]
    refine ⟨hboth ▸ hseen, hboth ▸ hfirst, fun c hc => hlatest c (hmetA c (h.metBy ▸ hc)),
      fun c hc => hlatest c (hmetB c (h.metBy ▸ hc)), ?_⟩
    rw [h.metBy, hboth]
    exact hmet.imp_right fun hall c hc => hlatest c (hall c hc)
  · exact .inr (.inr ⟨fun c hc => hnone c (h.common_iff.mp hc), hbottoms hlow, hbottoms hlow'⟩)

/-- The parents of each commit with a given one first. -/
def hoist (dag : CommitDag Id V) (c : Id) : CommitDag Id V where
  ids := dag.ids
  commit x :=
    { dag.commit x with
      parents := if c ∈ dag.parents x then c :: (dag.parents x).erase c else dag.parents x }
  closed x hx y hy := by
    dsimp only at hy
    split at hy
    next hc => exact dag.closed x hx y ((perm_cons_erase hc).mem_iff.mpr hy)
    next => exact dag.closed x hx y hy

theorem hoist_rearranged (dag : CommitDag Id V) (c : Id) : Rearranged dag (hoist dag c) where
  ids_eq := rfl
  t_eq _ := rfl
  parents_perm x := by
    unfold CommitDag.parents hoist
    dsimp only
    split
    next hc => exact (perm_cons_erase hc).symm
    next => exact .refl _

theorem head?_parents_hoist (hc : c ∈ dag.parents x) :
    c ∈ ((hoist dag c).parents x).head? := by
  unfold CommitDag.parents hoist
  dsimp only
  rw [if_pos hc]
  exact rfl

variable {answer : CommonAncestor Id}

omit [DecidableEq Id] in
theorem MostRecent.symm (h : MostRecent dag a b answer) : MostRecent dag b a answer :=
  ⟨And.symm h.common, h.t_eq, fun c hc => h.latest c (And.symm hc),
    fun c hc => h.last c (And.symm hc)⟩

theorem Finds.mostRecent (h : Finds dag a b) (hanswer : Answer dag a b answer) :
    MostRecent dag a b answer := by
  obtain ⟨fuel, found, hfound, hright⟩ := h
  obtain ⟨fuel', hanswer⟩ := hanswer
  have heq := findCommonAncestor_mono (le_max_left fuel fuel') hfound
  rw [findCommonAncestor_mono (le_max_right fuel fuel') hanswer, Option.some.injEq] at heq
  subst heq
  exact hright

omit [DecidableEq Id] in
theorem MostRecent.t_eq_of_rearranged {dag'' : CommitDag Id V} (hdag' : Rearranged dag dag')
    (hdag'' : Rearranged dag dag'') {answer' : CommonAncestor Id} (h : MostRecent dag' a b answer)
    (h' : MostRecent dag'' a b answer') : answer.t = answer'.t := by
  refine le_antisymm ?_ ?_
  · have hle := h'.latest _ (hdag''.common_iff.mpr (hdag'.common_iff.mp h.common))
    rwa [hdag''.t_eq, ← hdag'.t_eq, ← h.t_eq] at hle
  · have hle := h.latest _ (hdag'.common_iff.mpr (hdag''.common_iff.mp h'.common))
    rwa [hdag'.t_eq, ← hdag''.t_eq, ← h'.t_eq] at hle

/-- No two ancestors of the head have one time. -/
def TimesApart (dag : CommitDag Id V) (head : Id) : Prop :=
  ∀ x y, dag.Reaches head x → dag.Reaches head y → dag.t x = dag.t y → x = y

section

variable (hdag : dag.Increasing) (ha : a ∈ dag.ids) (hb : b ∈ dag.ids) (hne : a ≠ b)
  (h : Finds (hoist dag c) a b) {time : ℤ} (hfirst : ∀ c, ¬ SeenByBoth dag a b (time + 1) c)

include hdag ha hb hne h hfirst

/-- If a search with the parents of each commit in the order that has `c` first is right, it meets a
latest commit at the time at which the sides meet. -/
theorem exists_meets_hoist (hseen : SeenByBoth dag a b time x) :
    ∃ p, Meets (hoist dag c) a b time p ∧ Latest dag a b p := by
  have hre := hoist_rearranged dag c
  have hboth : SeenByBoth (hoist dag c) a b = SeenByBoth dag a b := by
    unfold SeenByBoth
    rw [hre.seenBy]
  have hshared : Common (hoist dag c) a b x := hre.common_iff.mpr (common_of_seenByBoth hseen)
  obtain ⟨p, time', hfound, hfirst', hmeets⟩ :=
    findCommonAncestor_meets (hre.increasing hdag) ha hb hne hshared
  have hrecent := h.mostRecent ⟨_, hfound⟩
  rw [hboth] at hfirst'
  cases time_unique hseen hfirst (hboth ▸ hmeets.seenByBoth) hfirst'
  exact ⟨p, hmeets, fun c' hc' => hrecent.latest c' (hre.common_iff.mpr hc')⟩

/-- What the first side meets is latest, if it expands one commit at the time. -/
theorem latest_of_metBy (hapart : TimesApart dag a) (hc : MetBy dag a b time c) :
    Latest dag a b c := by
  have hre := hoist_rearranged dag c
  obtain ⟨⟨x, hx, hparent, ht⟩, hseen⟩ := hc
  obtain ⟨p, hmeets, hlatest⟩ := exists_meets_hoist hdag ha hb hne h hfirst
    ⟨.inr ⟨x, hx, hparent, ht.ge⟩, hseen.mono (by omega)⟩
  cases hmeets with
  | first y hy hty _ _ hhead =>
    cases hapart x y hx (hre.reaches_iff.mp hy) (ht.trans hty.symm)
    cases hhead c (head?_parents_hoist hparent) (hre.seenBy ▸ hseen)
    exact hlatest
  | second _ _ _ _ _ hnone =>
    rw [hre.metBy] at hnone
    exact absurd ⟨⟨x, hx, hparent, ht⟩, hseen⟩ (hnone c)

/-- If the first side meets nothing, what both have seen is latest, if the second expands one commit
at the time. -/
theorem latest_of_seenByBoth (hapart : TimesApart dag b) (hnone : ∀ c, ¬ MetBy dag a b time c)
    (hc : SeenByBoth dag a b time c) : Latest dag a b c := by
  have hre := hoist_rearranged dag c
  -- the second side has not seen it before, or the first side would meet it
  obtain ⟨y, hy, hparent, ht⟩ : ∃ y, dag.Reaches b y ∧ c ∈ dag.parents y ∧ dag.t y = time := by
    by_contra hlate
    have hexact : ∀ {head}, SeenBy dag head time c → ¬ SeenBy dag head (time + 1) c →
        ∃ y, dag.Reaches head y ∧ c ∈ dag.parents y ∧ dag.t y = time := by
      rintro head (rfl | ⟨y, hy, hparent, hle⟩) hnot
      · exact absurd (.inl rfl) hnot
      · refine ⟨y, hy, hparent, le_antisymm (not_lt.mp fun hlt => hnot ?_) hle⟩
        exact .inr ⟨y, hy, hparent, hlt⟩
    have hbefore : SeenBy dag b (time + 1) c := by_contra fun hnot => hlate (hexact hc.2 hnot)
    exact hnone c ⟨hexact hc.1 fun hA => hfirst c ⟨hA, hbefore⟩, hbefore⟩
  obtain ⟨p, hmeets, hlatest⟩ := exists_meets_hoist hdag ha hb hne h hfirst hc
  cases hmeets with
  | first x hx ht' hparent' hseen =>
    have hmet : MetBy (hoist dag c) a b time p := ⟨⟨x, hx, hparent', ht'⟩, hseen⟩
    rw [hre.metBy] at hmet
    exact absurd hmet (hnone p)
  | second x hx ht' _ _ _ hhead =>
    cases hapart y x hy (hre.reaches_iff.mp hx) (ht.trans ht'.symm)
    cases hhead c (head?_parents_hoist hparent) (hre.seenBy ▸ hc.1)
    exact hlatest

end

/-- If the search is right in both orders of the heads and every order of the parents, the sides meet
at a latest commit, or have equally low ones. -/
theorem meetsLatest_of_finds (hdag : dag.Increasing) (ha : a ∈ dag.ids) (hb : b ∈ dag.ids)
    (hapart : TimesApart dag a) (hapart' : TimesApart dag b)
    (h : ∀ dag', Rearranged dag dag' → Finds dag' a b ∧ Finds dag' b a) : MeetsLatest dag a b := by
  by_cases hne : a = b
  · exact .inl hne
  by_cases hshared : ∃ c, Common dag a b c
  · obtain ⟨c, hc⟩ := hshared
    obtain ⟨p, time, -, hfirst, hmeets⟩ := findCommonAncestor_meets hdag ha hb hne hc
    have hfirst' : ∀ c, ¬ SeenByBoth dag b a (time + 1) c := fun c hc => hfirst c (And.symm hc)
    have hsymm : ∀ {c}, Latest dag b a c → Latest dag a b c := fun hc c' hc' => hc c' (And.symm hc')
    refine .inr (.inl ⟨time, ⟨p, hmeets.seenByBoth⟩, hfirst, fun c hc => ?_, fun c hc => ?_, ?_⟩)
    · exact latest_of_metBy hdag ha hb hne (h _ (hoist_rearranged dag c)).1 hfirst hapart hc
    · exact hsymm (latest_of_metBy hdag hb ha (Ne.symm hne) (h _ (hoist_rearranged dag c)).2 hfirst'
        hapart' hc)
    · by_cases hmetA : ∃ c, MetBy dag a b time c
      · by_cases hmetB : ∃ c, MetBy dag b a time c
        · exact .inl ⟨hmetA, hmetB⟩
        · refine .inr fun c hc => hsymm (latest_of_seenByBoth hdag hb ha (Ne.symm hne)
            (h _ (hoist_rearranged dag c)).2 hfirst' hapart ?_ (And.symm hc))
          exact fun c hc => hmetB ⟨c, hc⟩
      · refine .inr fun c hc => latest_of_seenByBoth hdag ha hb hne
          (h _ (hoist_rearranged dag c)).1 hfirst hapart' ?_ hc
        exact fun c hc => hmetA ⟨c, hc⟩
  · have hnone : ∀ c, ¬ Common dag a b c := not_exists.mp hshared
    have hfinds := h dag (rearranged_refl dag)
    exact .inr (.inr ⟨hnone, (finds_iff_of_unrelated hdag ha hb hne hnone).mp hfinds.1,
      (finds_iff_of_unrelated hdag hb ha (Ne.symm hne) fun c hc => hnone c (And.symm hc)).mp
        hfinds.2⟩)

theorem common_ancestor_search_correct_iff (hdag : dag.Increasing) (ha : a ∈ dag.ids)
    (hb : b ∈ dag.ids) :
    (MeetsLatest dag a b → Correct dag a b) ∧
      (TimesApart dag a → TimesApart dag b → (Correct dag a b ↔ MeetsLatest dag a b)) := by
  have hcorrect : MeetsLatest dag a b → Correct dag a b := by
    intro h
    have hall : ∀ dag', Rearranged dag dag' → Finds dag' a b ∧ Finds dag' b a := by
      intro dag' hre
      have hmeets := hre.meetsLatest h
      exact ⟨finds_of_meetsLatest (hre.increasing hdag) (hre.ids_eq ▸ ha) (hre.ids_eq ▸ hb) hmeets,
        finds_of_meetsLatest (hre.increasing hdag) (hre.ids_eq ▸ hb) (hre.ids_eq ▸ ha) hmeets.symm⟩
    have hrecent : ∀ {dag'}, Rearranged dag dag' → ∀ {answer},
        Answer dag' a b answer ∨ Answer dag' b a answer → MostRecent dag' a b answer := by
      rintro dag' hre answer (hanswer | hanswer)
      · exact (hall dag' hre).1.mostRecent hanswer
      · exact ((hall dag' hre).2.mostRecent hanswer).symm
    exact ⟨hall, fun dag' dag'' hre hre' answer answer' hanswer hanswer' =>
      MostRecent.t_eq_of_rearranged hre hre' (hrecent hre hanswer) (hrecent hre' hanswer')⟩
  exact ⟨hcorrect, fun hapart hapart' =>
    ⟨fun h => meetsLatest_of_finds hdag ha hb hapart hapart' h.finds, hcorrect⟩⟩

end

/-! ### Heads for which it is not right -/

def bareCommit (t : ℤ) (parents : List ℕ) : Commit ℕ Unit := ⟨t, parents, [], ∅, ∅⟩

/-- Two branches of a root that were merged twice, each time in the same order. -/
def crissCross : CommitDag ℕ Unit where
  ids := [0, 1, 2, 3, 4]
  commit
    | 0 => bareCommit 1 []
    | 1 => bareCommit 2 [0]
    | 2 => bareCommit 3 [0]
    | 3 => bareCommit 4 [1, 2]
    | _ => bareCommit 5 [1, 2]
  closed := by decide

/-- Two commits that have nothing to do with each other. -/
def twoRoots : CommitDag ℕ Unit where
  ids := [0, 1]
  commit
    | 0 => bareCommit 1 []
    | _ => bareCommit 2 []
  closed := by decide

theorem crissCross_increasing : crissCross.Increasing := by
  unfold CommitDag.Increasing
  decide

theorem twoRoots_increasing : twoRoots.Increasing := by
  unfold CommitDag.Increasing
  decide

theorem crissCross_timesApart {head : ℕ} (hhead : head ∈ crissCross.ids) :
    TimesApart crissCross head := by
  intro x y hx hy
  have hapart : ∀ x ∈ crissCross.ids, ∀ y ∈ crissCross.ids, crissCross.t x = crissCross.t y →
      x = y := by decide
  exact hapart x (mem_ids hx hhead) y (mem_ids hy hhead)

theorem common_ancestor_search_correct_iff_of_crissCross :
    (crissCross.Increasing ∧ TimesApart crissCross 4 ∧ TimesApart crissCross 1) ∧
      (Correct crissCross 4 1 ↔ MeetsLatest crissCross 4 1) :=
  have hapart : TimesApart crissCross 4 := crissCross_timesApart (by decide)
  have hapart' : TimesApart crissCross 1 := crissCross_timesApart (by decide)
  ⟨⟨crissCross_increasing, hapart, hapart'⟩,
    (common_ancestor_search_correct_iff crissCross_increasing (by decide) (by decide)).2 hapart
      hapart'⟩

/-- Both merges have commit 2 as a parent, but the search stops at commit 1, which is
older; and from the two roots it does not end. -/
theorem common_ancestor_search_errs :
    (crissCross.Increasing ∧ Common crissCross 4 3 2 ∧
      findCommonAncestor crissCross 11 4 3 = some (.ok ⟨1, 2⟩) ∧ crissCross.t 2 = 3 ∧
      ¬ Correct crissCross 4 3) ∧
    twoRoots.Increasing ∧ (∀ fuel, findCommonAncestor twoRoots fuel 0 1 = none) ∧
      ¬ Correct twoRoots 0 1 := by
  have hanswer : findCommonAncestor crissCross 11 4 3 = some (.ok ⟨1, 2⟩) := by decide
  have hcommon : Common crissCross 4 3 2 :=
    ⟨tail (refl ..) (by decide),
      tail (refl ..) (by decide)⟩
  have hroot : ∀ {x : ℕ}, twoRoots.Reaches 0 x → x = 0 := fun h =>
    invariant (p := fun x => x = 0) (fun x hx y hy => by subst hx; cases hy) h rfl
  have hother : ∀ {x : ℕ}, twoRoots.Reaches 1 x → x = 1 := fun h =>
    invariant (p := fun x => x = 1) (fun x hx y hy => by subst hx; cases hy) h rfl
  have hnever : ∀ fuel, findCommonAncestor twoRoots fuel 0 1 = none := by
    intro fuel
    refine searchLoop_never_ends twoRoots_increasing (by decide) (by decide) (apart_start (by decide))
      (fun c hc => ?_) (refl ..) (fun x hx => ?_) fuel (by decide)
    · exact absurd ((hroot hc.1).symm.trans (hother hc.2)) (by decide)
    · rw [hother hx]
      decide
  refine ⟨⟨crissCross_increasing, hcommon, hanswer, rfl, fun h => ?_⟩, twoRoots_increasing, hnever,
    fun h => ?_⟩
  · have hlatest := (((h.finds _ (rearranged_refl _)).1).mostRecent ⟨11, hanswer⟩).latest 2 hcommon
    exact absurd hlatest (by decide)
  · obtain ⟨fuel, answer, hfound, -⟩ := (h.finds _ (rearranged_refl _)).1
    rw [hnever fuel] at hfound
    cases hfound

end FlureeDb.Branch
