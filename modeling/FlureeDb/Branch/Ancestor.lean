import FlureeDb.Branch.Commits

/-!
The search for the common ancestor of two heads. Each side has a frontier of commits
that it has seen and not yet expanded. The side with the later commit expands it, and
the first commit that one side sees after the other has is the answer.

A side expands its commits in descending time, so that what it has seen at some point is said by
the graph: its head and the parents of all ancestors of the head that are later than what is left.
-/

namespace FlureeDb.Branch

open FlureeDb.Core Lib List

variable {Id V : Type} [DecidableEq Id]

structure CommonAncestor (Id : Type) where
  commitId : Id
  t : ℤ
  deriving DecidableEq

inductive CommitError
  | invalidCommit (message : String)
  deriving DecidableEq

def noCommonAncestor : CommitError := .invalidCommit "commit chains have no common ancestor"

/-- One direction of the search: entries are a time and a commit. -/
structure Side (Id : Type) where
  frontier : List (ℤ × Id)
  visited : List Id

variable (frontier : List (ℤ × Id))

def maxT : Option ℤ := (frontier.map Prod.fst).max?

/-- The place of the last entry with the highest time. -/
def maxIndex : List (ℤ × Id) → ℕ
  | [] => 0
  | e :: rest => if (maxT rest).any fun t => decide (e.1 ≤ t) then maxIndex rest + 1 else 0

/-- Takes the entry out; the last one moves to its place. -/
def swapRemove (i : ℕ) : List (ℤ × Id) :=
  match frontier.getLast? with
  | none => []
  | some last => (frontier.set i last).dropLast

/-- The entry with the highest time, and the frontier without it. -/
def popMax : Option ((ℤ × Id) × List (ℤ × Id)) :=
  frontier[maxIndex frontier]?.map fun e => (e, swapRemove frontier (maxIndex frontier))

variable (dag : CommitDag Id V)

/-- Looks at the parents of the commit that is expanded, one after the other. -/
def scanParents (otherVisited : List Id) :
    List Id → Side Id → Option (CommonAncestor Id) × Side Id
  | [], side => (none, side)
  | parent :: rest, side =>
    if parent ∈ side.visited then scanParents otherVisited rest side
    else if parent ∈ otherVisited then
      (some ⟨parent, dag.t parent⟩, { side with visited := parent :: side.visited })
    else
      scanParents otherVisited rest
        ⟨side.frontier ++ [(dag.t parent, parent)], parent :: side.visited⟩

def advanceFrontier (side : Side Id) (otherVisited : List Id) :
    Option (CommonAncestor Id) × Side Id :=
  match popMax side.frontier with
  | none => (none, side)
  | some (e, rest) =>
    scanParents dag otherVisited (dag.parents e.2) { side with frontier := rest }

/-- The first side is advanced if both have something left and it is not behind. -/
def firstAdvances (a b : Side Id) : Bool :=
  match maxT a.frontier, maxT b.frontier with
  | some ta, some tb => decide (tb ≤ ta)
  | _, _ => false

/-- As many rounds as given; none if the search is not over by then. -/
def searchLoop : ℕ → Side Id → Side Id → Option (Except CommitError (CommonAncestor Id))
  | 0, _, _ => none
  | fuel + 1, a, b =>
    if maxT a.frontier = none ∧ maxT b.frontier = none then some (.error noCommonAncestor)
    else if firstAdvances a b then
      match advanceFrontier dag a b.visited with
      | (some ancestor, _) => some (.ok ancestor)
      | (none, a) => searchLoop fuel a b
    else
      match advanceFrontier dag b a.visited with
      | (some ancestor, _) => some (.ok ancestor)
      | (none, b) => searchLoop fuel a b

def Side.start (head : Id) : Side Id := ⟨[(dag.t head, head)], [head]⟩

def findCommonAncestor (fuel : ℕ) (headA headB : Id) :
    Option (Except CommitError (CommonAncestor Id)) :=
  if headA = headB then some (.ok ⟨headA, dag.t headA⟩)
  else if headB ∈ (Side.start dag headA).visited then some (.ok ⟨headB, dag.t headB⟩)
  else if headA ∈ (Side.start dag headB).visited then some (.ok ⟨headA, dag.t headA⟩)
  else searchLoop dag fuel (Side.start dag headA) (Side.start dag headB)

/-! ### The entry that is taken -/

variable {frontier}

omit [DecidableEq Id] in
theorem maxT_eq_none : maxT frontier = none ↔ frontier = [] := by
  unfold maxT
  rw [List.max?_eq_none_iff, map_eq_nil_iff]

omit [DecidableEq Id] in
theorem maxT_eq_some {t : ℤ} :
    maxT frontier = some t ↔ (∃ e ∈ frontier, e.1 = t) ∧ ∀ e ∈ frontier, e.1 ≤ t := by
  unfold maxT
  rw [List.max?_eq_some_iff]
  simp

omit [DecidableEq Id] in
theorem getElem?_maxIndex (hne : frontier ≠ []) :
    ∃ e, frontier[maxIndex frontier]? = some e ∧ ∀ e' ∈ frontier, e'.1 ≤ e.1 := by
  induction frontier with
  | nil => exact absurd rfl hne
  | cons e rest ih =>
    unfold maxIndex
    cases hmax : maxT rest with
    | none =>
      rw [maxT_eq_none.mp hmax]
      exact ⟨e, rfl, fun e' he' => (mem_singleton.mp he') ▸ le_rfl⟩
    | some t =>
      obtain ⟨⟨top, htop, rfl⟩, hle⟩ := maxT_eq_some.mp hmax
      obtain ⟨best, hbest, hbound⟩ := ih (ne_nil_of_mem htop)
      by_cases hlate : e.1 ≤ top.1
      · exact ⟨best, by simpa [hlate] using hbest,
          forall_mem_cons.mpr ⟨hlate.trans (hbound top htop), hbound⟩⟩
      · exact ⟨e, by simp [hlate], forall_mem_cons.mpr
          ⟨le_rfl, fun e' he' => (hle e' he').trans (not_le.mp hlate).le⟩⟩

variable {e : ℤ × Id}

omit [DecidableEq Id] in
theorem perm_swapRemove {i : ℕ} (he : frontier[i]? = some e) :
    frontier.Perm (e :: swapRemove frontier i) := by
  unfold swapRemove
  obtain ⟨hi, rfl⟩ := List.getElem?_eq_some_iff.mp he
  split
  next hnone =>
    rw [List.getLast?_eq_none_iff] at hnone
    subst hnone
    cases hi
  next last hlast =>
    obtain ⟨init, rfl⟩ := List.getLast?_eq_some_iff.mp hlast
    by_cases hlt : i < init.length
    · rw [set_append_left _ _ hlt, dropLast_concat, getElem_append_left hlt]
      have hset : (init.set i last).Perm (last :: init.eraseIdx i) :=
        set_perm_cons_eraseIdx hlt last
      have herase : (init[i] :: init.eraseIdx i).Perm init := getElem_cons_eraseIdx_perm hlt
      calc (init ++ [last]).Perm (last :: init) := perm_append_singleton last init
        _ |>.Perm (last :: init[i] :: init.eraseIdx i) := herase.symm.cons last
        _ |>.Perm (init[i] :: last :: init.eraseIdx i) := List.Perm.swap ..
        _ |>.Perm (init[i] :: init.set i last) := hset.symm.cons _
    · have hi' : i = init.length := by
        rw [length_append, length_singleton] at hi
        omega
      subst hi'
      simp

omit [DecidableEq Id] in
theorem popMax_eq_none : popMax frontier = none ↔ frontier = [] := by
  refine ⟨fun h => ?_, fun h => h ▸ rfl⟩
  by_contra hne
  obtain ⟨e, he, -⟩ := getElem?_maxIndex hne
  unfold popMax at h
  rw [he] at h
  cases h

omit [DecidableEq Id] in
theorem popMax_eq_some {frontier rest : List (ℤ × Id)} (h : popMax frontier = some (e, rest)) :
    frontier.Perm (e :: rest) ∧ ∀ e' ∈ frontier, e'.1 ≤ e.1 := by
  obtain ⟨e', he, heq⟩ := Option.map_eq_some_iff.mp h
  cases heq
  obtain ⟨best, hbest, hbound⟩ := getElem?_maxIndex (ne_nil_of_mem (mem_of_getElem? he))
  obtain rfl : best = e := Option.some.inj (hbest.symm.trans he)
  exact ⟨perm_swapRemove he, hbound⟩

/-! ### One side on its own -/

/-- The parents that a side has not seen, each once and in order. -/
def fresh : List Id → List Id → List Id
  | _, [] => []
  | visited, parent :: rest =>
    if parent ∈ visited then fresh visited rest else parent :: fresh (parent :: visited) rest

namespace Side

def see (side : Side Id) (new : List Id) : Side Id :=
  ⟨side.frontier ++ new.map fun p => (dag.t p, p), new.reverse ++ side.visited⟩

/-- A side expands a commit: its entry, the commits that are new and the side after it. -/
def expand (side : Side Id) : Option ((ℤ × Id) × List Id × Side Id) :=
  (popMax side.frontier).map fun taken =>
    let new := fresh side.visited (dag.parents taken.1.2)
    (taken.1, new, { side with frontier := taken.2 }.see dag new)

end Side

section

theorem mem_fresh {visited parents : List Id} {p : Id} :
    p ∈ fresh visited parents ↔ p ∈ parents ∧ p ∉ visited := by
  fun_induction fresh visited parents with
  | case1 => simp
  | case2 visited => grind
  | case3 visited => grind

theorem fresh_nodup (visited parents : List Id) : (fresh visited parents).Nodup := by
  fun_induction fresh visited parents with
  | case1 => exact nodup_nil
  | case2 _ _ _ _ ih => exact ih
  | case3 _ _ _ _ ih =>
    exact nodup_cons.mpr ⟨fun h => (mem_fresh.mp h).2 mem_cons_self, ih⟩

variable {dag}

/-- The scan ends at the first new parent that the other side has seen. -/
theorem match_scanParents {α : Type} (found : CommonAncestor Id → α) (next : Side Id → α)
    (other parents : List Id) (side : Side Id) :
    (match scanParents dag other parents side with
      | (some ancestor, _) => found ancestor
      | (none, side) => next side) =
      match (fresh side.visited parents).find? fun p => decide (p ∈ other) with
      | some p => found ⟨p, dag.t p⟩
      | none => next (side.see dag (fresh side.visited parents)) := by
  induction parents generalizing side with
  | nil => simp [scanParents, fresh, Side.see]
  | cons parent rest ih =>
    unfold fresh scanParents
    by_cases hseen : parent ∈ side.visited
    · rw [if_pos hseen, if_pos hseen, ih]
    · rw [if_neg hseen, if_neg hseen]
      by_cases hother : parent ∈ other
      · rw [if_pos hother, find?_cons_of_pos (by simpa using hother)]
      · rw [if_neg hother, find?_cons_of_neg (by simpa using hother), ih]
        simp [Side.see]

end

variable {dag}

namespace Side

def expanded (side : Side Id) : List Id :=
  side.visited.filter fun x => x ∉ side.frontier.map Prod.snd

/-- A side that has come from a head. -/
structure Inv (dag : CommitDag Id V) (head : Id) (side : Side Id) : Prop where
  frontier_nodup : (side.frontier.map Prod.snd).Nodup
  entry : ∀ e ∈ side.frontier, e.1 = dag.t e.2
  seen : ∀ e ∈ side.frontier, e.2 ∈ side.visited
  closed : ∀ x ∈ side.expanded, ∀ p ∈ dag.parents x, p ∈ side.visited
  origin : ∀ x ∈ side.visited, x = head ∨ ∃ y ∈ side.expanded, x ∈ dag.parents y
  sound : ∀ x ∈ side.visited, dag.Reaches head x
  head_mem : head ∈ side.visited

variable {side : Side Id} {x : Id}

theorem mem_expanded : x ∈ side.expanded ↔ x ∈ side.visited ∧ x ∉ side.frontier.map Prod.snd := by
  simp [expanded]

theorem inv_start (head : Id) : Inv dag head (start dag head) where
  frontier_nodup := pairwise_singleton ..
  entry e he := by rw [mem_singleton.mp he]
  seen e he := by rw [mem_singleton.mp he]; exact mem_singleton_self _
  closed x hx := by
    rw [mem_expanded] at hx
    exact absurd hx.1 hx.2
  origin x hx := .inl (mem_singleton.mp hx)
  sound x hx := by
    rw [mem_singleton.mp hx]
    exact Relation.ReflTransGen.refl
  head_mem := mem_singleton_self _

theorem expand_eq_none : side.expand dag = none ↔ side.frontier = [] := by
  unfold expand
  rw [Option.map_eq_none_iff, popMax_eq_none]

/-- What an expansion is: the latest entry goes, what is new comes. -/
structure Expands (dag : CommitDag Id V) (side : Side Id) (e : ℤ × Id) (new : List Id)
    (side' : Side Id) : Prop where
  latest : ∀ e' ∈ side.frontier, e'.1 ≤ e.1
  perm : side'.frontier.Perm (side.frontier.erase e ++ new.map fun p => (dag.t p, p))
  mem : e ∈ side.frontier
  new_eq : new = fresh side.visited (dag.parents e.2)
  visited_eq : side'.visited = new.reverse ++ side.visited

theorem expands_of_expand {side' : Side Id} {new : List Id}
    (h : side.expand dag = some (e, new, side')) : Expands dag side e new side' := by
  obtain ⟨⟨e', rest⟩, htaken, heq⟩ := Option.map_eq_some_iff.mp h
  obtain ⟨rfl, rfl, rfl⟩ := heq
  obtain ⟨hperm, hlatest⟩ := popMax_eq_some htaken
  have hrest : rest.Perm (side.frontier.erase e') := by
    have h := hperm.erase e'
    rw [erase_cons_head] at h
    exact h.symm
  exact
    { latest := hlatest
      perm := hrest.append_right _
      mem := hperm.mem_iff.mpr mem_cons_self
      new_eq := rfl
      visited_eq := rfl }

variable {head : Id} {side' : Side Id} {new : List Id}

section

variable (h : Expands dag side e new side')

include h

theorem Expands.mem_new : x ∈ new ↔ x ∈ dag.parents e.2 ∧ x ∉ side.visited := by
  rw [h.new_eq, mem_fresh]

theorem Expands.new_nodup : new.Nodup :=
  h.new_eq ▸ fresh_nodup ..

theorem Expands.mem_visited : x ∈ side'.visited ↔ x ∈ new ∨ x ∈ side.visited := by
  rw [h.visited_eq, mem_append, mem_reverse]

theorem Expands.mem_expanded (hinv : Inv dag head side) :
    x ∈ side'.expanded ↔ x = e.2 ∨ x ∈ side.expanded := by
  have hnew : ∀ x ∈ new, x ∉ side.visited := fun x hx => (h.mem_new.mp hx).2
  have hfrontier : ∀ x, x ∈ side'.frontier.map Prod.snd ↔
      x ∈ (side.frontier.erase e).map Prod.snd ∨ x ∈ new := by
    intro x
    rw [(h.perm.map Prod.snd).mem_iff, map_append]
    simp
  have hsplit : side.frontier.Perm (e :: side.frontier.erase e) := perm_cons_erase h.mem
  have hids : (side.frontier.map Prod.snd).Perm (e.2 :: (side.frontier.erase e).map Prod.snd) :=
    hsplit.map Prod.snd
  have hgone : e.2 ∉ (side.frontier.erase e).map Prod.snd :=
    (nodup_cons.mp (hids.nodup_iff.mp hinv.frontier_nodup)).1
  rw [Side.mem_expanded, Side.mem_expanded, h.visited_eq, hfrontier, hids.mem_iff, mem_append,
    mem_reverse, mem_cons]
  constructor
  · rintro ⟨hx | hx, hout⟩
    · exact absurd (.inr hx) hout
    · by_cases hxe : x = e.2
      · exact .inl hxe
      · exact .inr ⟨hx, fun h => h.elim hxe fun h => hout (.inl h)⟩
  · rintro (rfl | ⟨hx, hout⟩)
    · refine ⟨.inr (hinv.seen e h.mem), fun hin => hin.elim hgone fun hin => ?_⟩
      exact hnew _ hin (hinv.seen e h.mem)
    · exact ⟨.inr hx, fun hin => hin.elim (fun hin => hout (.inr hin)) fun hin => hnew x hin hx⟩

theorem Expands.inv (hinv : Inv dag head side) : Inv dag head side' := by
  have hcases : ∀ e' ∈ side'.frontier, e' ∈ side.frontier ∨ ∃ p ∈ new, (dag.t p, p) = e' := by
    intro e' he'
    rw [h.perm.mem_iff, mem_append, mem_map] at he'
    exact he'.imp_left mem_of_mem_erase
  refine ⟨?_, ?_, ?_, ?_, ?_, ?_, ?_⟩
  · have hold : ((side.frontier.erase e).map Prod.snd).Nodup :=
      hinv.frontier_nodup.sublist (erase_sublist.map _)
    rw [(h.perm.map Prod.snd).nodup_iff, map_append, map_map]
    have hid : new.map (Prod.snd ∘ fun p => (dag.t p, p)) = new := by simp [Function.comp_def]
    rw [hid, nodup_append]
    refine ⟨hold, h.new_nodup, ?_⟩
    rintro x hx y hy rfl
    obtain ⟨e', he', rfl⟩ := mem_map.mp hx
    exact (h.mem_new.mp hy).2 (hinv.seen e' (mem_of_mem_erase he'))
  · intro e' he'
    obtain he' | ⟨p, -, rfl⟩ := hcases e' he'
    · exact hinv.entry e' he'
    · rfl
  · intro e' he'
    rw [h.mem_visited]
    obtain he' | ⟨p, hp, rfl⟩ := hcases e' he'
    · exact .inr (hinv.seen e' he')
    · exact .inl hp
  · intro x hx p hp
    rw [h.mem_visited]
    obtain rfl | hx := (h.mem_expanded hinv).mp hx
    · by_cases hseen : p ∈ side.visited
      · exact .inr hseen
      · exact .inl (h.mem_new.mpr ⟨hp, hseen⟩)
    · exact .inr (hinv.closed x hx p hp)
  · intro x hx
    obtain hx | hx := h.mem_visited.mp hx
    · exact .inr ⟨e.2, (h.mem_expanded hinv).mpr (.inl rfl), (h.mem_new.mp hx).1⟩
    · refine (hinv.origin x hx).imp_right fun ⟨y, hy, hparent⟩ => ⟨y, ?_, hparent⟩
      exact (h.mem_expanded hinv).mpr (.inr hy)
  · intro x hx
    obtain hx | hx := h.mem_visited.mp hx
    · exact Reaches.tail (hinv.sound _ (hinv.seen e h.mem)) (h.mem_new.mp hx).1
    · exact hinv.sound x hx
  · exact h.mem_visited.mpr (.inr hinv.head_mem)

end

/-- A commit that is reached and not seen lies behind the frontier. -/
theorem Inv.behind (hinv : Inv dag head side) {p : Id} (hp : dag.Reaches head p)
    (hnew : p ∉ side.visited) : ∃ e ∈ side.frontier, dag.Reaches e.2 p ∧ e.2 ≠ p := by
  induction hp with
  | refl => exact absurd hinv.head_mem hnew
  | @tail x p _ hedge ih =>
    by_cases hx : x ∈ side.visited
    · by_cases hfrontier : x ∈ side.frontier.map Prod.snd
      · obtain ⟨e, he, rfl⟩ := mem_map.mp hfrontier
        refine ⟨e, he, Reaches.tail (Reaches.refl ..) hedge, ?_⟩
        rintro rfl
        exact hnew hx
      · exact absurd (hinv.closed x (mem_expanded.mpr ⟨hx, hfrontier⟩) p hedge) hnew
    · obtain ⟨e, he, hreach, -⟩ := ih hx
      refine ⟨e, he, Reaches.tail hreach hedge, ?_⟩
      rintro rfl
      exact hnew (hinv.seen e he)

end Side

end FlureeDb.Branch
