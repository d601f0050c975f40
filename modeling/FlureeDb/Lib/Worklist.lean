import Mathlib.Data.List.Nodup
import Mathlib.Algebra.Order.BigOperators.Group.List
import Mathlib.Algebra.Order.Group.Nat
import Mathlib.Algebra.GroupWithZero.Nat

/-!
A walk over a finite graph with a stack of vertices that are left to do and a list of
those seen. A vertex where the walk stops is seen, but not collected, and nothing
behind it is looked at. The walk ends, and it collects each vertex that it reaches
without passing a stop exactly once.
-/

namespace FlureeDb.Lib

open List Relation.ReflTransGen

variable {α : Type}

/-- A vertex is reached along edges. -/
def Reaches (next : α → List α) : α → α → Prop := Relation.ReflTransGen fun x y => y ∈ next x

/-- Reached with no stop on the way; the last vertex may be one. -/
def ReachesPast (next : α → List α) (stop : α → Bool) : α → α → Prop :=
  Relation.ReflTransGen fun x y => stop x = false ∧ y ∈ next x

variable {x : α}

namespace Reaches

theorem refl (next : α → List α) (x : α) : Reaches next x x := Relation.ReflTransGen.refl

variable {next : α → List α} {y : α}

theorem trans {z : α} (hxy : Reaches next x y) (hyz : Reaches next y z) : Reaches next x z :=
  Relation.ReflTransGen.trans hxy hyz

theorem tail {z : α} (hxy : Reaches next x y) (hz : z ∈ next y) : Reaches next x z :=
  Relation.ReflTransGen.tail hxy hz

/-- What holds of a vertex and passes along edges holds of all that is reached. -/
theorem invariant {p : α → Prop} (hstep : ∀ x, p x → ∀ y ∈ next x, p y) (hxy : Reaches next x y)
    (hx : p x) : p y := by
  induction hxy with
  | refl => exact hx
  | tail _ hy ih => exact hstep _ ih _ hy

end Reaches

structure Walk (α : Type) where
  /-- The top of the stack comes first. -/
  frontier : List α
  visited : List α
  collected : List α

variable {w : Walk α}

namespace Walk

variable [DecidableEq α] (next : α → List α) (stop : α → Bool)

def start (x : α) : Walk α := ⟨[x], [], []⟩

def step (w : Walk α) : Walk α :=
  match w.frontier with
  | [] => w
  | x :: rest =>
    if x ∈ w.visited then { w with frontier := rest }
    else if stop x then { w with frontier := rest, visited := x :: w.visited }
    else ⟨(next x).reverse ++ rest, x :: w.visited, w.collected ++ [x]⟩

def run : ℕ → Walk α → Walk α
  | 0, w => w
  | fuel + 1, w => run fuel (w.step next stop)

/-- Steps that are enough for the vertices given. -/
def bound (ids : List α) : ℕ := 1 + (ids.map fun x => (next x).length).sum

variable {next stop}

/-- What the walk keeps: nothing is collected twice, only vertices reached past no stop
are seen, and what they lead to is seen or left to do. -/
structure Inv (next : α → List α) (stop : α → Bool) (root : α) (w : Walk α) : Prop where
  nodup : w.collected.Nodup
  sound : ∀ x, x ∈ w.visited ∨ x ∈ w.frontier → ReachesPast next stop root x
  collected_iff : ∀ x, x ∈ w.collected ↔ x ∈ w.visited ∧ stop x = false
  root_mem : root ∈ w.visited ∨ root ∈ w.frontier
  closed : ∀ x ∈ w.collected, ∀ y ∈ next x, y ∈ w.visited ∨ y ∈ w.frontier

omit [DecidableEq α] in
theorem inv_start (root : α) : Inv next stop root (start root) where
  nodup := nodup_nil
  sound x hx := by
    obtain hx | hx := hx
    · cases hx
    · rw [mem_singleton.mp hx]
      exact refl
  collected_iff x := by simp [start]
  root_mem := .inr (mem_singleton.mpr rfl)
  closed x hx := by cases hx

variable (next stop) in
/-- What a vertex leads to, which is nothing for a stop. -/
def outs (x : α) : List α := if stop x then [] else next x

omit [DecidableEq α] in
theorem mem_outs {y : α} : y ∈ outs next stop x ↔ stop x = false ∧ y ∈ next x := by
  cases hstop : stop x <;> simp [outs, hstop]

theorem step_nil (h : w.frontier = []) : w.step next stop = w := by
  rw [step, h]

theorem step_cons {rest : List α} (h : w.frontier = x :: rest) :
    w.step next stop = if x ∈ w.visited then { w with frontier := rest } else
      ⟨(outs next stop x).reverse ++ rest, x :: w.visited,
        w.collected ++ if stop x then [] else [x]⟩ := by
  rw [step, h]
  cases hstop : stop x <;> simp [outs, hstop]

/-- One step keeps it, whichever of its ways it takes. -/
theorem Inv.step {root : α} (h : Inv next stop root w) : Inv next stop root (w.step next stop) := by
  cases hfrontier : w.frontier with
  | nil =>
    rw [step_nil hfrontier]
    exact h
  | cons x rest =>
    rw [step_cons hfrontier]
    split
    · next hseen =>
      have hknown : ∀ y, y ∈ w.visited ∨ y ∈ rest ↔ y ∈ w.visited ∨ y ∈ w.frontier := by
        intro y
        grind
      exact ⟨h.nodup, fun y hy => h.sound y ((hknown y).mp hy), h.collected_iff,
        (hknown root).mpr h.root_mem, fun y hy z hz => (hknown z).mpr (h.closed y hy z hz)⟩
    · next hnew =>
      have hknown : ∀ y, y ∈ x :: w.visited ∨ y ∈ (outs next stop x).reverse ++ rest ↔
          (y ∈ w.visited ∨ y ∈ w.frontier) ∨ y ∈ outs next stop x := by
        intro y
        grind
      have hcollected : ∀ y, y ∈ (w.collected ++ if stop x then [] else [x]) ↔
          y ∈ w.collected ∨ y = x ∧ stop x = false := by
        intro y
        cases hstop : stop x <;> simp
      refine ⟨?_, fun y hy => ?_, fun y => ?_, (hknown root).mpr (.inl h.root_mem),
        fun y hy z hz => (hknown z).mpr ?_⟩
      · have hfresh : x ∉ w.collected := fun hx => hnew ((h.collected_iff x).mp hx).1
        cases hstop : stop x
        · simpa using h.nodup.concat hfresh
        · simpa using h.nodup
      · obtain hy | hy := (hknown y).mp hy
        · exact h.sound y hy
        · exact tail (h.sound x (.inr (hfrontier ▸ mem_cons_self))) (mem_outs.mp hy)
      · rw [hcollected, h.collected_iff]
        grind
      · obtain hy | ⟨rfl, hgo⟩ := (hcollected y).mp hy
        · exact .inl (h.closed y hy z hz)
        · exact .inr (mem_outs.mpr ⟨hgo, hz⟩)

theorem Inv.run {root : α} (fuel : ℕ) (h : Inv next stop root w) :
    Inv next stop root (w.run next stop fuel) := by
  induction fuel generalizing w with
  | zero => exact h
  | succ fuel ih => exact ih h.step

/-! ### The walk ends -/

/-- The stack and the edges that can still be put on it. -/
def pending (next : α → List α) (ids : List α) (w : Walk α) : ℕ :=
  w.frontier.length + ((ids.filter fun x => x ∉ w.visited).map fun x => (next x).length).sum

theorem sum_unvisited_le (next : α → List α) (ids visited : List α) (x : α) :
    ((ids.filter fun y => y ∉ x :: visited).map fun y => (next y).length).sum ≤
      ((ids.filter fun y => y ∉ visited).map fun y => (next y).length).sum := by
  have hsub : (ids.filter fun y => y ∉ x :: visited).Sublist (ids.filter fun y => y ∉ visited) := by
    refine monotone_filter_right ids fun y hy => ?_
    simp only [mem_cons, not_or, decide_eq_true_eq] at hy ⊢
    exact hy.2
  exact (hsub.map _).sum_le_sum fun _ _ => Nat.zero_le _

variable {ids : List α}

theorem sum_unvisited_add_le (next : α → List α) {visited : List α} (hids : x ∈ ids)
    (hnew : x ∉ visited) :
    ((ids.filter fun y => y ∉ x :: visited).map fun y => (next y).length).sum + (next x).length ≤
      ((ids.filter fun y => y ∉ visited).map fun y => (next y).length).sum := by
  have hsum (seen : List α) := (((perm_cons_erase hids).filter fun y => y ∉ seen).map
    fun y => (next y).length).sum_eq
  have hle := sum_unvisited_le next (ids.erase x) visited x
  rw [hsum, hsum, filter_cons_of_neg (by simp), filter_cons_of_pos (by simpa using hnew),
    map_cons, sum_cons]
  omega

/-- A step that has something to do leaves less. -/
theorem pending_step (hids : ∀ x ∈ w.frontier, x ∈ ids) (hne : w.frontier ≠ []) :
    pending next ids (w.step next stop) < pending next ids w := by
  obtain ⟨x, rest, hfrontier⟩ := exists_cons_of_ne_nil hne
  have hx : x ∈ ids := hids x (hfrontier ▸ mem_cons_self)
  have houts : (outs next stop x).length ≤ (next x).length := by
    unfold outs
    split <;> simp
  rw [step_cons hfrontier, pending, pending, hfrontier, length_cons]
  split
  · exact Nat.add_lt_add_right (Nat.lt_succ_self _) _
  · next hnew =>
    have hle := sum_unvisited_add_le next hx hnew
    dsimp only
    rw [length_append, length_reverse]
    omega

theorem frontier_step (hclosed : ∀ x ∈ ids, ∀ y ∈ next x, y ∈ ids)
    (hids : ∀ x ∈ w.frontier, x ∈ ids) : ∀ x ∈ (w.step next stop).frontier, x ∈ ids := by
  cases hfrontier : w.frontier with
  | nil =>
    rw [step_nil hfrontier]
    exact hids
  | cons x =>
    rw [hfrontier, forall_mem_cons] at hids
    rw [step_cons hfrontier]
    split
    · exact hids.2
    · intro y hy
      obtain hy | hy := mem_append.mp hy
      · exact hclosed x hids.1 y (mem_outs.mp (mem_reverse.mp hy)).2
      · exact hids.2 y hy

theorem run_of_done (hdone : w.frontier = []) (fuel : ℕ) : w.run next stop fuel = w := by
  induction fuel with
  | zero => rfl
  | succ fuel ih =>
    rw [run, step_nil hdone]
    exact ih

theorem frontier_run (hclosed : ∀ x ∈ ids, ∀ y ∈ next x, y ∈ ids) (fuel : ℕ)
    (hids : ∀ x ∈ w.frontier, x ∈ ids) (hfuel : pending next ids w ≤ fuel) :
    (w.run next stop fuel).frontier = [] := by
  induction fuel generalizing w with
  | zero =>
    have hlen : w.frontier.length = 0 := by
      unfold pending at hfuel
      omega
    exact eq_nil_of_length_eq_zero hlen
  | succ fuel ih =>
    by_cases hdone : w.frontier = []
    · rw [run_of_done hdone]
      exact hdone
    · have hlt : pending next ids (w.step next stop) < pending next ids w :=
        pending_step hids hdone
      exact ih (frontier_step hclosed hids) (by omega)

/-! ### What is collected -/

/-- The vertices that a walk from the root collects, in the order of the visits. -/
def collect (next : α → List α) (stop : α → Bool) (ids : List α) (root : α) : List α :=
  ((start root).run next stop (bound next ids)).collected

variable {root : α}

theorem inv_collect (root : α) : Inv next stop root ((start root).run next stop (bound next ids)) :=
  (inv_start root).run _

theorem collect_nodup (root : α) : (collect next stop ids root).Nodup := (inv_collect root).nodup

theorem mem_collect (hclosed : ∀ x ∈ ids, ∀ y ∈ next x, y ∈ ids) (hroot : root ∈ ids) :
    x ∈ collect next stop ids root ↔ ReachesPast next stop root x ∧ stop x = false := by
  have hinv : Inv next stop root ((start root).run next stop (bound next ids)) := inv_collect root
  have hdone : ((start root).run next stop (bound next ids)).frontier = [] := by
    refine frontier_run hclosed _ (fun x hx => mem_singleton.mp hx ▸ hroot) ?_
    simp [pending, bound, start]
  have hseen : ∀ y, y ∈ ((start root).run next stop (bound next ids)).visited ∨
      y ∈ ((start root).run next stop (bound next ids)).frontier →
      y ∈ ((start root).run next stop (bound next ids)).visited := by
    intro y hy
    rw [hdone] at hy
    exact hy.resolve_right not_mem_nil
  unfold collect
  rw [hinv.collected_iff]
  refine ⟨fun hx => ⟨hinv.sound x (.inl hx.1), hx.2⟩, fun hx => ⟨?_, hx.2⟩⟩
  -- every vertex on the way is seen, because the one before it is collected
  induction hx.1 with
  | refl => exact hseen root hinv.root_mem
  | @tail y z _ hz ih =>
    exact hseen z (hinv.closed y ((hinv.collected_iff y).mpr ⟨ih ⟨‹_›, hz.1⟩, hz.1⟩) z hz.2)

end Walk

/-! ### A queue

The same with a queue and more than one vertex at the start. What was in the queue is kept in the
order in which it came. -/

namespace Queue

variable [DecidableEq α] (next : α → List α)

def push (seen todo : List α) (y : α) : List α := if y ∈ seen ++ todo then todo else todo ++ [y]

def run : ℕ → List α → List α → List α
  | 0, seen, todo => seen ++ todo
  | _ + 1, seen, [] => seen
  | fuel + 1, seen, x :: todo => run fuel (seen ++ [x]) ((next x).foldl (push (seen ++ [x])) todo)

/-- The queue and the vertices that can still come into it. -/
def pending (ids seen todo : List α) : ℕ :=
  todo.length + (ids.filter fun x => x ∉ seen ++ todo).length

theorem pending_push {ids : List α} {y : α} (hy : y ∈ ids) (seen todo : List α) :
    pending ids seen (push seen todo y) ≤ pending ids seen todo := by
  unfold push
  split
  · exact le_rfl
  · next hnew =>
    have hsub : (ids.filter fun x => x ∉ seen ++ (todo ++ [y])).Sublist
        (ids.filter fun x => x ∉ seen ++ todo) :=
      monotone_filter_right ids fun x => by simp_all
    have hne : (ids.filter fun x => x ∉ seen ++ (todo ++ [y])).length ≠
        (ids.filter fun x => x ∉ seen ++ todo).length := by
      intro heq
      have hin : y ∈ ids.filter fun x => x ∉ seen ++ todo :=
        mem_filter.mpr ⟨hy, decide_eq_true hnew⟩
      rw [← hsub.eq_of_length heq] at hin
      simp at hin
    have hle := hsub.length_le
    rw [pending, length_append, length_singleton]
    unfold pending
    omega

theorem pending_foldl_push {ids ys : List α} (hys : ∀ y ∈ ys, y ∈ ids) (seen todo : List α) :
    pending ids seen (ys.foldl (push seen) todo) ≤ pending ids seen todo :=
  foldlRecOn (motive := fun queue => pending ids seen queue ≤ pending ids seen todo) ys _ le_rfl
    fun queue hle _ hy => (pending_push (hys _ hy) seen queue).trans hle

theorem mem_foldl_push (ys seen todo : List α) (z : α) :
    z ∈ seen ++ ys.foldl (push seen) todo ↔ z ∈ seen ++ todo ∨ z ∈ ys := by
  induction ys generalizing todo with
  | nil => simp
  | cons y ys ih =>
    rw [foldl_cons, ih, push, mem_cons]
    split
    · next hin =>
      refine ⟨Or.imp_right .inr, ?_⟩
      rintro (hz | rfl | hz)
      · exact .inl hz
      · exact .inl hin
      · exact .inr hz
    · simp [or_assoc]

/-- With enough steps, a vertex comes into the queue if it is reached from one that was there. -/
theorem mem_run {next} {ids : List α} (hids : ∀ x, ∀ y ∈ next x, y ∈ ids) {fuel : ℕ}
    {seen todo : List α} (hclosed : ∀ x ∈ seen, ∀ y ∈ next x, y ∈ seen ++ todo)
    (hfuel : pending ids seen todo ≤ fuel) {z : α} :
    z ∈ run next fuel seen todo ↔ ∃ x ∈ seen ++ todo, Reaches next x z := by
  have hdone : ∀ seen : List α, (∀ x ∈ seen, ∀ y ∈ next x, y ∈ seen ++ []) →
      (z ∈ seen ↔ ∃ x ∈ seen ++ [], Reaches next x z) := by
    intro seen hclosed
    rw [append_nil] at hclosed ⊢
    exact ⟨fun hz => ⟨z, hz, .refl _ z⟩, fun ⟨x, hx, hz⟩ => Reaches.invariant hclosed hz hx⟩
  induction fuel generalizing seen todo with
  | zero =>
    obtain rfl : todo = [] := length_eq_zero_iff.mp (by unfold pending at hfuel; omega)
    rw [run, hdone seen hclosed |>.symm, append_nil]
  | succ fuel ih =>
    cases todo with
    | nil => exact hdone seen hclosed
    | cons x todo =>
      have hmem : ∀ y, y ∈ (seen ++ [x]) ++ (next x).foldl (push (seen ++ [x])) todo ↔
          y ∈ seen ++ x :: todo ∨ y ∈ next x := by
        intro y
        rw [mem_foldl_push, append_assoc, singleton_append]
      have hfuel' : pending ids (seen ++ [x]) ((next x).foldl (push (seen ++ [x])) todo) ≤ fuel := by
        refine (pending_foldl_push (hids x) _ _).trans ?_
        simp only [pending, append_assoc, singleton_append, length_cons] at hfuel ⊢
        omega
      have hclosed' : ∀ w ∈ seen ++ [x], ∀ y ∈ next w,
          y ∈ (seen ++ [x]) ++ (next x).foldl (push (seen ++ [x])) todo := by
        intro w hw y hy
        rw [hmem]
        obtain hw | rfl := mem_append.mp hw |>.imp_right mem_singleton.mp
        · exact .inl (hclosed w hw y hy)
        · exact .inr hy
      refine (ih hclosed' hfuel').trans ?_
      constructor
      · rintro ⟨w, hw, hz⟩
        obtain hw | hw := (hmem w).mp hw
        · exact ⟨w, hw, hz⟩
        · exact ⟨x, by simp, (Reaches.refl next x).tail hw |>.trans hz⟩
      · rintro ⟨w, hw, hz⟩
        exact ⟨w, (hmem w).mpr (.inl hw), hz⟩

end Queue

end FlureeDb.Lib
