import FlureeDb.Lib.Buckets
import FlureeDb.Novelty.Segmentation

/-!
The net effect of a range of commits. The range is walked from its newest flake to its oldest, and
of each fact the newest flake is kept if the oldest operation on the fact is of the same kind.
Otherwise the range is taken to end where it began, which is so only if the oldest operation
changed the fact. The accumulator knows a fact by a hash table, so that equal facts which are
hashed apart are netted apart.
-/

namespace FlureeDb.Branch

open FlureeDb.Core Lib List

variable {V : Type} [ObjectValue V]

/-- All of a flake but its time and operation. -/
structure FactKey (V : Type) where
  g : Option Sid
  s : Sid
  p : Sid
  o : V
  dt : Sid
  lang : Option String
  i : Option ℤ

def FactKey.of (f : Flake V) : FactKey V :=
  ⟨f.g, f.s, f.p, f.o, f.dt, f.m.bind FlakeMeta.lang, f.m.bind FlakeMeta.i⟩

def FactKey.eq (a b : FactKey V) : Bool :=
  a.g == b.g && a.s == b.s && a.p == b.p && ObjectValue.eq a.o b.o && a.dt == b.dt &&
    a.lang == b.lang && a.i == b.i

structure NetState (V : Type) where
  newest : Flake V
  oldestOp : Bool

/-- Two flakes have one entry of the table: equal keys that are hashed alike. All but the object
is hashed alike if it is equal. -/
def sameKey (a b : Flake V) : Bool :=
  (FactKey.of a).eq (.of b) && ObjectValue.hash a.o == ObjectValue.hash b.o

def NetState.record : Option (NetState V) → Flake V → Option (NetState V)
  | none, f => some ⟨f, f.op⟩
  | some st, f => some { st with oldestOp := f.op }

/-- An entry has the key of its flake. -/
abbrev NetChangeAccumulator (V : Type) := List (Flake V × Option (NetState V))

namespace NetChangeAccumulator

def pushNewestFirst (acc : NetChangeAccumulator V) (f : Flake V) : NetChangeAccumulator V :=
  Buckets.add sameKey NetState.record none acc f

def finish (acc : NetChangeAccumulator V) : List (Flake V) :=
  acc.filterMap fun e => (e.2.filter fun st => st.oldestOp == st.newest.op).map NetState.newest

end NetChangeAccumulator

/-- The commits are given oldest first, and walked the other way. -/
def netChanges (commits : List (List (Flake V))) : List (Flake V) :=
  NetChangeAccumulator.finish <| commits.reverse.foldl
    (fun acc commit => commit.reverse.foldl NetChangeAccumulator.pushNewestFirst acc) []

variable (holds : FactKey V → Prop) (flakes : List (Flake V))

/-- The facts that hold after flakes in their order. -/
def applied : FactKey V → Prop :=
  flakes.foldl (fun holds f k => if k.eq (.of f) then f.op = true else holds k) holds

/-- The facts that hold after changes in no order. -/
def changed (net : List (Flake V)) (k : FactKey V) : Prop :=
  (∃ f ∈ net, k.eq (.of f) ∧ f.op = true) ∨
    holds k ∧ ¬ ∃ f ∈ net, k.eq (.of f) ∧ f.op = false

/-- The flakes about a fact. -/
def about (k : FactKey V) : List (Flake V) :=
  flakes.filter fun f => k.eq (.of f)

/-- Those that have the entry of a flake. -/
def alike (v : Flake V) : List (Flake V) := flakes.filter (sameKey v)

/-- Some flakes about a fact that are hashed alike begin and end with one operation. -/
def Nets (k : FactKey V) (op : Bool) : Prop :=
  ∃ v ∈ about flakes k, (alike flakes v).head?.map Flake.op = some op ∧
    (alike flakes v).getLast?.map Flake.op = some op

theorem eq_equivalence : Equivalence fun a b : FactKey V => a.eq b = true where
  refl a := by simp [FactKey.eq, ObjectValue.eq_refl]
  symm {a b} h := by
    simp only [FactKey.eq, Bool.and_eq_true, beq_iff_eq] at h ⊢
    obtain ⟨⟨⟨⟨⟨⟨hg, hs⟩, hp⟩, ho⟩, hdt⟩, hlang⟩, hi⟩ := h
    simp [*, ObjectValue.eq_symm ho]
  trans {a b c} hab hbc := by
    simp only [FactKey.eq, Bool.and_eq_true, beq_iff_eq] at hab hbc ⊢
    obtain ⟨⟨⟨⟨⟨⟨hg, hs⟩, hp⟩, ho⟩, hdt⟩, hlang⟩, hi⟩ := hab
    obtain ⟨⟨⟨⟨⟨⟨hg', hs'⟩, hp'⟩, ho'⟩, hdt'⟩, hlang'⟩, hi'⟩ := hbc
    simp [*, ObjectValue.eq_trans ho]

theorem sameKey_equivalence : Equivalence fun a b : Flake V => sameKey a b = true where
  refl a := by simp [sameKey, eq_equivalence.refl]
  symm h := by
    simp only [sameKey, Bool.and_eq_true, beq_iff_eq] at h ⊢
    exact ⟨eq_equivalence.symm h.1, h.2.symm⟩
  trans hab hbc := by
    simp only [sameKey, Bool.and_eq_true, beq_iff_eq] at hab hbc ⊢
    exact ⟨eq_equivalence.trans hab.1 hbc.1, hab.2.trans hbc.2⟩

/-- The last flake about a fact decides. -/
theorem applied_iff (k : FactKey V) :
    applied holds flakes k ↔
      match (about flakes k).getLast? with
      | none => holds k
      | some last => last.op = true := by
  unfold applied about
  induction flakes using reverseRecOn with
  | nil => simp
  | append_singleton flakes f ih =>
    by_cases h : k.eq (.of f) = true
    · simp [h]
    · simpa [h] using ih

omit [ObjectValue V] in
theorem foldl_record (st : NetState V) (fs : List (Flake V)) :
    fs.foldl NetState.record (some st) =
      some { st with oldestOp := (fs.getLast?.map Flake.op).getD st.oldestOp } := by
  induction fs using List.reverseRecOn with
  | nil => rfl
  | append_singleton fs f ih => simp [ih, NetState.record]

/-- What is recorded in an entry, by its last flake and its first. -/
theorem collected_record (v : Flake V) :
    Buckets.collected sameKey NetState.record none flakes.reverse v =
      (alike flakes v).getLast?.map fun last =>
        ⟨last, ((alike flakes v).head?.map Flake.op).getD last.op⟩ := by
  change (flakes.reverse.filter (sameKey v)).foldl _ _ = _
  rw [filter_reverse]
  change (alike flakes v).reverse.foldl _ _ = _
  rcases eq_nil_or_concat' (alike flakes v) with hnil | ⟨fs, last, hlast⟩
  · simp [hnil]
  · rw [hlast, reverse_concat]
    refine (foldl_record _ _).trans ?_
    rw [getLast?_reverse, getLast?_concat, head?_append]
    cases fs.head? <;> rfl

/-- A change is left of an entry exactly if its first and its last operation are of its kind. -/
theorem exists_netChanges_alike (commits : List (List (Flake V))) (v : Flake V) (op : Bool) :
    (∃ f ∈ netChanges commits, sameKey v f = true ∧ f.op = op) ↔
      (alike commits.flatten v).head?.map Flake.op = some op ∧
        (alike commits.flatten v).getLast?.map Flake.op = some op := by
  have hsame := sameKey_equivalence (V := V)
  obtain ⟨acc, hnet, hacc⟩ : ∃ acc, netChanges commits = NetChangeAccumulator.finish acc ∧
      Buckets.Collects sameKey NetState.record none commits.flatten.reverse acc := by
    refine ⟨_, ?_, Buckets.collects_foldl hsame _⟩
    rw [reverse_flatten, ← map_reverse, foldl_flatten, foldl_map]
    rfl
  have hclass : ∀ e ∈ acc, ∀ st, e.2 = some st → sameKey e.1 st.newest = true := by
    intro e he st hst
    rw [hacc.contents e he, collected_record, Option.map_eq_some_iff] at hst
    obtain ⟨last, hlast, rfl⟩ := hst
    exact of_mem_filter (mem_of_getLast? hlast)
  have hfound := hacc.exists_iff hsame (a := v)
    (p := fun o => ∃ st, o = some st ∧ st.oldestOp = op ∧ st.newest.op = op) (by simp)
  rw [hnet]
  refine trans ?_ (hfound.trans ?_)
  · simp only [NetChangeAccumulator.finish, mem_filterMap, Option.map_eq_some_iff,
      Option.filter_eq_some_iff, beq_iff_eq]
    constructor
    · rintro ⟨f, ⟨e, he, st, ⟨hst, hkept⟩, rfl⟩, hv, hop⟩
      exact ⟨e, he, hsame.trans (hclass e he st hst) (hsame.symm hv), st, hst, hkept.trans hop, hop⟩
    · rintro ⟨e, he, hv, st, hst, hold, hnew⟩
      exact ⟨st.newest, ⟨e, he, st, ⟨hst, hold.trans hnew.symm⟩, rfl⟩,
        hsame.trans (hsame.symm hv) (hclass e he st hst), hnew⟩
  · rw [collected_record]
    cases alike commits.flatten v <;> simp [getLast?_cons]

theorem exists_netChanges_iff (commits : List (List (Flake V))) (k : FactKey V) (op : Bool) :
    (∃ f ∈ netChanges commits, k.eq (.of f) ∧ f.op = op) ↔ Nets commits.flatten k op := by
  constructor
  · rintro ⟨f, hf, hk, hop⟩
    obtain ⟨hfirst, hlast⟩ := (exists_netChanges_alike commits f op).mp
      ⟨f, hf, sameKey_equivalence.refl f, hop⟩
    obtain ⟨e, he, -⟩ := Option.map_eq_some_iff.mp hlast
    obtain ⟨hin, hsame⟩ := mem_filter.mp (mem_of_getLast? he)
    have halike : alike commits.flatten e = alike commits.flatten f := filter_congr fun a _ =>
      Bool.eq_iff_iff.mpr ⟨sameKey_equivalence.trans hsame,
        sameKey_equivalence.trans (sameKey_equivalence.symm hsame)⟩
    refine ⟨e, mem_filter.mpr ⟨hin, ?_⟩, halike ▸ hfirst, halike ▸ hlast⟩
    exact eq_equivalence.trans hk (Bool.and_eq_true_iff.mp hsame).1
  · rintro ⟨v, hv, hends⟩
    obtain ⟨f, hf, hsame, hop⟩ := (exists_netChanges_alike commits v op).mpr hends
    have hk : k.eq (.of v) = true := (mem_filter.mp hv).2
    exact ⟨f, hf, eq_equivalence.trans hk (Bool.and_eq_true_iff.mp hsame).1, hop⟩

/-- **Net changes.** They do to a set of facts what the commits do exactly if, of each fact that
the last operation asserts, an entry begins and ends with an assert, or the fact held and no entry
begins and ends with a retract; and of each fact that the last operation retracts, no entry begins
and ends with an assert, and if the fact held, one begins and ends with a retract. -/
theorem net_changes_exact_iff (commits : List (List (Flake V))) (holds : FactKey V → Prop) :
    (∀ k, changed holds (netChanges commits) k ↔ applied holds commits.flatten k) ↔
      ∀ k, ∀ last ∈ (about commits.flatten k).getLast?,
        (last.op = true →
          Nets commits.flatten k true ∨ (holds k ∧ ¬ Nets commits.flatten k false)) ∧
        (last.op = false →
          ¬ Nets commits.flatten k true ∧ (holds k → Nets commits.flatten k false)) := by
  refine forall_congr' fun k => ?_
  rw [changed, exists_netChanges_iff, exists_netChanges_iff, applied_iff]
  cases hlast : (about commits.flatten k).getLast? with
  | none =>
    have hnone : ∀ op, ¬ Nets commits.flatten k op := by
      rintro op ⟨v, hv, -⟩
      rw [getLast?_eq_none_iff.mp hlast] at hv
      cases hv
    simp [hnone]
  | some last =>
    cases hop : last.op with
    | true => simp [hop]
    | false => simp [hop]

open Novelty.Sample

/-- A fact that held is asserted again and then retracted. Nothing is left of the two. -/
theorem retraction_is_netted_away :
    changed (fun _ => True) (netChanges [[fact 2 1 true], [fact 2 2 false]]) (.of (fact 2 1 true)) ∧
      ¬ applied (fun _ => True) [[fact 2 1 true], [fact 2 2 false]].flatten
        (.of (fact 2 1 true)) := by
  have hnone : netChanges [[fact 2 1 true], [fact 2 2 false]] = [] := by decide +kernel
  have hlast : (about [[fact 2 1 true], [fact 2 2 false]].flatten (.of (fact 2 1 true))).getLast? =
    some (fact 2 2 false) := rfl
  rw [applied_iff, hlast, hnone]
  exact ⟨.inr ⟨trivial, by simp⟩, by decide⟩

end FlureeDb.Branch
