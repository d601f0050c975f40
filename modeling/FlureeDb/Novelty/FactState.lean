import FlureeDb.Core.Comparator
import FlureeDb.Lib.LexKey
import FlureeDb.Lib.OpLog

/-!
The identity of a fact inside a graph, and the latest operation known for each
identity. Identities are equal when the comparators of their components say so. The
ordered map of the code is the function that looks a key up in it; it gives equal
keys the same entry.
-/

namespace FlureeDb.Novelty

open FlureeDb.Core Lib

abbrev GraphId := Fin (2 ^ 16)

section

variable {V : Type} [ObjectValue V]

/-- The order of the keys of the map: subject, predicate, object, datatype and
metadata, one after the other. -/
def keyCmp (a b : Flake V) : Ordering :=
  (((a.s.cmp b.s).then (a.p.cmp b.p)).then (a.cmpObject b)).then (a.cmpMeta b)

/-- The test the bulk load makes of two flakes. -/
def sameIdentity (a b : Flake V) : Bool :=
  a.s == b.s && a.p == b.p && a.cmpObject b == .eq && a.cmpMeta b == .eq

instance : Std.TransCmp (keyCmp : Flake V → Flake V → Ordering) :=
  inferInstanceAs (Std.TransCmp (compareLex (compareLex (compareLex
    (fun a b : Flake V => a.s.cmp b.s) fun a b => a.p.cmp b.p) Flake.cmpObject) Flake.cmpMeta))

theorem sameIdentity_iff (a b : Flake V) : sameIdentity a b = true ↔ keyCmp a b = .eq := by
  simp only [sameIdentity, keyCmp, Bool.and_eq_true, beq_iff_eq, Ordering.then_eq_eq,
    Sid.cmp_eq_iff]

variable {a b : Flake V}

theorem keyCmp_symm (h : keyCmp a b = .eq) : keyCmp b a = .eq :=
  Std.OrientedCmp.eq_symm h

theorem keyCmp_trans {c : Flake V} (hab : keyCmp a b = .eq) (hbc : keyCmp b c = .eq) :
    keyCmp a c = .eq :=
  Std.TransCmp.eq_trans hab hbc

theorem keyCmp_of_eq (h : a.eq b = true) : keyCmp a b = .eq := by
  simp only [Flake.eq, Bool.and_eq_true, beq_iff_eq] at h
  obtain ⟨⟨⟨⟨hs, hp⟩, ho⟩, hdt⟩, hm⟩ := h
  simp only [keyCmp, Ordering.then_eq_eq, Sid.cmp_eq_iff, Flake.cmpObject, Flake.cmpMeta_eq]
  refine ⟨⟨⟨hs, hp⟩, ObjectValue.cmp_of_eq ho, hdt⟩, ?_⟩
  rw [hm]
  exact Std.compare_self

theorem eq_refl (a : Flake V) : a.eq a = true := by
  simp [Flake.eq, ObjectValue.eq_refl]

theorem eq_symm (h : a.eq b = true) : b.eq a = true := by
  simp only [Flake.eq, Bool.and_eq_true, beq_iff_eq] at h ⊢
  obtain ⟨⟨⟨⟨hs, hp⟩, ho⟩, hdt⟩, hm⟩ := h
  exact ⟨⟨⟨⟨hs.symm, hp.symm⟩, ObjectValue.eq_symm ho⟩, hdt.symm⟩, hm.symm⟩

theorem eq_trans {c : Flake V} (hab : a.eq b = true) (hbc : b.eq c = true) : a.eq c = true := by
  simp only [Flake.eq, Bool.and_eq_true, beq_iff_eq] at hab hbc ⊢
  obtain ⟨⟨⟨⟨hs, hp⟩, ho⟩, hdt⟩, hm⟩ := hab
  obtain ⟨⟨⟨⟨hs', hp'⟩, ho'⟩, hdt'⟩, hm'⟩ := hbc
  exact ⟨⟨⟨⟨hs.trans hs', hp.trans hp'⟩, ObjectValue.eq_trans ho ho'⟩, hdt.trans hdt'⟩,
    hm.trans hm'⟩

theorem eq_of_same (h : a.same b = true) : a.eq b = true := (Bool.and_eq_true_iff.mp h).1

theorem same_equivalence : Equivalence fun a b : Flake V => a.same b = true where
  refl a := by simp [Flake.same, eq_refl]
  symm h := by
    simp only [Flake.same, Bool.and_eq_true, beq_iff_eq] at h ⊢
    exact ⟨eq_symm h.1, h.2.symm⟩
  trans hab hbc := by
    simp only [Flake.same, Bool.and_eq_true, beq_iff_eq] at hab hbc ⊢
    exact ⟨eq_trans hab.1 hbc.1, hab.2.trans hbc.2⟩

def opOf (f : Flake V) : ℤ × Bool := (f.t, f.op)

/-- The operations that flakes hold on the fact of `key`. -/
def opsOf (key : Flake V) (flakes : List (Flake V)) : OpLog :=
  (flakes.filter fun f => keyCmp key f == .eq).map opOf

@[simp] theorem opsOf_nil (key : Flake V) : opsOf key [] = [] := rfl

theorem opsOf_append (key : Flake V) (a b : List (Flake V)) :
    opsOf key (a ++ b) = opsOf key a ++ opsOf key b := by
  simp [opsOf]

theorem opsOf_cons_of_eq {key f : Flake V} (h : keyCmp key f = .eq) (flakes : List (Flake V)) :
    opsOf key (f :: flakes) = opOf f :: opsOf key flakes := by
  simp [opsOf, h]

theorem opsOf_cons_of_ne {key f : Flake V} (h : keyCmp key f ≠ .eq) (flakes : List (Flake V)) :
    opsOf key (f :: flakes) = opsOf key flakes := by
  simp [opsOf, h]

theorem mem_opsOf {key : Flake V} {flakes : List (Flake V)} {op : ℤ × Bool} :
    op ∈ opsOf key flakes ↔ ∃ f ∈ flakes, keyCmp key f = .eq ∧ opOf f = op := by
  simp [opsOf, and_assoc]

theorem opsOf_perm {a b : List (Flake V)} (h : a.Perm b) (key : Flake V) :
    (opsOf key a).Perm (opsOf key b) :=
  (h.filter _).map _

end

section

variable (V : Type) [ObjectValue V]

structure FactState where
  get : ℕ → Flake V → Option (ℤ × Bool)
  congr : ∀ g {key key' : Flake V}, keyCmp key key' = .eq → get g key = get g key'

end

namespace FactState

variable {V : Type} [ObjectValue V]

def new : FactState V where
  get _ _ := none
  congr _ _ _ _ := rfl

variable (fs : FactState V)

def isAsserted (g : ℕ) (f : Flake V) : Bool := OpLog.asserted (fs.get g f)

/-- Whether a flake replaces the entry of its identity. -/
def wins (fs : FactState V) (g : ℕ) (f : Flake V) : Bool :=
  match fs.get g f with
  | some cur => OpLog.wins (opOf f) cur
  | none => true

/-- Records a flake: a later operation wins, and at one time a retract. -/
def record (g : ℕ) (f : Flake V) : FactState V where
  get g' key :=
    if g' = g ∧ keyCmp f key = .eq ∧ fs.wins g f = true then some (opOf f) else fs.get g' key
  congr g' key key' h := by
    have hsame : keyCmp f key = keyCmp f key' := Std.TransCmp.congr_right h
    rw [hsame, fs.congr g' h]

def recordAll (g : ℕ) (flakes : List (Flake V)) : FactState V :=
  flakes.foldl (fun fs f => fs.record g f) fs

theorem get_record_of_eq (g : ℕ) {f key : Flake V} (h : keyCmp key f = .eq) :
    (fs.record g f).get g key = OpLog.latest (fs.get g key) (opOf f) := by
  have hkey := keyCmp_symm h
  change (if g = g ∧ keyCmp f key = .eq ∧ fs.wins g f = true then some (opOf f)
    else fs.get g key) = _
  unfold wins
  rw [fs.congr g h]
  cases hcur : fs.get g f with
  | none | some cur => simp [hkey, OpLog.latest]

theorem get_record_of_ne (g : ℕ) {f key : Flake V} (h : keyCmp key f ≠ .eq) :
    (fs.record g f).get g key = fs.get g key := by
  have hkey : keyCmp f key ≠ .eq := fun h' => h (keyCmp_symm h')
  simp [record, hkey]

theorem get_record_of_graph {g g' : ℕ} (h : g' ≠ g) (f key : Flake V) :
    (fs.record g f).get g' key = fs.get g' key := by
  simp [record, h]

/-- An entry after recording is decided by the operations on its identity. -/
theorem get_recordAll (g : ℕ) (flakes : List (Flake V)) (key : Flake V) :
    (fs.recordAll g flakes).get g key =
      (opsOf key flakes).foldl OpLog.latest (fs.get g key) := by
  unfold recordAll
  induction flakes generalizing fs with
  | nil => rfl
  | cons f flakes ih =>
    rw [List.foldl_cons, ih]
    by_cases h : keyCmp key f = .eq
    · rw [opsOf_cons_of_eq h, List.foldl_cons, get_record_of_eq fs g h]
    · rw [opsOf_cons_of_ne h, get_record_of_ne fs g h]

theorem get_recordAll_of_graph {g g' : ℕ} (h : g' ≠ g) (flakes : List (Flake V)) (key : Flake V) :
    (fs.recordAll g flakes).get g' key = fs.get g' key := by
  unfold recordAll
  induction flakes generalizing fs with
  | nil => rfl
  | cons f flakes ih => rw [List.foldl_cons, ih, get_record_of_graph fs h]

end FactState

end FlureeDb.Novelty
