import FlureeDb.Core.ValueHash

/-!
Flakes and the four orders they are indexed by. The type of the object value is a
parameter with a comparator that is a total preorder, an equality that is finer than it
and what a value feeds to a hasher; the ordinary values are such a type. Every order is a
chain of comparisons of components, so that it inherits the laws of the components.
-/

namespace FlureeDb.Core

open Lib FlakeValue FlakeMeta

def Sid.display (sid : Sid) : String :=
  "[" ++ toString sid.namespaceCode ++ ":" ++ sid.name ++ "]"

instance : Std.TransCmp Sid.cmp :=
  inferInstanceAs (Std.TransCmp (compareLex (compareOn Sid.namespaceCode) (compareOn Sid.name)))

theorem Sid.cmp_eq_iff (a b : Sid) : a.cmp b = .eq ↔ a = b := by
  obtain ⟨code, name⟩ := a
  obtain ⟨code', name'⟩ := b
  simp [Sid.cmp]

/-- The language where it counts. -/
def FlakeMeta.plainLang (m : FlakeMeta) : Option String :=
  if m.i.isNone then m.lang else none

theorem FlakeMeta.cmp_eq_compareLex : cmp = compareLex (compareOn i) (compareOn plainLang) := by
  funext a b
  obtain ⟨lang, i⟩ := a
  obtain ⟨lang', i'⟩ := b
  cases i with
  | none =>
    cases i' with
    | none => cases lang <;> cases lang' <;> rfl
    | some j => rfl
  | some i =>
    cases i' with
    | none => rfl
    | some j =>
      simp only [compareLex, compareOn, plainLang, Option.isNone_some,
        Bool.false_eq_true, if_false, Std.compare_self, Ordering.then_eq]
      rfl

instance : Std.TransCmp FlakeMeta.cmp := by
  rw [FlakeMeta.cmp_eq_compareLex]
  infer_instance

instance : Ord FlakeMeta := ⟨cmp⟩

instance : Std.TransOrd FlakeMeta := inferInstanceAs (Std.TransCmp FlakeMeta.cmp)

/-- What a flake needs of its object: a comparator, an equality, what it feeds to a hasher,
and how many bytes it counts for. Equal objects need not be hashed alike. -/
class ObjectValue (V : Type) where
  cmp : V → V → Ordering
  eq : V → V → Bool
  hash : V → List HashWrite
  sizeBytes : V → ℕ
  transCmp : Std.TransCmp cmp
  eq_refl : ∀ v, eq v v = true
  eq_symm : ∀ {v w}, eq v w = true → eq w v = true
  eq_trans : ∀ {u v w}, eq u v = true → eq v w = true → eq u w = true
  cmp_of_eq : ∀ {v w}, eq v w = true → cmp v w = .eq

instance {V : Type} [ObjectValue V] : Std.TransCmp (ObjectValue.cmp : V → V → Ordering) :=
  ObjectValue.transCmp

/-- A fact with the time and the kind of the operation on it. -/
structure Flake (V : Type) where
  g : Option Sid
  s : Sid
  p : Sid
  o : V
  dt : Sid
  t : ℤ
  op : Bool
  m : Option FlakeMeta

inductive IndexType
  | spot
  | psot
  | post
  | opst
  deriving DecidableEq

namespace Flake

variable {V : Type} [ObjectValue V]

variable (a b : Flake V)

def cmpObject : Ordering := (ObjectValue.cmp a.o b.o).then (a.dt.cmp b.dt)

/-- Absent metadata comes first. -/
def cmpMeta : Ordering :=
  match a.m, b.m with
  | none, none => .eq
  | none, some _ => .lt
  | some _, none => .gt
  | some m, some m' => m.cmp m'

def cmpSpot : Ordering :=
  (((((a.s.cmp b.s).then (a.p.cmp b.p)).then (cmpObject a b)).then (compare a.t b.t)).then
    (compare a.op b.op)).then (cmpMeta a b)

def cmpPsot : Ordering :=
  (((((a.p.cmp b.p).then (a.s.cmp b.s)).then (cmpObject a b)).then (compare a.t b.t)).then
    (compare a.op b.op)).then (cmpMeta a b)

def cmpPost : Ordering :=
  (((((a.p.cmp b.p).then (cmpObject a b)).then (a.s.cmp b.s)).then (compare a.t b.t)).then
    (compare a.op b.op)).then (cmpMeta a b)

def cmpOpst : Ordering :=
  (((((cmpObject a b).then (a.p.cmp b.p)).then (a.s.cmp b.s)).then (compare a.t b.t)).then
    (compare a.op b.op)).then (cmpMeta a b)

/-- Equality of facts: the graph, the time and the operation are no part of it. -/
def eq (a b : Flake V) : Bool :=
  a.s == b.s && a.p == b.p && ObjectValue.eq a.o b.o && a.dt == b.dt && a.m == b.m

/-- The flakes of one entry of a hash table: equal ones that are hashed alike. All but the
object is hashed alike if it is equal, and a hasher is taken to tell different writes apart. -/
def same (a b : Flake V) : Bool := a.eq b && ObjectValue.hash a.o == ObjectValue.hash b.o

/-- Bytes for the subject, the predicate and the datatype, the object, the metadata,
the time and the operation. -/
def sizeBytes (f : Flake V) : ℕ :=
  let base := 16 + (8 + f.s.name.utf8ByteSize) + (8 + f.p.name.utf8ByteSize) +
    (8 + f.dt.name.utf8ByteSize)
  let metaSize := (f.m.map fun m => 8 + (m.lang.map String.utf8ByteSize).getD 0 + 4).getD 0
  base + ObjectValue.sizeBytes f.o + metaSize + 9

/-! ### The comparisons are lawful -/

omit [ObjectValue V] in
theorem cmpMeta_eq : cmpMeta a b = compare a.m b.m := by
  unfold cmpMeta
  cases a.m with
  | none => cases b.m <;> rfl
  | some m => cases b.m <;> rfl

instance : Std.TransCmp (cmpMeta : Flake V → Flake V → Ordering) := by
  have h : (cmpMeta : Flake V → Flake V → Ordering) = fun a b => compare a.m b.m := by
    funext a b
    exact cmpMeta_eq a b
  rw [h]
  exact transCmp_comap Flake.m compare

instance : Std.TransCmp fun a b : Flake V => a.s.cmp b.s := transCmp_comap Flake.s Sid.cmp

instance : Std.TransCmp fun a b : Flake V => a.p.cmp b.p := transCmp_comap Flake.p Sid.cmp

instance : Std.TransCmp fun a b : Flake V => a.dt.cmp b.dt := transCmp_comap Flake.dt Sid.cmp

instance : Std.TransCmp fun a b : Flake V => ObjectValue.cmp a.o b.o :=
  transCmp_comap Flake.o ObjectValue.cmp

instance : Std.TransCmp fun a b : Flake V => compare a.t b.t := transCmp_comap Flake.t compare

instance : Std.TransCmp fun a b : Flake V => compare a.op b.op := transCmp_comap Flake.op compare

instance : Std.TransCmp (cmpObject : Flake V → Flake V → Ordering) :=
  inferInstanceAs (Std.TransCmp (compareLex (fun a b : Flake V => ObjectValue.cmp a.o b.o)
    fun a b => a.dt.cmp b.dt))

omit [ObjectValue V] in
/-- Three comparisons, and behind them the time, the operation and the metadata. -/
theorem transCmp_chain (x y z : Flake V → Flake V → Ordering) [Std.TransCmp x] [Std.TransCmp y]
    [Std.TransCmp z] :
    Std.TransCmp (compareLex (compareLex (compareLex (compareLex (compareLex x y) z)
      fun a b => compare a.t b.t) fun a b => compare a.op b.op) cmpMeta) :=
  inferInstance

instance : Std.TransCmp (cmpSpot : Flake V → Flake V → Ordering) :=
  transCmp_chain (fun a b => a.s.cmp b.s) (fun a b => a.p.cmp b.p) cmpObject

instance : Std.TransCmp (cmpPsot : Flake V → Flake V → Ordering) :=
  transCmp_chain (fun a b => a.p.cmp b.p) (fun a b => a.s.cmp b.s) cmpObject

instance : Std.TransCmp (cmpPost : Flake V → Flake V → Ordering) :=
  transCmp_chain (fun a b => a.p.cmp b.p) cmpObject fun a b => a.s.cmp b.s

instance : Std.TransCmp (cmpOpst : Flake V → Flake V → Ordering) :=
  transCmp_chain cmpObject (fun a b => a.p.cmp b.p) fun a b => a.s.cmp b.s

end Flake

/-- The comparator of an index. -/
def IndexType.compare {V : Type} [ObjectValue V] : IndexType → Flake V → Flake V → Ordering
  | .spot => Flake.cmpSpot
  | .psot => Flake.cmpPsot
  | .post => Flake.cmpPost
  | .opst => Flake.cmpOpst

instance {V : Type} [ObjectValue V] (index : IndexType) :
    Std.TransCmp (index.compare : Flake V → Flake V → Ordering) := by
  cases index with
  | spot => exact inferInstanceAs (Std.TransCmp Flake.cmpSpot)
  | psot => exact inferInstanceAs (Std.TransCmp Flake.cmpPsot)
  | post => exact inferInstanceAs (Std.TransCmp Flake.cmpPost)
  | opst => exact inferInstanceAs (Std.TransCmp Flake.cmpOpst)

/-! ### The ordinary values -/

namespace FlakeValue

/-- Equal values are those that compare equal, and equal lists if they are
vectors. -/
theorem eq_iff (a b : FlakeValue) :
    a.eq b ↔ a.cmp b = .eq ∧ ∀ x y, a = .vector x → b = .vector y → x = y := by
  by_cases h : ∃ x y, a = .vector x ∧ b = .vector y
  · obtain ⟨x, y, rfl, rfl⟩ := h
    rw [vector_eq_iff]
    constructor
    · rintro rfl
      refine ⟨cmp_self _, fun u v hu hv => ?_⟩
      cases hu
      cases hv
      rfl
    · intro h
      exact h.2 x y rfl rfl
  · rw [eq_iff_cmp_of_not_vector fun x y hxy => h ⟨x, y, hxy⟩]
    exact ⟨fun hcmp => ⟨hcmp, fun x y hx hy => absurd ⟨x, y, hx, hy⟩ h⟩, fun h => h.1⟩

theorem eq_vector {x : List F64} {b : FlakeValue} (h : eq (.vector x) b) : b = .vector x := by
  have hsame := typeDiscriminant_of_eq (by simp [isNumeric]) h
  cases b <;> cases hsame
  next y =>
    rw [vector_eq_iff] at h
    rw [h]

end FlakeValue

abbrev OrdinaryValue := { v : FlakeValue // v.Ordinary }

instance : Std.TransCmp fun a b : OrdinaryValue => a.1.cmp b.1 where
  eq_swap {a b} := cmp_swap b.1 a.1
  isLE_trans {a b c} := ordinary_totalPreorder.trans a.1 a.2 b.1 b.2 c.1 c.2

/-- The ordinary values as objects of flakes. How many bytes a value counts for
depends on the text it was written as, which no comparison reads, and is left
open. -/
@[reducible] def ordinaryObject (sizeBytes : OrdinaryValue → ℕ) : ObjectValue OrdinaryValue where
  cmp a b := a.1.cmp b.1
  eq a b := a.1.eq b.1
  hash a := a.1.hash
  sizeBytes := sizeBytes
  transCmp := inferInstance
  eq_refl a := by
    rw [eq_iff]
    refine ⟨cmp_self _, fun x y hx hy => ?_⟩
    rw [hx] at hy
    cases hy
    rfl
  eq_symm {a b} h := by
    rw [eq_iff] at h ⊢
    refine ⟨?_, fun x y hx hy => (h.2 y x hy hx).symm⟩
    rw [cmp_swap, h.1]
    rfl
  eq_trans {a b c} hab hbc := by
    obtain ⟨a, ha⟩ := a
    obtain ⟨b, hb⟩ := b
    obtain ⟨c, hc⟩ := c
    dsimp only at hab hbc ⊢
    by_cases hvec : ∃ x, a = .vector x
    · obtain ⟨x, rfl⟩ := hvec
      cases eq_vector hab
      cases eq_vector hbc
      exact hbc
    · rw [eq_iff] at hab hbc ⊢
      refine ⟨?_, fun x y hx => absurd ⟨x, hx⟩ hvec⟩
      exact @Std.TransCmp.eq_trans OrdinaryValue (fun a b => a.1.cmp b.1) _ ⟨a, ha⟩ ⟨b, hb⟩ ⟨c, hc⟩
        hab.1 hbc.1
  cmp_of_eq {a b} h := ((eq_iff _ _).mp h).1

end FlureeDb.Core
