import FlureeDb.Iceberg.ValueCodec

/-!
Pruning by statistics. A data file or a row group is read unless its statistics rule out every
row that satisfies the filter. Those that are missing have to be read in the safe direction. Row
groups are never skipped wrongly. A file is, if a row has a null in a column without a null
count, or a NaN in a column whose bounds are equal.
-/

namespace FlureeDb.Iceberg

open Lib List

variable {op : ComparisonOp}

open TypedValue
open ComparisonOp (holds holds_mono holds_swap)

variable {v lit : TypedValue}

def boundsCanContain (op : ComparisonOp) (lit : TypedValue) (lower upper : Option TypedValue) :
    Bool :=
  match op with
  | .eq => lower.all (fun l => (l.le lit).getD true) && upper.all fun u => (lit.le u).getD true
  | .notEq => match lower, upper with
    | some l, some u => if l.eq u then !l.eq lit else true
    | _, _ => true
  | .lt => lower.all fun l => (l.lt lit).getD true
  | .ltEq => lower.all fun l => (l.le lit).getD true
  | .gt => upper.all fun u => (lit.lt u).getD true
  | .gtEq => upper.all fun u => (lit.le u).getD true

theorem boundsCanContain_none : boundsCanContain op lit none none = true := by
  cases op <;> rfl

/-- Bounds of the type of a value that enclose it, if it is no NaN. -/
structure Encloses (lower upper : Option TypedValue) (v : TypedValue) : Prop where
  lower : ∀ l ∈ lower, v.sameType l ∧ ∀ k ∈ v.key, ∃ a ∈ l.key, a ≤ k
  upper : ∀ u ∈ upper, v.sameType u ∧ ∀ k ∈ v.key, ∃ b ∈ u.key, k ≤ b

instance (lower upper : Option TypedValue) : Decidable (Encloses lower upper v) :=
  decidable_of_iff ((∀ l ∈ lower, v.sameType l ∧ ∀ k ∈ v.key, ∃ a ∈ l.key, a ≤ k) ∧
      ∀ u ∈ upper, v.sameType u ∧ ∀ k ∈ v.key, ∃ b ∈ u.key, k ≤ b)
    ⟨fun h => ⟨h.1, h.2⟩, fun h => ⟨h.lower, h.upper⟩⟩

/-- Bounds that enclose a value do not rule out a comparison that holds of it, unless they are
equal and the value is a NaN. -/
theorem Encloses.boundsCanContain {lower upper : Option TypedValue} (h : Encloses lower upper v)
    (hop : op.holds v.key lit.key)
    (hnan : v.key = none → ∀ l ∈ lower, ∀ u ∈ upper, l.eq u = false) :
    boundsCanContain op lit lower upper = true := by
  have hlow : ∀ {op' : ComparisonOp}, op' = .lt ∨ op' = .ltEq → op'.holds v.key lit.key →
      lower.all fun l => (compareIf op' l lit).getD true := fun hop' hv =>
    (Option.all_eq_true _ _).mpr fun l hl => compareIf_of_holds
      (holds_mono hop' hv (h.lower l hl).2 fun k hk => ⟨k, hk, le_rfl⟩)
  have hup : ∀ {op' : ComparisonOp}, op' = .lt ∨ op' = .ltEq → op'.holds lit.key v.key →
      upper.all fun u => (compareIf op' lit u).getD true := fun hop' hv =>
    (Option.all_eq_true _ _).mpr fun u hu => compareIf_of_holds
      (holds_mono hop' hv (fun k hk => ⟨k, hk, le_rfl⟩) (h.upper u hu).2)
  have heq : ∀ {a b : Option (ℚ ×ₗ List ℕ)}, ComparisonOp.eq.holds a b →
      ComparisonOp.ltEq.holds a b ∧ ComparisonOp.ltEq.holds b a := by
    rintro (_ | a) (_ | b) hab <;> simp_all [holds]
  cases op with
  | eq =>
    obtain ⟨hle, hge⟩ := heq hop
    exact Bool.and_eq_true_iff.mpr ⟨hlow (.inr rfl) hle, hup (.inr rfl) hge⟩
  | lt => exact hlow (.inl rfl) hop
  | ltEq => exact hlow (.inr rfl) hop
  | gt => exact hup (.inl rfl) ((holds_swap v.key lit.key).1 ▸ hop)
  | gtEq => exact hup (.inr rfl) ((holds_swap v.key lit.key).2 ▸ hop)
  | notEq =>
    unfold Iceberg.boundsCanContain
    dsimp only
    split
    · next l u =>
      split
      · next heq =>
        by_contra hlit
        have hlit : l.eq lit = true := by simpa using hlit
        cases hk : v.key with
        | none => exact absurd (hnan hk l rfl u rfl) (by simp [heq])
        | some k =>
          obtain ⟨a, ha, hak⟩ := (h.lower l rfl).2 k hk
          obtain ⟨b, hb, hkb⟩ := (h.upper u rfl).2 k hk
          rw [← (key_of_eq heq).1] at hb
          obtain rfl := Option.mem_unique ha hb
          rw [hk, ← (key_of_eq hlit).1, Option.mem_def.mp ha, le_antisymm hkb hak] at hop
          simp [holds] at hop
      · rfl
    · rfl

/-! ### Filters -/

variable {F : Type}

inductive LiteralValue
  | boolean (v : Bool)
  | int32 (v : ℤ)
  | int64 (v : ℤ)
  | float32 (v : F32)
  | float64 (v : F64)
  | string (v : List UInt8)
  | bytes (v : List UInt8)
  | date (v : ℤ)
  | timestamp (v : ℤ)
  | decimal (unscaled : ℤ) (precision : ℕ) (scale : ℤ)

def LiteralValue.toTypedValue : LiteralValue → TypedValue
  | boolean v => .boolean v
  | int32 v => .int32 v
  | int64 v => .int64 v
  | float32 v => .float32 v
  | float64 v => .float64 v
  | string v => .string v
  | bytes v => .bytes v
  | date v => .date v
  | timestamp v => .timestamp v
  | decimal unscaled precision scale => .decimal unscaled precision scale

/-- The fields are of any type `F`: all ids, or the columns of a table. -/
inductive Expression (F : Type)
  | alwaysTrue
  | alwaysFalse
  | not (inner : Expression F)
  | and (exprs : List (Expression F))
  | or (exprs : List (Expression F))
  | isNull (fieldId : F)
  | isNotNull (fieldId : F)
  | comparison (fieldId : F) (op : ComparisonOp) (value : LiteralValue)
  | inList (fieldId : F) (values : List LiteralValue)
  | notIn (fieldId : F) (values : List LiteralValue)

/-- The values of a row by their fields; a field without one is null. -/
abbrev Row (F : Type) := F → Option TypedValue

variable {rows : List (Row F)} {row : Row F} {f : F}

/-- Values of other types are not compared, but for the two types of timestamps. -/
def comparesTo (v : TypedValue) (op : ComparisonOp) (lit : LiteralValue) : Bool :=
  (v.sameType lit.toTypedValue || match v, lit with
    | timestampTz _, .timestamp _ => true
    | _, _ => false) && op.holds v.key lit.toTypedValue.key

namespace Expression

/-- Whether all values are true, if that is known. -/
def allTrue (values : List (Option Bool)) : Option Bool :=
  if some false ∈ values then some false else if none ∈ values then none else some true

def anyTrue (values : List (Option Bool)) : Option Bool :=
  (allTrue (values.map (Option.map Bool.not))).map Bool.not

theorem all_of_allTrue {α : Type} {known : α → Option Bool} {value : α → Bool} {l : List α}
    (hvalue : ∀ a ∈ l, ∀ b, known a = some b → value a = b) {b : Bool}
    (h : allTrue (l.map known) = some b) : l.all value = b := by
  unfold allTrue at h
  split at h
  · next hfalse =>
    obtain ⟨a, ha, hknown⟩ := mem_map.mp hfalse
    cases h
    exact all_eq_false.mpr ⟨a, ha, by simp [hvalue a ha false hknown]⟩
  · next hfalse =>
    split at h
    · cases h
    · next hnone =>
      cases h
      refine all_eq_true.mpr fun a ha => ?_
      cases hknown : known a with
      | none => exact absurd (mem_map.mpr ⟨a, ha, hknown⟩) hnone
      | some b =>
        cases b with
        | false => exact absurd (mem_map.mpr ⟨a, ha, hknown⟩) hfalse
        | true => exact hvalue a ha true hknown

/-- Whether a row satisfies a filter, in three values: nothing is known of a comparison with null. -/
def eval (row : Row F) : Expression F → Option Bool
  | alwaysTrue => some true
  | alwaysFalse => some false
  | not inner => (eval row inner).map Bool.not
  | and exprs => allTrue (exprs.map fun e => eval row e)
  | or exprs => anyTrue (exprs.map fun e => eval row e)
  | isNull f => some (row f).isNone
  | isNotNull f => some (row f).isSome
  | comparison f op value => (row f).map fun v => comparesTo v op value
  | inList f values => (row f).map fun v => values.any (comparesTo v .eq)
  | notIn f values => (row f).map fun v => !values.any (comparesTo v .eq)

/-- Whether a row satisfies a filter, in two values: a comparison with null is not true. -/
def satisfiedBy (row : Row F) : Expression F → Bool
  | alwaysTrue => true
  | alwaysFalse => false
  | not inner => !satisfiedBy row inner
  | and exprs => (exprs.map fun e => satisfiedBy row e).all id
  | or exprs => (exprs.map fun e => satisfiedBy row e).any id
  | isNull f => (row f).isNone
  | isNotNull f => (row f).isSome
  | comparison f op value => (row f).any fun v => comparesTo v op value
  | inList f values => (row f).any fun v => values.any (comparesTo v .eq)
  | notIn f values => !(row f).any fun v => values.any (comparesTo v .eq)

/-- What is known in three values is the same in two. -/
theorem satisfiedBy_of_eval {e : Expression F} {b : Bool} (h : e.eval row = some b) :
    e.satisfiedBy row = b := by
  fun_induction satisfiedBy row e generalizing b with
  | case1 | case2 | case6 | case7 => simpa [eval] using h
  | case3 inner ih =>
    rw [eval] at h
    obtain ⟨value, hvalue, rfl⟩ := Option.map_eq_some_iff.mp h
    rw [ih hvalue]
  | case4 exprs ih =>
    rw [eval] at h
    rw [all_map]
    exact all_of_allTrue (fun e he _ => ih e he) h
  | case5 exprs ih =>
    rw [eval, anyTrue, map_map] at h
    obtain ⟨value, hvalue, rfl⟩ := Option.map_eq_some_iff.mp h
    have hall : (exprs.all fun e => !satisfiedBy row e) = value := by
      refine all_of_allTrue (fun e he b hknown => ?_) hvalue
      obtain ⟨value, hvalue, rfl⟩ := Option.map_eq_some_iff.mp hknown
      rw [ih e he hvalue]
    rw [any_map, ← hall, not_all_eq_any_not]
    simp
  | case8 f op value | case9 f values | case10 f values =>
    rw [eval] at h
    obtain ⟨v, hv, rfl⟩ := Option.map_eq_some_iff.mp h
    simp [hv]

/-- Both tests go through conjunctions and disjunctions alike. -/
def canContain (leaf : Expression F → Bool) : Expression F → Bool
  | alwaysTrue => true
  | alwaysFalse => false
  | and exprs => (exprs.map fun e => canContain leaf e).all id
  | or exprs => (exprs.map fun e => canContain leaf e).any id
  | e => leaf e

theorem canContain_of_satisfiedBy {leaf : Expression F → Bool} (h : ∀ e, e.satisfiedBy row → leaf e)
    (e : Expression F) (he : e.satisfiedBy row) : e.canContain leaf := by
  fun_induction canContain leaf e with
  | case1 => rfl
  | case2 => simp [satisfiedBy] at he
  | case3 exprs ih => simp_all [satisfiedBy]
  | case4 exprs ih =>
    simp only [satisfiedBy, any_map, any_eq_true] at he ⊢
    obtain ⟨e, hmem, hsel⟩ := he
    exact ⟨e, hmem, ih e hmem hsel⟩
  | case5 e => exact h e he

end Expression

open Expression

structure DataFile (F : Type) where
  recordCount : ℤ
  valueCounts : F → Option ℤ
  nullValueCounts : F → Option ℤ
  lowerBounds : F → Option (List UInt8)
  upperBounds : F → Option (List UInt8)

/-- The type of each field, which nested ones do not spell out. -/
structure Schema (F : Type) where
  field : F → Option (Option String)

namespace DataFile

variable (file : DataFile F) (schema : Schema F)

def mightContainValues (f : F) : Bool :=
  (file.nullValueCounts f).getD 0 < (file.valueCounts f).getD file.recordCount

def canContainComparison (f : F) (op : ComparisonOp) (value : LiteralValue) : Bool :=
  match schema.field f with
  | none => true
  | some type =>
    if (file.lowerBounds f).isNone && (file.upperBounds f).isNone then true
    else boundsCanContain op value.toTypedValue
      ((file.lowerBounds f).bind (decodeByTypeString · type))
      ((file.upperBounds f).bind (decodeByTypeString · type))

def canContainFile : Expression F → Bool :=
  canContain fun
    | .not inner => match inner with
      | .alwaysTrue => false
      | .isNull f => file.mightContainValues f
      | .isNotNull f => 0 < (file.nullValueCounts f).getD 0
      | _ => true
    | .isNull f => 0 < (file.nullValueCounts f).getD 1
    | .isNotNull f => file.mightContainValues f
    | .comparison f op value => file.canContainComparison schema f op value
    | .inList f values => values.any fun value => file.canContainComparison schema f .eq value
    | _ => true

def typed (bounds : F → Option (List UInt8)) (f : F) : Option TypedValue :=
  (schema.field f).bind fun type => (bounds f).bind (decodeByTypeString · type)

/-- The statistics that are there are right: counts of values and of nulls, and bounds. -/
structure Truthful (rows : List (Row F)) : Prop where
  records : file.recordCount = rows.length
  values : ∀ f, ∀ n ∈ file.valueCounts f, n = rows.length
  nulls : ∀ f, ∀ n ∈ file.nullValueCounts f, n = rows.countP fun row => (row f).isNone
  bounds : ∀ row ∈ rows, ∀ f, ∀ v ∈ row f,
    Encloses (typed schema file.lowerBounds f) (typed schema file.upperBounds f) v

/-- Nulls are counted where there are some, and equal bounds are no bounds of a NaN. -/
def Safe (rows : List (Row F)) : Prop :=
  ∀ row ∈ rows, ∀ f, (row f = none → file.nullValueCounts f ≠ none) ∧
    ∀ v ∈ row f, v.key = none → ∀ l ∈ typed schema file.lowerBounds f,
      ∀ u ∈ typed schema file.upperBounds f, l.eq u = false

variable {file schema}

theorem canContainComparison_eq (op : ComparisonOp) (value : LiteralValue) :
    file.canContainComparison schema f op value =
      boundsCanContain op value.toTypedValue (typed schema file.lowerBounds f)
        (typed schema file.upperBounds f) := by
  unfold canContainComparison typed
  cases schema.field f with
  | none => exact boundsCanContain_none.symm
  | some type =>
    cases file.lowerBounds f <;> cases file.upperBounds f <;> simp [boundsCanContain_none]

namespace Truthful

variable (h : file.Truthful schema rows) (hrow : row ∈ rows)

include h hrow

theorem mightContainValues (hvalue : (row f).isSome) : file.mightContainValues f := by
  have hcount : rows.countP (fun row => (row f).isNone) < rows.length :=
    countP_lt_length_iff.mpr ⟨row, hrow, by simpa using hvalue⟩
  have hvalues : (file.valueCounts f).getD file.recordCount = rows.length := by
    cases hv : file.valueCounts f with
    | none => exact h.records
    | some n => exact h.values f n hv
  refine decide_eq_true ?_
  rw [hvalues]
  cases hn : file.nullValueCounts f with
  | none => exact Int.natCast_pos.mpr (by omega)
  | some n =>
    rw [Option.getD_some, h.nulls f n hn]
    exact Int.ofNat_lt.mpr hcount

theorem nullCount_pos (hnull : row f = none) {n : ℤ} (hn : n ∈ file.nullValueCounts f) :
    0 < n := by
  rw [h.nulls f n hn]
  exact Int.natCast_pos.mpr (countP_pos_iff.mpr ⟨row, hrow, by simp [hnull]⟩)

theorem canContainComparison (hsafe : file.Safe schema rows) {value : LiteralValue}
    (hsel : (row f).any fun v => comparesTo v op value) :
    file.canContainComparison schema f op value := by
  obtain ⟨v, hv, hop⟩ := (Option.any_eq_true _ _).mp hsel
  rw [canContainComparison_eq]
  exact (h.bounds row hrow f v hv).boundsCanContain (Bool.and_eq_true_iff.mp hop).2
    ((hsafe row hrow f).2 v hv)

theorem canContainFile (hsafe : file.Safe schema rows) (expr : Expression F)
    (hsel : expr.satisfiedBy row) : file.canContainFile schema expr := by
  refine canContain_of_satisfiedBy (fun e hsel => ?_) expr hsel
  split
  · next inner =>
    split
    · simp [satisfiedBy] at hsel
    · exact h.mightContainValues hrow (by simpa [satisfiedBy] using hsel)
    · next f =>
      have hnull : row f = none := by simpa [satisfiedBy] using hsel
      obtain ⟨n, hn⟩ := Option.ne_none_iff_exists'.mp ((hsafe row hrow f).1 hnull)
      rw [hn]
      exact decide_eq_true (h.nullCount_pos hrow hnull hn)
    · rfl
  · next f =>
    cases hn : file.nullValueCounts f with
    | none => rfl
    | some n => exact decide_eq_true (h.nullCount_pos hrow (by simpa [satisfiedBy] using hsel) hn)
  · exact h.mightContainValues hrow (by simpa [satisfiedBy] using hsel)
  · exact h.canContainComparison hrow hsafe (by simpa [satisfiedBy] using hsel)
  · next f values =>
    obtain ⟨v, hv, hin⟩ := (Option.any_eq_true _ _).mp (by simpa only [satisfiedBy] using hsel)
    obtain ⟨value, hmem, heq⟩ := any_eq_true.mp hin
    exact any_eq_true.mpr ⟨value, hmem,
      h.canContainComparison hrow hsafe ((Option.any_eq_true _ _).mpr ⟨v, hv, heq⟩)⟩
  · rfl

end Truthful

end DataFile

inductive Statistics
  | boolean (min max : Option Bool)
  | int32 (min max : Option ℤ)
  | int64 (min max : Option ℤ)
  | byteArray (min max : Option (List UInt8))
  | other

structure ColumnChunk where
  isDecimal : Bool
  statistics : Option Statistics

structure RowGroup (F : Type) where
  fieldIdToLeaf : F → Option ℕ
  column : ℕ → ColumnChunk

def ColumnChunk.prunableStats (col : ColumnChunk) : Option Statistics :=
  if col.isDecimal then none else col.statistics

namespace RowGroup

variable (group : RowGroup F)

def statBounds : Statistics → TypedValue → Option TypedValue × Option TypedValue
  | .boolean min max, .boolean _ => (min.map .boolean, max.map .boolean)
  | .int32 min max, .int32 _ => (min.map .int32, max.map .int32)
  | .int32 min max, .date _ => (min.map .date, max.map .date)
  | .int64 min max, .int64 _ => (min.map .int64, max.map .int64)
  | .byteArray min max, .string _ =>
    ((min.filter isUtf8).map .string, (max.filter isUtf8).map .string)
  | _, _ => (none, none)

def stats (f : F) : Option Statistics :=
  (group.fieldIdToLeaf f).bind fun leaf => (group.column leaf).prunableStats

def statsCanContain (op : ComparisonOp) (value : LiteralValue) (stats : Statistics) : Bool :=
  let lit := value.toTypedValue
  boundsCanContain op lit (statBounds stats lit).1 (statBounds stats lit).2

def rowGroupCanContain : Expression F → Bool :=
  canContain fun
    | .comparison f op value => (group.stats f).all (statsCanContain op value)
    | .inList f values => (group.stats f).all fun stats =>
      values.any fun value => statsCanContain .eq value stats
    | _ => true

/-- The statistics of a column enclose its values, read as values of their type. -/
def Truthful (rows : List (Row F)) : Prop :=
  ∀ row ∈ rows, ∀ f, ∀ stats ∈ group.stats f, ∀ v ∈ row f,
    Encloses (statBounds stats v).1 (statBounds stats v).2 v

variable {group}

theorem statBounds_congr (h : v.sameType lit) (stats : Statistics) :
    statBounds stats lit = statBounds stats v := by
  cases v <;> cases lit <;> cases h <;> cases stats <;> rfl

theorem statBounds_of_nan (h : v.key = none) (stats : Statistics) :
    statBounds stats v = (none, none) := by
  cases v <;> cases stats <;> first | rfl | cases h

variable (h : group.Truthful rows) (hrow : row ∈ rows)

include h hrow

theorem Truthful.statsCanContain {value : LiteralValue}
    (hsel : (row f).any fun v => comparesTo v op value) :
    ∀ stats ∈ group.stats f, RowGroup.statsCanContain op value stats := by
  intro stats hstats
  obtain ⟨v, hv, hop⟩ := (Option.any_eq_true _ _).mp hsel
  obtain ⟨halike, hop⟩ := Bool.and_eq_true_iff.mp hop
  unfold RowGroup.statsCanContain
  dsimp only
  obtain hsame | htime := Bool.or_eq_true_iff.mp halike
  · rw [statBounds_congr hsame]
    refine (h row hrow f stats hstats v hv).boundsCanContain hop fun hnan l hl => ?_
    rw [statBounds_of_nan hnan] at hl
    cases hl
  · -- timestamps have no bounds
    split at htime
    · cases stats <;> exact boundsCanContain_none
    · cases htime

theorem Truthful.rowGroupCanContain (expr : Expression F) (hsel : expr.satisfiedBy row) :
    group.rowGroupCanContain expr := by
  refine canContain_of_satisfiedBy (fun e hsel => ?_) expr hsel
  split
  · exact (Option.all_eq_true _ _).mpr (h.statsCanContain hrow (by simpa [satisfiedBy] using hsel))
  · next f values =>
    obtain ⟨v, hv, hin⟩ := (Option.any_eq_true _ _).mp (by simpa only [satisfiedBy] using hsel)
    obtain ⟨value, hmem, heq⟩ := any_eq_true.mp hin
    exact (Option.all_eq_true _ _).mpr fun stats hstats => any_eq_true.mpr ⟨value, hmem,
      h.statsCanContain hrow ((Option.any_eq_true _ _).mpr ⟨v, hv, heq⟩) stats hstats⟩
  · rfl

end RowGroup

/-- Only floats are NaN, and every float can be a literal. -/
theorem exists_literal_of_nan {l : TypedValue} (hnan : v.key = none) (hsame : v.sameType l) :
    ∃ value : LiteralValue, value.toTypedValue = l := by
  cases l with
  | float32 x => exact ⟨.float32 x, rfl⟩
  | float64 x => exact ⟨.float64 x, rfl⟩
  | _ => cases v <;> first | cases hnan | cases hsame

/-- A filter that is known to be true of a row, but is taken to rule out the file, shows that the
file is not safe: a test for null that is negated twice, or a NaN that differs from the bounds. -/
theorem DataFile.safe_of_keeps {file : DataFile F} {schema : Schema F}
    (h : file.Truthful schema rows) (hkeeps : ∀ expr, ∀ row ∈ rows, expr.eval row = some true →
      file.canContainFile schema expr) : file.Safe schema rows := by
  refine fun row hrow f => ⟨fun hnull hn => ?_, fun v hv hnan l hl u hu => ?_⟩
  · have hkept := hkeeps (.not (.isNotNull f)) row hrow (by simp [eval, hnull])
    simp [DataFile.canContainFile, canContain, hn] at hkept
  · by_contra heq
    have heq : l.eq u = true := by simpa using heq
    have hsame := ((h.bounds row hrow f v hv).lower l hl).1
    obtain ⟨value, rfl⟩ := exists_literal_of_nan hnan hsame
    have htrue : eval row (.comparison f .notEq value) = some true := by
      rw [eval, Option.mem_def.mp hv]
      simp [comparesTo, hsame, hnan, holds]
    have hkept := hkeeps (.comparison f .notEq value) row hrow htrue
    simp [DataFile.canContainFile, canContain, DataFile.canContainComparison_eq,
      Option.mem_def.mp hl, Option.mem_def.mp hu, boundsCanContain, heq, (key_of_eq heq).2] at hkept

/-- **Pruning.** A file is read for every row that satisfies a filter exactly if its nulls are
counted and equal bounds bound no NaN, whether a comparison with null is unknown or not true. A row
group is always read. -/
theorem pruning_keeps_satisfied_iff (file : DataFile F) (schema : Schema F) (group : RowGroup F)
    (rows : List (Row F)) (hfile : file.Truthful schema rows) (hgroup : group.Truthful rows) :
    ((∀ expr, ∀ row ∈ rows, eval row expr = some true → file.canContainFile schema expr) ↔
      file.Safe schema rows) ∧
      ((∀ expr, ∀ row ∈ rows, satisfiedBy row expr → file.canContainFile schema expr) ↔
        file.Safe schema rows) ∧
      ∀ expr, ∀ row ∈ rows, satisfiedBy row expr → group.rowGroupCanContain expr := by
  have hkept : file.Safe schema rows → ∀ expr, ∀ row ∈ rows, satisfiedBy row expr →
      file.canContainFile schema expr :=
    fun hsafe expr row hrow => hfile.canContainFile hrow hsafe expr
  refine ⟨⟨DataFile.safe_of_keeps hfile, fun hsafe expr row hrow htrue => ?_⟩,
    ⟨fun hkeeps => DataFile.safe_of_keeps hfile fun expr row hrow htrue => ?_, hkept⟩,
    fun expr row hrow => hgroup.rowGroupCanContain hrow expr⟩
  · exact hkept hsafe expr row hrow (satisfiedBy_of_eval htrue)
  · exact hkeeps expr row hrow (satisfiedBy_of_eval htrue)

namespace Sample

inductive Field
  | amount | score

def schema : Schema Field where
  field
    | .amount => some (some "long")
    | .score => some (some "int")

/-- Two rows, one without a score. The bounds of the scores are wider than needed. -/
def file : DataFile Field where
  recordCount := 2
  valueCounts _ := some 2
  nullValueCounts
    | .amount => some 0
    | .score => some 1
  lowerBounds
    | .amount => some [10, 0, 0, 0, 0, 0, 0, 0]
    | .score => some [5, 0, 0, 0]
  upperBounds
    | .amount => some [100, 0, 0, 0, 0, 0, 0, 0]
    | .score => some [9, 0, 0, 0]

def group : RowGroup Field where
  fieldIdToLeaf
    | .amount => some 0
    | .score => some 1
  column
    | 0 => ⟨false, some (.int64 (some 10) (some 100))⟩
    | _ => ⟨false, some (.int32 (some 7) none)⟩

def unscored : Row Field
  | .amount => some (.int64 10)
  | .score => none

def scored : Row Field
  | .amount => some (.int64 100)
  | .score => some (.int32 7)

theorem file_truthful : file.Truthful schema [unscored, scored] where
  records := rfl
  values := by
    rintro _ _ ⟨⟩
    rfl
  nulls := by
    rintro (_ | _) _ ⟨⟩ <;> rfl
  bounds := by
    intro row hrow f v hv
    simp only [mem_cons, not_mem_nil, or_false] at hrow
    rcases hrow with rfl | rfl <;> cases f <;> cases hv <;> decide

theorem group_truthful : group.Truthful [unscored, scored] := by
  intro row hrow f stats hstats v hv
  simp only [mem_cons, not_mem_nil, or_false] at hrow
  rcases hrow with rfl | rfl <;> cases f <;> cases hstats <;> cases hv <;> decide

theorem file_safe : file.Safe schema [unscored, scored] := by
  intro row hrow f
  refine ⟨fun _ => by cases f <;> simp [file], fun v hv hnan => ?_⟩
  simp only [mem_cons, not_mem_nil, or_false] at hrow
  rcases hrow with rfl | rfl <;> cases f <;> cases hv <;> cases hnan

end Sample

open Sample in
/-- Counted nulls and true bounds, wide or missing on one side. -/
theorem pruning_keeps_satisfied_of_counted :
    (∀ expr, ∀ row ∈ [unscored, scored], satisfiedBy row expr →
        file.canContainFile schema expr) ∧
      (∀ expr, ∀ row ∈ [unscored, scored], satisfiedBy row expr →
        group.rowGroupCanContain expr) ∧
      file.canContainComparison schema .amount .lt (.int64 10) = false := by
  obtain ⟨-, hkeeps, hgroup⟩ :=
    pruning_keeps_satisfied_iff file schema group _ file_truthful group_truthful
  exact ⟨hkeeps.mpr file_safe, hgroup, by decide⟩

namespace Sample

/-- The file without the counts of nulls. -/
def uncounted : DataFile Field := { file with nullValueCounts := fun _ => none }

theorem uncounted_truthful : uncounted.Truthful schema [unscored, scored] :=
  ⟨file_truthful.records, file_truthful.values, by simp [uncounted], file_truthful.bounds⟩

/-- Bytes of the double one. -/
def one : List UInt8 := [0, 0, 0, 0, 0, 0, 0xF0, 0x3F]

/-- One row with a NaN, which is no value for bounds. -/
def bounded : DataFile Unit :=
  ⟨1, fun _ => some 1, fun _ => some 0, fun _ => some one, fun _ => some one⟩

def nan : Row Unit := fun _ => some (.float64 ⟨0x7FF8000000000000#64⟩)

def doubles : Schema Unit := ⟨fun _ => some (some "double")⟩

theorem bounded_truthful : bounded.Truthful doubles [nan] where
  records := rfl
  values := by
    rintro _ _ ⟨⟩
    rfl
  nulls := by
    rintro _ _ ⟨⟩
    rfl
  bounds := by
    rintro row hrow ⟨⟩ v hv
    obtain rfl := mem_singleton.mp hrow
    cases hv
    decide +kernel

end Sample

open Sample in
/-- A file is skipped although a row without a score is not one with a score, and although a NaN
differs from the number that is both bounds. -/
theorem satisfying_row_is_skipped :
    (uncounted.Truthful schema [unscored, scored] ∧
      eval unscored (.not (.isNotNull .score)) = some true ∧
      uncounted.canContainFile schema (.not (.isNotNull .score)) = false) ∧
      bounded.Truthful doubles [nan] ∧
      eval nan (.comparison () .notEq (.float64 ⟨0x3FF0000000000000#64⟩)) = some true ∧
      bounded.canContainFile doubles (.comparison () .notEq (.float64 ⟨0x3FF0000000000000#64⟩)) =
        false := by
  refine ⟨⟨uncounted_truthful, by simp [eval, unscored], ?_⟩, bounded_truthful, ?_, ?_⟩
  · simp [DataFile.canContainFile, canContain, uncounted]
  · rw [eval]
    decide +kernel
  · rw [DataFile.canContainFile, canContain]
    · decide +kernel
    all_goals simp

end FlureeDb.Iceberg
