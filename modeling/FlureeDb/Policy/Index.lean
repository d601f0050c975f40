import FlureeDb.Core.FlakeValue
import FlureeDb.Lib.Located
import Mathlib.Data.List.Sort

/-!
Policies and how they are indexed. A policy set keeps its restrictions in the order in
which they were listed, and for subjects, properties and classes the positions of those
that are about them; a map of the code is the function that looks a key up in it. In a set
for viewing, a class policy is found by the properties that the statistics know of its
classes.
-/

namespace FlureeDb.Policy

open FlureeDb.Core Lib List

inductive TargetMode
  | onSubject
  | onProperty
  | onClass
  | default
  deriving DecidableEq

inductive PolicyAction
  | view
  | modify
  | both
  deriving DecidableEq

/-- The effect of a policy. What a condition asks is left open. -/
inductive PolicyValue (Q : Type)
  | allow
  | deny
  | query (q : Q)
  deriving DecidableEq

structure PolicyRestriction (Q : Type) where
  id : String
  targetMode : TargetMode
  targets : Finset Sid
  action : PolicyAction
  value : PolicyValue Q
  required : Bool
  classPolicy : Bool
  forClasses : Finset Sid
  deriving DecidableEq

structure ClassStatEntry where
  classSid : Sid
  properties : List Sid

structure IndexStats where
  classes : Option (List ClassStatEntry)

structure PropertyPolicyEntry where
  idx : ℕ
  classCheckNeeded : Bool

structure PolicySet (Q : Type) where
  restrictions : List (PolicyRestriction Q)
  bySubject : Sid → List ℕ
  byProperty : Sid → List PropertyPolicyEntry
  byClass : Sid → List ℕ
  defaults : List ℕ

/-- The flake that is asked about, and the classes of its subject. -/
structure FlakeEvalParams where
  subject : Sid
  property : Sid
  object : FlakeValue
  subjectClasses : List Sid

variable {Q : Type}

def idProperty : Sid := ⟨1, "id"⟩

def isImplicitProperty (sid : Sid) : Bool := sid = idProperty || sid = rdfType

def getPropertiesForClass (classSid : Sid) (stats : IndexStats) : List Sid :=
  match (stats.classes.getD []).find? fun e => e.classSid = classSid with
  | some e => e.properties
  | none => []

def getAllClassesForProperty (propertySid : Sid) (stats : IndexStats) : Finset Sid :=
  (((stats.classes.getD []).filter fun e => propertySid ∈ e.properties).map
    ClassStatEntry.classSid).toFinset

def computeClassCheckNeeded (forClasses : Finset Sid) (propertySid : Sid) :
    Option IndexStats → Bool
  | some stats => isImplicitProperty propertySid ||
      decide ¬ getAllClassesForProperty propertySid stats ⊆ forClasses
  | none => true

/-- The properties under which a class policy is found. -/
def propsForRestriction (forClasses : Finset Sid) : Option IndexStats → Finset Sid
  | some stats => {idProperty, rdfType} ∪
      forClasses.biUnion fun c => (getPropertiesForClass c stats).toFinset
  | none => {idProperty, rdfType}

/-- A class policy is about subclasses too, and a property policy about subproperties. -/
def expand (hierarchy : Option SchemaHierarchy) (r : PolicyRestriction Q) : PolicyRestriction Q :=
  match hierarchy with
  | none => r
  | some h => { r with
      forClasses := r.forClasses ∪ r.forClasses.biUnion fun c => (h.subclassesOf c).toFinset
      targets := if r.targetMode = .onProperty then
          r.targets ∪ r.targets.biUnion fun p => (h.subpropertiesOf p).toFinset
        else r.targets }

def PolicyAction.matches (action actionFilter : PolicyAction) : Bool :=
  action = .both || action = actionFilter

/-- Push a value to the lists of the given keys. -/
def pushAt {α : Type} (keys : Finset Sid) (value : Sid → α) (map : Sid → List α) (key : Sid) :
    List α :=
  if key ∈ keys then map key ++ [value key] else map key

section

variable (stats : Option IndexStats) (actionFilter : PolicyAction)
  (hierarchy : Option SchemaHierarchy)

def PolicySet.push (set : PolicySet Q) (r : PolicyRestriction Q) : PolicySet Q :=
  let idx := set.restrictions.length
  let set := { set with restrictions := set.restrictions ++ [r] }
  match r.targetMode with
  | .onSubject => { set with bySubject := pushAt r.targets (fun _ => idx) set.bySubject }
  | .onProperty =>
    { set with byProperty := pushAt r.targets (fun _ => ⟨idx, r.classPolicy⟩) set.byProperty }
  | .onClass =>
    if actionFilter = .modify then
      { set with byClass := pushAt r.forClasses (fun _ => idx) set.byClass }
    else
      let entry p := ⟨idx, computeClassCheckNeeded r.forClasses p stats⟩
      { set with
        byProperty := pushAt (propsForRestriction r.forClasses stats) entry set.byProperty }
  | .default => { set with defaults := set.defaults ++ [idx] }

def PolicySet.new : PolicySet Q := ⟨[], fun _ => [], fun _ => [], fun _ => [], []⟩

def buildPolicySet (restrictions : List (PolicyRestriction Q)) : PolicySet Q :=
  restrictions.foldl (fun set listed =>
    let r := expand hierarchy listed
    if r.action.matches actionFilter then set.push stats actionFilter r else set) .new

end

/-! ### Looking up the policies of a flake -/

variable (set : PolicySet Q)

/-- The restrictions found by the classes of a subject, each once. -/
def PolicySet.classBucketIndices (subjectClasses : List Sid) : List ℕ :=
  ((subjectClasses.flatMap set.byClass).insertionSort (· ≤ ·)).dedup

def PolicySet.policyEntriesForFlake (subject property : Sid)
    (subjectClasses : List Sid) : List PropertyPolicyEntry :=
  set.byProperty property ++ ((set.classBucketIndices subjectClasses ++ set.bySubject subject ++
    set.defaults).map fun idx => ⟨idx, false⟩)

def PolicyRestriction.hasInstance (r : PolicyRestriction Q) (subjectClasses : List Sid) : Bool :=
  subjectClasses.any fun c => c ∈ r.forClasses

/-- The restriction of an entry, unless a needed class check fails. -/
def PolicySet.resolve (subjectClasses : List Sid)
    (entry : PropertyPolicyEntry) : Option (PolicyRestriction Q) :=
  set.restrictions[entry.idx]?.filter fun r =>
    !(r.classPolicy && entry.classCheckNeeded) || r.hasInstance subjectClasses

/-- The restrictions that are combined for a flake, before the required ones are singled
out. -/
def PolicySet.applicable (flake : FlakeEvalParams) : List (PolicyRestriction Q) :=
  (set.policyEntriesForFlake flake.subject flake.property flake.subjectClasses).filterMap
    (set.resolve flake.subjectClasses)

section

variable (stats : Option IndexStats) (actionFilter : PolicyAction)
  (hierarchy : Option SchemaHierarchy)

def governed (restrictions : List (PolicyRestriction Q)) : List (PolicyRestriction Q) :=
  (restrictions.map (expand hierarchy)).filter fun r => r.action.matches actionFilter

def PolicyRestriction.underSubject (subject : Sid) (r : PolicyRestriction Q) : Bool :=
  r.targetMode = .onSubject && subject ∈ r.targets

/-- A restriction is found under a property, as the policy of the property or, in a set for
viewing, of a class. -/
def PolicyRestriction.underProperty (property : Sid) (r : PolicyRestriction Q) : Bool :=
  (r.targetMode = .onProperty && property ∈ r.targets) ||
    (r.targetMode = .onClass && actionFilter ≠ .modify &&
      property ∈ propsForRestriction r.forClasses stats)

def PolicyRestriction.checkedUnder (property : Sid) (r : PolicyRestriction Q) : Bool :=
  if r.targetMode = .onProperty then r.classPolicy
  else computeClassCheckNeeded r.forClasses property stats

def PolicyRestriction.underClass (class_ : Sid) (r : PolicyRestriction Q) : Bool :=
  r.targetMode = .onClass && actionFilter = .modify && class_ ∈ r.forClasses

def PolicyRestriction.isDefault (r : PolicyRestriction Q) : Bool := r.targetMode = .default

/-- The index of a set has the positions of the restrictions. -/
structure PolicySet.Indexed (set : PolicySet Q) : Prop where
  bySubject : ∀ s, set.bySubject s = (located (·.underSubject s) set.restrictions).map Prod.snd
  byProperty : ∀ p, set.byProperty p =
    (located (·.underProperty stats actionFilter p) set.restrictions).map fun e =>
      ⟨e.2, e.1.checkedUnder stats p⟩
  byClass : ∀ c, set.byClass c =
    (located (·.underClass actionFilter c) set.restrictions).map Prod.snd
  defaults : set.defaults = (located (·.isDefault) set.restrictions).map Prod.snd

variable {stats actionFilter} (set : PolicySet Q) (r : PolicyRestriction Q)

theorem PolicySet.push_restrictions :
    (set.push stats actionFilter r).restrictions = set.restrictions ++ [r] := by
  unfold push
  cases r.targetMode <;> dsimp only
  split <;> rfl

theorem PolicySet.push_bySubject (s : Sid) : (set.push stats actionFilter r).bySubject s =
    set.bySubject s ++ if r.underSubject s then [set.restrictions.length] else [] := by
  unfold push PolicyRestriction.underSubject pushAt
  cases r.targetMode <;> split_ifs <;> simp_all

theorem PolicySet.push_byProperty (p : Sid) : (set.push stats actionFilter r).byProperty p =
    set.byProperty p ++ if r.underProperty stats actionFilter p then
      [⟨set.restrictions.length, r.checkedUnder stats p⟩] else [] := by
  unfold push PolicyRestriction.underProperty PolicyRestriction.checkedUnder pushAt
  cases r.targetMode <;> split_ifs <;> simp_all

theorem PolicySet.push_byClass (c : Sid) : (set.push stats actionFilter r).byClass c =
    set.byClass c ++ if r.underClass actionFilter c then [set.restrictions.length] else [] := by
  unfold push PolicyRestriction.underClass pushAt
  cases r.targetMode <;> split_ifs <;> simp_all

theorem PolicySet.push_defaults : (set.push stats actionFilter r).defaults =
    set.defaults ++ if r.isDefault then [set.restrictions.length] else [] := by
  unfold push PolicyRestriction.isDefault
  cases r.targetMode <;> split_ifs <;> simp_all

variable {set} in
theorem PolicySet.Indexed.push (h : set.Indexed stats actionFilter) :
    (set.push stats actionFilter r).Indexed stats actionFilter := by
  refine ⟨fun s => ?_, fun p => ?_, fun c => ?_, ?_⟩ <;>
    rw [set.push_restrictions, located_concat, map_append]
  · rw [set.push_bySubject, h.bySubject, apply_ite (List.map Prod.snd)]
    rfl
  · rw [set.push_byProperty, h.byProperty, apply_ite (List.map _)]
    rfl
  · rw [set.push_byClass, h.byClass, apply_ite (List.map Prod.snd)]
    rfl
  · rw [set.push_defaults, h.defaults, apply_ite (List.map Prod.snd)]
    rfl

variable (stats actionFilter) (restrictions : List (PolicyRestriction Q))

theorem buildPolicySet_eq : buildPolicySet stats actionFilter hierarchy restrictions =
    (governed actionFilter hierarchy restrictions).foldl (PolicySet.push stats actionFilter)
      .new := by
  rw [governed, foldl_filter, foldl_map]
  rfl

theorem buildPolicySet_spec :
    (buildPolicySet stats actionFilter hierarchy restrictions).restrictions =
        governed actionFilter hierarchy restrictions ∧
      (buildPolicySet stats actionFilter hierarchy restrictions).Indexed stats actionFilter := by
  rw [buildPolicySet_eq]
  induction governed actionFilter hierarchy restrictions using reverseRecOn with
  | nil => exact ⟨rfl, fun _ => rfl, fun _ => rfl, fun _ => rfl, rfl⟩
  | append_singleton rs r ih =>
    rw [foldl_concat, PolicySet.push_restrictions, ih.1]
    exact ⟨rfl, ih.2.push r⟩

def PolicyRestriction.applies (flake : FlakeEvalParams) (r : PolicyRestriction Q) : Bool :=
  r.underProperty stats actionFilter flake.property &&
      (!(r.classPolicy && r.checkedUnder stats flake.property) ||
        r.hasInstance flake.subjectClasses) ||
    (flake.subjectClasses.any (r.underClass actionFilter ·) || r.underSubject flake.subject ||
      r.isDefault)

variable {stats actionFilter} {set}

theorem resolve_located (p check : PolicyRestriction Q → Bool) (subjectClasses : List Sid) :
    ((located p set.restrictions).map fun e => (⟨e.2, check e.1⟩ : PropertyPolicyEntry)).filterMap
        (set.resolve subjectClasses) =
      set.restrictions.filter fun r =>
        p r && (!(r.classPolicy && check r) || r.hasInstance subjectClasses) := by
  let kept (r : PolicyRestriction Q) := !(r.classPolicy && check r) || r.hasInstance subjectClasses
  have hresolve : ∀ e ∈ located p set.restrictions,
      set.resolve subjectClasses ⟨e.2, check e.1⟩ = Option.guard kept e.1 := by
    intro e he
    rw [PolicySet.resolve, getElem?_of_mem_located he]
    rfl
  rw [filterMap_map]
  calc (located p set.restrictions).filterMap _
      = (located p set.restrictions).filterMap (Option.guard kept ∘ Prod.fst) :=
        filterMap_congr hresolve
    _ = (set.restrictions.filter p).filter kept := by
        rw [← filterMap_map, map_fst_located, filterMap_eq_filter]
    _ = set.restrictions.filter fun r => p r && kept r := by
        rw [filter_filter]
        exact filter_congr fun r _ => Bool.and_comm _ _

theorem classBucketIndices_perm (h : set.Indexed stats actionFilter) (subjectClasses : List Sid) :
    set.classBucketIndices subjectClasses ~
      (located (fun r => subjectClasses.any (r.underClass actionFilter ·))
        set.restrictions).map Prod.snd := by
  refine (perm_ext_iff_of_nodup (nodup_dedup _) nodup_map_snd_located).mpr fun i => ?_
  rw [mem_dedup, mem_insertionSort, mem_flatMap]
  simp only [h.byClass, mem_map_snd_located, any_eq_true]
  constructor
  · rintro ⟨c, hc, r, hr, hunder⟩
    exact ⟨r, hr, c, hc, hunder⟩
  · rintro ⟨r, hr, c, hc, hunder⟩
    exact ⟨c, hc, r, hr, hunder⟩

/-- The applicable restrictions are those that apply, whatever their order. -/
theorem applicable_perm (h : set.Indexed stats actionFilter) (flake : FlakeEvalParams) :
    set.applicable flake ~
      set.restrictions.filter (·.applies stats actionFilter flake) := by
  have hunchecked (p : PolicyRestriction Q → Bool) :
      (((located p set.restrictions).map Prod.snd).map fun idx =>
          (⟨idx, false⟩ : PropertyPolicyEntry)).filterMap (set.resolve flake.subjectClasses) =
        set.restrictions.filter p := by
    rw [map_map]
    refine (resolve_located p (fun _ => false) _).trans (filter_congr fun r _ => ?_)
    simp
  unfold PolicySet.applicable PolicySet.policyEntriesForFlake
  rw [filterMap_append, h.byProperty, resolve_located]
  refine (Perm.append_left _ ((((classBucketIndices_perm h _).append_right _).append_right
    _).map _ |>.filterMap _)).trans ?_
  rw [h.bySubject, h.defaults, map_append, map_append, filterMap_append, filterMap_append,
    hunchecked, hunchecked, hunchecked]
  refine (((filter_append_filter_perm ?_).append_right _).trans
    (filter_append_filter_perm ?_) |>.append_left _).trans (filter_append_filter_perm ?_)
  -- a restriction has one target mode, and with it one place in the index
  all_goals
    intro r
    unfold PolicyRestriction.underClass PolicyRestriction.underSubject
    try unfold PolicyRestriction.isDefault
    try unfold PolicyRestriction.underProperty
    cases r.targetMode <;> simp +contextual

/-- In whichever order the restrictions are listed, the same ones apply. -/
theorem applicable_of_perm {restrictions' : List (PolicyRestriction Q)}
    (hperm : restrictions' ~ restrictions) (flake : FlakeEvalParams) :
    (buildPolicySet stats actionFilter hierarchy restrictions').applicable flake ~
      (buildPolicySet stats actionFilter hierarchy restrictions).applicable flake := by
  obtain ⟨hrs, hindexed⟩ := buildPolicySet_spec stats actionFilter hierarchy restrictions
  obtain ⟨hrs', hindexed'⟩ := buildPolicySet_spec stats actionFilter hierarchy restrictions'
  refine (applicable_perm hindexed' ..).trans (.trans ?_ (applicable_perm hindexed ..).symm)
  rw [hrs, hrs']
  exact ((hperm.map _).filter _).filter _

/-- Some class of the subject is a class of the policy or a subclass of one. -/
def Governs (r : PolicyRestriction Q) (subjectClasses : List Sid) : Prop :=
  ∃ c ∈ subjectClasses, c ∈ r.forClasses ∨
    ∃ h ∈ hierarchy, ∃ parent ∈ r.forClasses, c ∈ h.subclassesOf parent

theorem hasInstance_expand (subjectClasses : List Sid) :
    (expand hierarchy r).hasInstance subjectClasses = true ↔ Governs hierarchy r subjectClasses := by
  unfold PolicyRestriction.hasInstance Governs expand
  cases hierarchy <;> simp

/-- A class policy is combined for the flakes of its instances, and no others, exactly where
the statistics know the property of the class if the subject is an instance, and otherwise do
not know it or know it of another class, too. -/
theorem view_class_policy_exact_iff {listed : PolicyRestriction Q} (hlisted : listed ∈ restrictions)
    (haction : listed.action ≠ .modify) (hmode : listed.targetMode = .onClass)
    (flake : FlakeEvalParams) :
    (expand hierarchy listed ∈
        (buildPolicySet stats .view hierarchy restrictions).applicable flake ↔
      Governs hierarchy listed flake.subjectClasses) ↔
      (Governs hierarchy listed flake.subjectClasses →
        flake.property ∈ propsForRestriction (expand hierarchy listed).forClasses stats) ∧
      (¬ Governs hierarchy listed flake.subjectClasses →
        flake.property ∉ propsForRestriction (expand hierarchy listed).forClasses stats ∨
          listed.classPolicy = true ∧ computeClassCheckNeeded (expand hierarchy listed).forClasses
            flake.property stats = true) := by
  obtain ⟨hrs, hindexed⟩ := buildPolicySet_spec stats .view hierarchy restrictions
  have hfields : (expand hierarchy listed).targetMode = .onClass ∧
      (expand hierarchy listed).action = listed.action ∧
      (expand hierarchy listed).classPolicy = listed.classPolicy := by
    cases hierarchy <;> exact ⟨hmode, rfl, rfl⟩
  have hgoverned : expand hierarchy listed ∈ governed .view hierarchy restrictions := by
    refine mem_filter.mpr ⟨mem_map_of_mem hlisted, ?_⟩
    rw [PolicyAction.matches]
    cases h : listed.action <;> simp_all
  rw [(applicable_perm hindexed ..).mem_iff, hrs, mem_filter, and_iff_right hgoverned,
    ← hasInstance_expand]
  simp only [PolicyRestriction.applies, PolicyRestriction.underProperty,
    PolicyRestriction.checkedUnder, PolicyRestriction.underClass, PolicyRestriction.underSubject,
    PolicyRestriction.isDefault, hfields]
  cases (expand hierarchy listed).hasInstance flake.subjectClasses <;>
    by_cases hknown : flake.property ∈ propsForRestriction (expand hierarchy listed).forClasses stats
      <;> simp [hknown]

end

def person : Sid := ⟨100, "Person"⟩

def onPeople (value : PolicyValue Unit) : PolicyRestriction Unit :=
  ⟨"people", .onClass, ∅, .view, value, false, true, {person}⟩

/-- A name of a subject with the given classes. -/
def named (subjectClasses : List Sid) : FlakeEvalParams :=
  ⟨⟨100, "alice"⟩, ⟨100, "name"⟩, .string "Alice", subjectClasses⟩

/-- Statistics that know names of people only. -/
def peopleHaveNames : IndexStats := ⟨some [⟨person, [⟨100, "name"⟩]⟩]⟩

theorem view_class_policy_exact_iff_of_name :
    onPeople .deny ∈ (buildPolicySet (some peopleHaveNames) .view none
      [onPeople .deny]).applicable (named [person]) ↔ Governs none (onPeople .deny) [person] := by
  refine (view_class_policy_exact_iff none [onPeople .deny] mem_cons_self (by decide) rfl
    (named [person])).mpr ⟨fun _ => ?_, fun h => absurd ?_ h⟩
  · decide
  · exact ⟨person, mem_cons_self, .inl (by decide)⟩

/-- Without statistics a name of a person is not under the policy, and with them a name of
something that is no person is. -/
theorem class_policy_follows_statistics :
    (Governs none (onPeople .deny) [person] ∧
      onPeople .deny ∉ (buildPolicySet none .view none [onPeople .deny]).applicable
        (named [person])) ∧
    (¬ Governs none (onPeople .allow) [] ∧
      onPeople .allow ∈ (buildPolicySet (some peopleHaveNames) .view none
        [onPeople .allow]).applicable (named [])) := by
  refine ⟨⟨⟨person, mem_cons_self, .inl (by decide)⟩, by decide⟩, ?_, by decide⟩
  rintro ⟨c, hc, -⟩
  exact not_mem_nil hc

end FlureeDb.Policy
