import FlureeDb.Policy.Index

/-!
How the policies of a flake are combined. The evaluators of the code repeat one procedure
and differ in what they report and in whether they can ask a condition: a deny decides, then
every required policy has to grant, and without required ones the first policy that grants
decides, unless a condition of a targeted policy has failed before.
-/

namespace FlureeDb.Policy

open FlureeDb.Core Lib List Bool PolicyRestriction

variable {Q ρ : Type}

structure Report (Q ρ : Type) where
  byDefault : Bool → ρ
  denied : PolicyRestriction Q → ρ
  gated : List (PolicyRestriction Q) → ρ
  allowed : PolicyRestriction Q → ρ
  exhausted : List (PolicyRestriction Q) → ρ

section

variable (answer : Q → Option Bool) (report : Report Q ρ) (all : List (PolicyRestriction Q))

/-- Every required policy has to grant. A condition that cannot be asked does not. -/
def requiredGates : List (PolicyRestriction Q) → ρ
  | [] => report.gated all
  | r :: rest =>
    match r.value with
    | .query q => if answer q = some true then requiredGates rest else report.denied r
    | _ => requiredGates rest

/-- The first policy that grants decides. A condition that cannot be asked is passed over. -/
def allowOverrides : List (PolicyRestriction Q) → ρ
  | [] => report.exhausted all
  | r :: rest =>
    match r.value with
    | .allow => report.allowed r
    -- not reached: a deny has decided before
    | .deny => report.denied r
    | .query q =>
      match answer q with
      | some true => report.allowed r
      | some false => if r.targetMode ≠ .default then report.denied r else allowOverrides rest
      | none => allowOverrides rest

def PolicyRestriction.isDeny (r : PolicyRestriction Q) : Bool :=
  match r.value with
  | .deny => true
  | _ => false

/-- The required policies if there are any, and all of them otherwise. -/
def requiredSubset (applicable : List (PolicyRestriction Q)) : List (PolicyRestriction Q) :=
  if applicable.any (·.required) then applicable.filter (·.required) else applicable

def combineApplicable (defaultAllow : Bool) (applicable : List (PolicyRestriction Q)) : ρ :=
  let filtered := requiredSubset applicable
  if filtered.isEmpty then report.byDefault defaultAllow
  else
    match filtered.find? (·.isDeny) with
    | some r => report.denied r
    | none =>
      if applicable.any (·.required) then requiredGates answer report filtered filtered
      else allowOverrides answer report filtered filtered

end

inductive PolicyDecision (Q : Type)
  | allowed (restriction : Option (PolicyRestriction Q))
  | denied (candidates : List (PolicyRestriction Q))

def PolicyDecision.isAllowed : PolicyDecision Q → Bool
  | .allowed _ => true
  | .denied _ => false

def plain : Report Q Bool :=
  ⟨id, fun _ => false, fun _ => true, fun _ => true, fun _ => false⟩

def detailed : Report Q (PolicyDecision Q) where
  byDefault defaultAllow := if defaultAllow then .allowed none else .denied []
  denied r := .denied [r]
  gated all := .allowed all.head?
  allowed r := .allowed (some r)
  exhausted := .denied

def withCandidates : Report Q (Bool × List (PolicyRestriction Q)) where
  byDefault defaultAllow := (defaultAllow, [])
  denied r := (false, [r])
  gated _ := (true, [])
  allowed _ := (true, [])
  exhausted all := (false, all)

def isSchemaType : FlakeValue → Bool
  | .ref sid => sid ∈ [⟨4, "Class"⟩, ⟨6, "Class"⟩, ⟨3, "Property"⟩, ⟨6, "ObjectProperty"⟩,
      (⟨6, "DatatypeProperty"⟩ : Sid)]
  | _ => false

def isSchemaFlake (predicate : Sid) (object : FlakeValue) : Bool :=
  predicate ∈ [⟨4, "subClassOf"⟩, ⟨4, "subPropertyOf"⟩, ⟨4, "domain"⟩, (⟨4, "range"⟩ : Sid)] ||
    (predicate = ⟨3, "type"⟩ && isSchemaType object)

structure PolicyWrapper where
  root : Bool
  defaultAllow : Bool

section

variable (wrapper : PolicyWrapper) (set : PolicySet Q) (flake : FlakeEvalParams)
  (oracle : Q → Bool)

/-- The wrapper of the superuser and the flakes of the schema bypass the policies. -/
def evaluateWith (answer : Q → Option Bool) (report : Report Q ρ) (bypass : ρ) : ρ :=
  if wrapper.root || isSchemaFlake flake.property flake.object then bypass
  else combineApplicable answer report wrapper.defaultAllow (set.applicable flake)

def evaluateFlake : Bool :=
  evaluateWith wrapper set flake (fun _ => none) plain true

def evaluateFlakeAsync : Bool :=
  evaluateWith wrapper set flake (some ∘ oracle) plain true

def evaluateFlakeAsyncDetailed : PolicyDecision Q :=
  evaluateWith wrapper set flake (some ∘ oracle) detailed
    (.allowed none)

def evaluateModifyFlakeWithCandidates : Bool × List (PolicyRestriction Q) :=
  evaluateWith wrapper set flake (fun _ => none) withCandidates
    (true, [])

end

section

variable (oracle : Q → Bool) {answer answer' : Q → Option Bool} {report : Report Q ρ}

def PolicyRestriction.grants (r : PolicyRestriction Q) : Bool :=
  match r.value with
  | .allow => true
  | .deny => false
  | .query q => oracle q

def PolicyRestriction.fails (r : PolicyRestriction Q) : Bool :=
  match r.value with
  | .query q => !oracle q
  | _ => false

/-- Deny overrides: nothing denies, no required and no targeted policy fails, one grants. -/
def Granted (defaultAllow : Bool) (combined : List (PolicyRestriction Q)) : Prop :=
  if combined = [] then defaultAllow = true
  else (∀ r ∈ combined, r.isDeny = false ∧
      (r.required = true ∨ r.targetMode ≠ .default → r.fails oracle = false)) ∧
    ∃ r ∈ combined, r.grants oracle = true

instance (defaultAllow : Bool) (combined : List (PolicyRestriction Q)) :
    Decidable (Granted oracle defaultAllow combined) := by
  unfold Granted
  infer_instance

/-- A policy that grants comes before every targeted policy that fails, and there is one. -/
def Overtaken (combined : List (PolicyRestriction Q)) : Prop :=
  (∀ r ∈ combined, r.required = false ∧ r.isDeny = false) ∧
    ∃ before r after, combined = before ++ r :: after ∧ r.grants oracle = true ∧
      (∀ r' ∈ before, r'.targetMode ≠ .default → r'.fails oracle = false) ∧
      ∃ r' ∈ after, r'.targetMode ≠ .default ∧ r'.fails oracle = true

theorem granted_of_perm {combined combined' : List (PolicyRestriction Q)}
    (h : combined ~ combined') (defaultAllow : Bool) :
    Granted oracle defaultAllow combined ↔ Granted oracle defaultAllow combined' := by
  have hnil : combined = [] ↔ combined' = [] :=
    ⟨fun hnil => (hnil ▸ h).symm.eq_nil, fun hnil => (hnil ▸ h).eq_nil⟩
  simp only [Granted, h.mem_iff, hnil]

theorem requiredSubset_perm {applicable applicable' : List (PolicyRestriction Q)}
    (h : applicable ~ applicable') : requiredSubset applicable ~ requiredSubset applicable' := by
  unfold requiredSubset
  rw [h.any_eq]
  split
  · exact h.filter _
  · exact h

structure Report.Reads (report : Report Q ρ) (view : ρ → Bool) : Prop where
  byDefault : ∀ defaultAllow, view (report.byDefault defaultAllow) = defaultAllow
  denied : ∀ r, view (report.denied r) = false
  gated : ∀ all, view (report.gated all) = true
  allowed : ∀ r, view (report.allowed r) = true
  exhausted : ∀ all, view (report.exhausted all) = false

/-- The evaluators give one answer, if they ask the conditions that are there alike. -/
theorem view_combineApplicable {view : ρ → Bool} (hreads : report.Reads view) (defaultAllow : Bool)
    (applicable : List (PolicyRestriction Q))
    (hsame : ∀ r ∈ requiredSubset applicable, ∀ q, r.value = .query q → answer q = answer' q) :
    view (combineApplicable answer report defaultAllow applicable) =
      combineApplicable answer' plain defaultAllow applicable := by
  have hgates (all l : List (PolicyRestriction Q))
      (hl : ∀ r ∈ l, ∀ q, r.value = .query q → answer q = answer' q) :
      view (requiredGates answer report all l) = requiredGates answer' plain all l := by
    induction l with
    | nil => exact hreads.gated all
    | cons r rest ih =>
      obtain ⟨hr, hrest⟩ := forall_mem_cons.mp hl
      unfold requiredGates
      cases hvalue : r.value with
      | query q =>
        dsimp only
        rw [hr q hvalue, apply_ite view, ih hrest, hreads.denied]
        rfl
      | _ => exact ih hrest
  have hallows (all l : List (PolicyRestriction Q))
      (hl : ∀ r ∈ l, ∀ q, r.value = .query q → answer q = answer' q) :
      view (allowOverrides answer report all l) = allowOverrides answer' plain all l := by
    induction l with
    | nil => exact hreads.exhausted all
    | cons r rest ih =>
      obtain ⟨hr, hrest⟩ := forall_mem_cons.mp hl
      unfold allowOverrides
      cases hvalue : r.value with
      | allow => exact hreads.allowed r
      | deny => exact hreads.denied r
      | query q =>
        dsimp only
        rw [hr q hvalue]
        split
        · exact hreads.allowed r
        · rw [apply_ite view, ih hrest, hreads.denied]
          rfl
        · exact ih hrest
  unfold combineApplicable
  dsimp only
  split
  · exact hreads.byDefault defaultAllow
  · split
    · exact hreads.denied _
    · rw [apply_ite view, hgates _ _ hsame, hallows _ _ hsame]

section

variable (all : List (PolicyRestriction Q)) {l : List (PolicyRestriction Q)}

theorem requiredGates_iff :
    requiredGates (some ∘ oracle) plain all l = true ↔ ∀ r ∈ l, r.fails oracle = false := by
  induction l with
  | nil => simp [requiredGates, plain]
  | cons r rest ih =>
    unfold requiredGates
    rw [forall_mem_cons, ← ih, fails]
    cases r.value with
    | query q => cases h : oracle q <;> simp [plain]
    | _ => simp

/-- The first policy that grants decides, if no targeted one fails before. -/
theorem allowOverrides_iff (hdeny : ∀ r ∈ l, r.isDeny = false) :
    allowOverrides (some ∘ oracle) plain all l = true ↔
      ∃ before r after, l = before ++ r :: after ∧ r.grants oracle = true ∧
        ∀ r' ∈ before, r'.targetMode ≠ .default → r'.fails oracle = false := by
  induction l with
  | nil => simp [allowOverrides, plain]
  | cons r rest ih =>
    obtain ⟨hr, hrest⟩ := forall_mem_cons.mp hdeny
    unfold allowOverrides
    rw [exists_first_cons, ← ih hrest]
    simp only [grants, fails]
    cases hvalue : r.value with
    | allow => simp [plain]
    | deny => simp [isDeny, hvalue] at hr
    | query q =>
      cases h : oracle q
      · by_cases hmode : r.targetMode = .default <;> simp [h, plain]
      · simp [h, plain]

end

theorem PolicyRestriction.grants_eq {r : PolicyRestriction Q} (hdeny : r.isDeny = false) :
    r.grants oracle = !r.fails oracle := by
  revert hdeny
  unfold isDeny grants fails
  cases r.value <;> simp

theorem required_of_mem_requiredSubset {applicable : List (PolicyRestriction Q)}
    {r : PolicyRestriction Q} (h : r ∈ requiredSubset applicable) :
    r.required = applicable.any (·.required) := by
  unfold requiredSubset at h
  split at h
  next hany => rw [hany, (mem_filter.mp h).2]
  next hany =>
    rw [not_eq_true] at hany
    rw [hany, any_eq_false.mp hany r h |> eq_false_of_not_eq_true]

/-- The procedure grants what the rule grants, unless a failed condition is overtaken. -/
theorem combine_exact_iff (defaultAllow : Bool) (applicable : List (PolicyRestriction Q)) :
    (combineApplicable (some ∘ oracle) plain defaultAllow applicable = true ↔
        Granted oracle defaultAllow (requiredSubset applicable)) ↔
      ¬ Overtaken oracle (requiredSubset applicable) := by
  have hrequired : ∀ r ∈ requiredSubset applicable, r.required = applicable.any (·.required) :=
    fun r => required_of_mem_requiredSubset
  unfold combineApplicable
  generalize requiredSubset applicable = combined at hrequired ⊢
  by_cases hnil : combined = []
  · subst hnil
    simp [Granted, Overtaken, plain]
  rw [if_neg (by simpa using hnil), Granted, if_neg hnil]
  cases hfind : combined.find? (·.isDeny) with
  | some r =>
    have hdeny : r.isDeny ≠ false := ne_false_iff.mpr (find?_some hfind)
    have hr := mem_of_find?_eq_some hfind
    refine iff_of_true (iff_of_false false_ne_true fun h => hdeny (h.1 r hr).1) ?_
    exact fun h => hdeny (h.1 r hr).2
  | none =>
    have hdeny : ∀ r ∈ combined, r.isDeny = false := by simpa using hfind
    dsimp only
    split
    next hany =>
      rw [hany] at hrequired
      obtain ⟨r, hr⟩ := exists_mem_of_ne_nil combined hnil
      refine iff_of_true ?_ fun h => false_ne_true ((h.1 r hr).1.symm.trans (hrequired r hr))
      rw [requiredGates_iff]
      refine ⟨fun h => ⟨fun r hr => ⟨hdeny r hr, fun _ => h r hr⟩, r, hr, ?_⟩,
        fun h r hr => (h.1 r hr).2 (.inl (hrequired r hr))⟩
      rw [grants_eq oracle (hdeny r hr), h r hr]
      rfl
    next hany =>
      rw [eq_false_of_not_eq_true hany] at hrequired
      rw [allowOverrides_iff oracle _ hdeny]
      constructor
      · rintro h ⟨-, before, r, after, rfl, hr, hbefore, r', hr', hmode, hfails⟩
        have hnot := (h.mp ⟨before, r, after, rfl, hr, hbefore⟩).1 r' (by simp [hr'])
        exact false_ne_true ((hnot.2 (.inr hmode)).symm.trans hfails)
      · intro h
        constructor
        · rintro ⟨before, r, after, rfl, hr, hbefore⟩
          refine ⟨fun r' hr' => ⟨hdeny r' hr', fun hor => ?_⟩, r, by simp, hr⟩
          have hmode : r'.targetMode ≠ .default := by
            rw [hrequired r' hr'] at hor
            exact hor.resolve_left false_ne_true
          obtain hr' | hr' := mem_append.mp hr'
          · exact hbefore r' hr' hmode
          obtain rfl | hr' := mem_cons.mp hr'
          · rwa [grants_eq oracle (hdeny r' (by simp)), not_eq_true'] at hr
          · refine eq_false_iff.mpr fun hfails => h ⟨fun r hr => ⟨hrequired r hr, hdeny r hr⟩, ?_⟩
            exact ⟨before, r, after, rfl, hr, hbefore, r', hr', hmode, hfails⟩
        · rintro ⟨hall, r, hr, hgrants⟩
          obtain ⟨before, after, rfl⟩ := append_of_mem hr
          refine ⟨before, r, after, rfl, hgrants, fun r' hr' hmode => ?_⟩
          exact (hall r' (mem_append_left _ hr')).2 (.inr hmode)

end

/-! ### The evaluators agree with the rule -/

section

variable (wrapper : PolicyWrapper) (flake : FlakeEvalParams) (oracle : Q → Bool)

/-- Every evaluator gives the answer, those that cannot ask a condition if there is none. -/
def AllGive (set : PolicySet Q) (granted : Prop) : Prop :=
  (evaluateFlakeAsync wrapper set flake oracle = true ↔ granted) ∧
    ((evaluateFlakeAsyncDetailed wrapper set flake oracle).isAllowed = true ↔ granted) ∧
    ((∀ r ∈ requiredSubset (set.applicable flake), ∀ q, r.value ≠ .query q) →
      (evaluateFlake wrapper set flake = true ↔ granted) ∧
      ((evaluateModifyFlakeWithCandidates wrapper set flake).1 = true ↔ granted))

variable {wrapper flake oracle} in
theorem view_evaluateWith {set : PolicySet Q} {report : Report Q ρ} {view : ρ → Bool} {bypass : ρ}
    {answer : Q → Option Bool} (hreads : report.Reads view) (hbypass : view bypass = true)
    (hsame : ∀ r ∈ requiredSubset (set.applicable flake), ∀ q, r.value = .query q →
      answer q = some (oracle q)) :
    view (evaluateWith wrapper set flake answer report bypass) =
      evaluateFlakeAsync wrapper set flake oracle := by
  unfold evaluateFlakeAsync evaluateWith
  split
  · exact hbypass
  · exact view_combineApplicable hreads _ _ hsame

theorem allGive_iff {set : PolicySet Q} {granted : Prop} :
    AllGive wrapper flake oracle set granted ↔
      (evaluateFlakeAsync wrapper set flake oracle = true ↔ granted) := by
  have hdetailed : detailed.Reads (PolicyDecision.isAllowed (Q := Q)) :=
    ⟨fun b => by cases b <;> rfl, fun _ => rfl, fun _ => rfl, fun _ => rfl, fun _ => rfl⟩
  have hplain : (plain : Report Q Bool).Reads id :=
    ⟨fun _ => rfl, fun _ => rfl, fun _ => rfl, fun _ => rfl, fun _ => rfl⟩
  have hcandidates : (withCandidates : Report Q _).Reads Prod.fst :=
    ⟨fun _ => rfl, fun _ => rfl, fun _ => rfl, fun _ => rfl, fun _ => rfl⟩
  refine ⟨And.left, fun h => ⟨h, ?_, fun hquery => ⟨?_, ?_⟩⟩⟩
  · exact (Bool.eq_iff_iff.mp (view_evaluateWith hdetailed rfl fun _ _ _ _ => rfl)).trans h
  · exact (eq_iff_iff.mp (view_evaluateWith hplain rfl fun r hr q hvalue =>
      absurd hvalue (hquery r hr q))).trans h
  · exact (Bool.eq_iff_iff.mp (view_evaluateWith hcandidates rfl fun r hr q hvalue =>
      absurd hvalue (hquery r hr q))).trans h

variable (stats : Option IndexStats) (actionFilter : PolicyAction)
  (hierarchy : Option SchemaHierarchy) (listed : List (PolicyRestriction Q))

def combined : List (PolicyRestriction Q) :=
  requiredSubset ((buildPolicySet stats actionFilter hierarchy listed).applicable flake)

/-- The evaluators give the answer of the rule, in whichever order the policies are listed,
exactly where in no order a failed condition is overtaken. -/
theorem policies_combine_exact_iff (hschema : isSchemaFlake flake.property flake.object = false) :
    (∀ listed', listed' ~ listed →
        AllGive wrapper flake oracle (buildPolicySet stats actionFilter hierarchy listed')
          (Granted oracle wrapper.defaultAllow
            (combined flake stats actionFilter hierarchy listed))) ↔
      if wrapper.root then
        Granted oracle wrapper.defaultAllow (combined flake stats actionFilter hierarchy listed)
      else ∀ listed', listed' ~ listed →
        ¬ Overtaken oracle (combined flake stats actionFilter hierarchy listed') := by
  simp only [allGive_iff, evaluateFlakeAsync, evaluateWith, hschema, Bool.or_false]
  cases wrapper.root with
  | true => exact ⟨fun h => (h listed .rfl).mp rfl, fun h _ _ => iff_of_true rfl h⟩
  | false =>
    refine forall₂_congr fun listed' hperm => ?_
    have hcombined : combined flake stats actionFilter hierarchy listed' ~
        combined flake stats actionFilter hierarchy listed :=
      requiredSubset_perm (applicable_of_perm hierarchy listed hperm flake)
    rw [granted_of_perm oracle hcombined.symm]
    exact combine_exact_iff oracle _ _

end

def onName (value : PolicyValue Unit) : PolicyRestriction Unit :=
  ⟨"name", .onProperty, {⟨100, "name"⟩}, .view, value, false, false, ∅⟩

def onAnything (value : PolicyValue Unit) : PolicyRestriction Unit :=
  ⟨"default", .default, ∅, .view, value, false, false, ∅⟩

/-- A failed default condition among policies that allow, one of them on a class. -/
def mixed : List (PolicyRestriction Unit) :=
  [onAnything (.query ()), onPeople .allow, onName .allow]

theorem policies_combine_exact_of_mixed :
    (∀ listed', listed' ~ mixed →
      AllGive ⟨false, false⟩ (named [person]) (fun _ => false)
        (buildPolicySet (some peopleHaveNames) .view none listed')
        (Granted (fun _ => false) false
          (combined (named [person]) (some peopleHaveNames) .view none mixed))) ∧
      combined (named [person]) (some peopleHaveNames) .view none mixed ~ mixed := by
  have hcombined : combined (named [person]) (some peopleHaveNames) .view none mixed ~ mixed := by
    decide
  refine ⟨(policies_combine_exact_iff ⟨false, false⟩ (named [person]) (fun _ => false)
    (some peopleHaveNames) .view none mixed (by decide)).mpr ?_, hcombined⟩
  rintro listed' hperm ⟨-, before, r, after, heq, -, -, r', hr', htargeted, hfails⟩
  have hmem : r' ∈ mixed := by
    refine ((requiredSubset_perm (applicable_of_perm none mixed hperm _)).trans hcombined).subset ?_
    rw [← combined, heq]
    exact mem_append_right _ (mem_cons_of_mem _ hr')
  -- only the default condition fails
  have hnone : ∀ r ∈ mixed, r.targetMode ≠ .default → r.fails (fun _ => false) = false := by decide
  exact false_ne_true ((hnone r' hmem htargeted).symm.trans hfails)

/-- A failed condition on names denies if it is listed first, and does not if it is listed
after a policy that allows. -/
theorem failed_condition_is_overtaken :
    ¬ Granted (fun _ => false) false
        (combined (named []) none .view none [onName .allow, onName (.query ())]) ∧
      evaluateFlakeAsync ⟨false, false⟩ (buildPolicySet none .view none
        [onName (.query ()), onName .allow]) (named []) (fun _ => false) = false ∧
      evaluateFlakeAsync ⟨false, false⟩ (buildPolicySet none .view none
        [onName .allow, onName (.query ())]) (named []) (fun _ => false) = true := by
  exact ⟨by decide, by decide, by decide⟩

end FlureeDb.Policy
