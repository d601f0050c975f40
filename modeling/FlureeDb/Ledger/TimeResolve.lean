import Mathlib.Data.List.Sort
import Mathlib.Data.Prod.Lex
import Mathlib.Data.Int.LeastGreatest

/-!
Time travel by the wall clock. Each commit leaves metadata facts with its times, read in the
order of the time and then of the commit's subject. A target is resolved to the commit before
the first fact after it. Of commits with one time the first in this order need not be the
first of the chain, since subjects are content ids.
-/

namespace FlureeDb.Ledger.TimeResolve

open List Option

variable {S : Type} [LinearOrder S]

/-- A time of a commit: its subject, the epoch milliseconds and its number. -/
structure TimeFact (S : Type) where
  s : S
  o : ℤ
  t : ℤ
  deriving DecidableEq

/-- The facts of one timestamp predicate. -/
structure Axis (S : Type) where
  index : List (TimeFact S)
  novelty : List (TimeFact S)

/-- The order of the POST index. -/
def postLe (f g : TimeFact S) : Prop := toLex (f.o, f.s) ≤ toLex (g.o, g.s)

instance : DecidableRel (postLe (S := S)) := fun f g =>
  inferInstanceAs (Decidable (toLex (f.o, f.s) ≤ toLex (g.o, g.s)))

variable (axis : Axis S)

/-- The indexed facts merged with those of novelty. -/
def Axis.post : List (TimeFact S) :=
  (axis.index ++ axis.novelty).insertionSort postLe

def probeTimestampAxis (currentT : ℤ) (after : Option ℤ) : Option (TimeFact S) :=
  axis.post.find? fun f => f.t ≤ currentT ∧ ∀ target ∈ after, target < f.o

/-- The end of both resolutions: the number before the first fact after the target. -/
def beforeFirstAfter (currentT target : ℤ) : ℤ :=
  match probeTimestampAxis axis currentT (some target) with
  | none => currentT
  | some after => max (after.t - 1) 0

variable (iso : ℤ → String)

def datetimeToT (time : Axis S) (target currentT : ℤ) : Except String ℤ :=
  match probeTimestampAxis time currentT none with
  | none => .ok currentT
  | some earliest =>
    if target < earliest.o then
      .error s!"There is no data as of {iso target} (earliest commit is at {iso earliest.o})"
    else .ok (beforeFirstAfter time currentT target)

def recordedToT (time received : Axis S) (target currentT : ℤ) : Except String ℤ :=
  match probeTimestampAxis received currentT none with
  | none => datetimeToT iso time target currentT
  | some earliest =>
    if target < earliest.o then
      if earliest.t ≤ 1 then
        .error (s!"There is no data recorded as of {iso target} " ++
          s!"(earliest commit was recorded at {iso earliest.o})")
      else (datetimeToT iso time target currentT).map (min · (earliest.t - 1))
    else .ok (beforeFirstAfter received currentT target)

structure CommitTimes (S : Type) where
  t : ℤ
  subject : S
  time : ℤ
  receivedAt : Option ℤ
  deriving DecidableEq

def CommitTimes.fact (c : CommitTimes S) (o : ℤ) : TimeFact S := ⟨c.subject, o, c.t⟩

def Axis.Has (f : TimeFact S) : Prop := f ∈ axis.index ∨ f ∈ axis.novelty

/-- Each commit with a stamp has its fact in the index or in novelty. -/
def Axis.Holds (commits : List (CommitTimes S)) (stamp : CommitTimes S → Option ℤ) : Prop :=
  ∀ f, axis.Has f ↔ ∃ c ∈ commits, ∃ x ∈ stamp c, f = c.fact x

/-- A chain of commits up to `head`. Event times do not decrease, and from some commit on
neither do the recorded times. -/
structure Chain (S : Type) [LinearOrder S] where
  head : ℤ
  commits : List (CommitTimes S)
  numbered : ∀ t, (∃ c ∈ commits, c.t = t) ↔ 1 ≤ t ∧ t ≤ head
  number_inj : ∀ c ∈ commits, ∀ d ∈ commits, c.t = d.t → c = d
  subject_inj : ∀ c ∈ commits, ∀ d ∈ commits, c.subject = d.subject → c = d
  events : ∀ c ∈ commits, ∀ d ∈ commits, c.t ≤ d.t → c.time ≤ d.time
  stamps : ∀ c ∈ commits, ∀ d ∈ commits, c.t ≤ d.t →
    ∀ x ∈ c.receivedAt, ∃ y ∈ d.receivedAt, x ≤ y
  time : Axis S
  received : Axis S
  holds_time : time.Holds commits fun c => some c.time
  holds_received : received.Holds commits CommitTimes.receivedAt

/-- The greatest of the numbers, or an error if there is none. -/
def Resolves (result : Except String ℤ) (made : Set ℤ) : Prop :=
  match result with
  | .ok t => IsGreatest made t
  | .error _ => made = ∅

def Chain.madeBy (chain : Chain S) (target : ℤ) : Set ℤ :=
  {t | ∃ c ∈ chain.commits, c.t = t ∧ c.time ≤ target}

/-- The event time stands in for a missing recorded time. -/
def Chain.recordedBy (chain : Chain S) (target : ℤ) : Set ℤ :=
  {t | ∃ c ∈ chain.commits, c.t = t ∧ c.receivedAt.getD c.time ≤ target}

namespace Axis

/-- The first of the commits with the time of `f`. -/
def First (f : TimeFact S) : Prop :=
  axis.Has f ∧ ∀ g, axis.Has g → g.o = f.o → f.t ≤ g.t

def Leads (f : TimeFact S) : Prop := ∀ g, axis.Has g → g.o = f.o → f.s ≤ g.s

/-- After the earliest time, the first commit of each time has the least subject. -/
def Ordered : Prop :=
  ∀ f, axis.First f → (∃ e, axis.Has e ∧ e.o < f.o) → axis.Leads f

end Axis

/-- The commit with the first recorded time leads, or is not made before it is recorded. -/
def Chain.FlipLeads (chain : Chain S) : Prop :=
  ∀ c ∈ chain.commits, ∀ x ∈ c.receivedAt,
    (∀ d ∈ chain.commits, d.receivedAt.isSome → c.t ≤ d.t) →
      chain.received.Leads (c.fact x) ∨ x ≤ c.time

/-! ### Reading an axis -/

/-- Commits from some number on, up to the head, with times that do not decrease. -/
structure Axis.Runs (axis : Axis S) (head : ℤ) : Prop where
  pos : ∀ f, axis.Has f → 1 ≤ f.t ∧ f.t ≤ head
  upto : ∀ f, axis.Has f → ∀ t, f.t ≤ t → t ≤ head → ∃ g, axis.Has g ∧ g.t = t
  mono : ∀ f g, axis.Has f → axis.Has g → f.t ≤ g.t → f.o ≤ g.o
  number_inj : ∀ f g, axis.Has f → axis.Has g → f.t = g.t → f = g
  subject_inj : ∀ f g, axis.Has f → axis.Has g → f.s = g.s → f = g

def Axis.upTo (target : ℤ) : Set ℤ := {t | ∃ f, axis.Has f ∧ f.t = t ∧ f.o ≤ target}

instance : Std.Total (postLe (S := S)) := ⟨fun f _ => le_total (toLex (f.o, f.s)) _⟩

instance : IsTrans (TimeFact S) postLe := ⟨fun f _ _ => le_trans (a := toLex (f.o, f.s))⟩

variable {f g : TimeFact S}

theorem postLe_iff : postLe f g ↔ f.o < g.o ∨ f.o = g.o ∧ f.s ≤ g.s :=
  Prod.Lex.toLex_le_toLex

section

variable {axis} {head : ℤ} (h : axis.Runs head)

theorem mem_post : f ∈ axis.post ↔ axis.Has f := by
  simp [Axis.post, Axis.Has]

include h

omit [LinearOrder S] in
theorem Axis.Runs.lt_of_lt (hf : axis.Has f) (hg : axis.Has g) (ho : f.o < g.o) : f.t < g.t :=
  lt_of_not_ge fun ht => absurd (h.mono g f hg hf ht) (by omega)

theorem probe_eq_none {after : Option ℤ} : probeTimestampAxis axis head after = none ↔
    ∀ f, axis.Has f → ¬ ∀ target ∈ after, target < f.o := by
  simp only [probeTimestampAxis, find?_eq_none, mem_post, decide_eq_true_eq, not_and]
  exact forall₂_congr fun f hf => ⟨fun hn => hn (h.pos f hf).2, fun hn _ => hn⟩

theorem probe_eq_some {after : Option ℤ} (hf : probeTimestampAxis axis head after = some f) :
    axis.Has f ∧ (∀ target ∈ after, target < f.o) ∧
      ∀ g, axis.Has g → (∀ target ∈ after, target < g.o) → postLe f g := by
  have hprobe := find?_some hf
  rw [decide_eq_true_eq] at hprobe
  refine ⟨mem_post.mp (mem_of_find?_eq_some hf), hprobe.2, fun g hg hafter => ?_⟩
  obtain ⟨-, before, rest, hpost, hskipped⟩ := find?_eq_some_iff_append.mp hf
  have hsorted : axis.post.Pairwise postLe := pairwise_insertionSort _ _
  have hmem := mem_post.mpr hg
  rw [hpost] at hsorted hmem
  rcases mem_append.mp hmem with hmem | hmem
  · exact absurd (hskipped g hmem) (by simpa [(h.pos g hg).2] using hafter)
  rcases mem_cons.mp hmem with rfl | hmem
  · exact le_refl (toLex (g.o, g.s))
  · exact (pairwise_cons.mp (pairwise_append.mp hsorted).2.1).1 g hmem

theorem earliest_le (hf : probeTimestampAxis axis head none = some f) :
    axis.Has f ∧ ∀ g, axis.Has g → f.o ≤ g.o := by
  obtain ⟨hf, -, hleast⟩ := probe_eq_some h hf
  refine ⟨hf, fun g hg => ?_⟩
  rcases postLe_iff.mp (hleast g hg (by simp)) with hlt | ⟨heq, -⟩ <;> omega

omit [LinearOrder S] in
theorem exists_first (hf : axis.Has f) : ∃ g, axis.First g ∧ g.o = f.o := by
  obtain ⟨t, ⟨g, hg, ho, rfl⟩, hleast⟩ := Int.exists_least_of_bdd
    (P := fun t => ∃ g, axis.Has g ∧ g.o = f.o ∧ g.t = t)
    ⟨1, by rintro t ⟨g, hg, -, rfl⟩; exact (h.pos g hg).1⟩ ⟨f.t, f, hf, rfl, rfl⟩
  exact ⟨g, ⟨hg, fun k hk hko => hleast k.t ⟨k, hk, hko.trans ho, rfl⟩⟩, ho⟩

/-- A first fact that leads is the first of its time in the order of reading. -/
theorem first_eq (hg : axis.First g) (hf : axis.Has f) (ho : g.o = f.o) (hle : postLe f g)
    (hlead : axis.Leads g) : f = g := by
  have hs : f.s ≤ g.s := ((postLe_iff.mp hle).resolve_left (by omega)).2
  exact h.subject_inj f g hf hg.1 (le_antisymm hs (hlead f hf ho.symm))

theorem beforeFirstAfter_greatest (hordered : axis.Ordered) {target : ℤ} {e : TimeFact S}
    (he : axis.Has e) (hle : e.o ≤ target) :
    IsGreatest (axis.upTo target) (beforeFirstAfter axis head target) := by
  unfold beforeFirstAfter
  cases hprobe : probeTimestampAxis axis head (some target) with
  | none =>
    have hnone := (probe_eq_none h).mp hprobe
    obtain ⟨g, hg, ht⟩ := h.upto e he head (h.pos e he).2 le_rfl
    refine ⟨⟨g, hg, ht, by simpa using hnone g hg⟩, ?_⟩
    rintro t ⟨f, hf, rfl, -⟩
    exact (h.pos f hf).2
  | some f =>
    obtain ⟨hf, hafter, hleast⟩ := probe_eq_some h hprobe
    simp only [mem_some_iff, forall_eq'] at hafter hleast
    obtain ⟨g, hg, ho⟩ := exists_first h hf
    obtain rfl := first_eq h hg hf ho (hleast g hg.1 (by omega))
      (hordered g hg ⟨e, he, by omega⟩)
    have het := h.lt_of_lt he hf (by omega)
    have hpos := (h.pos e he).1
    have hhead := (h.pos f hf).2
    simp only [max_eq_left (show (0 : ℤ) ≤ f.t - 1 by omega)]
    refine ⟨?_, ?_⟩
    · obtain ⟨k, hk, hkt⟩ := h.upto e he (f.t - 1) (by omega) (by omega)
      refine ⟨k, hk, hkt, le_of_not_gt fun hlate => ?_⟩
      have hko := h.mono k f hk hf (by omega)
      rcases postLe_iff.mp (hleast k hk hlate) with hlt | ⟨heq, -⟩
      · omega
      · exact absurd (hg.2 k hk) (by omega)
    · rintro t ⟨k, hk, rfl, hko⟩
      exact Int.le_sub_one_of_lt (h.lt_of_lt hk hf (by omega))

theorem leads_of_greatest (hg : axis.First g)
    (hgreatest : IsGreatest (axis.upTo (g.o - 1)) (beforeFirstAfter axis head (g.o - 1))) :
    axis.Leads g := by
  unfold beforeFirstAfter at hgreatest
  cases hprobe : probeTimestampAxis axis head (some (g.o - 1)) with
  | none => exact absurd ((probe_eq_none h).mp hprobe g hg.1) (by simp)
  | some f =>
    obtain ⟨hf, hafter, hleast⟩ := probe_eq_some h hprobe
    simp only [mem_some_iff, forall_eq'] at hafter hleast
    have hfg := postLe_iff.mp (hleast g hg.1 (by omega))
    rw [hprobe] at hgreatest
    obtain ⟨k, hk, hkt, hko⟩ := hgreatest.1
    have hkg := h.lt_of_lt hk hg.1 (by omega)
    have htg := hg.2 f hf (by omega)
    have hmax : f.t - 1 ≤ k.t := hkt ▸ le_max_left ..
    obtain rfl := h.number_inj f g hf hg.1 (by omega)
    intro k hk ho
    exact ((postLe_iff.mp (hleast k hk (by omega))).resolve_left (by omega)).2

theorem greatest_iff_ordered : (∀ target, (∃ e, axis.Has e ∧ e.o ≤ target) →
    IsGreatest (axis.upTo target) (beforeFirstAfter axis head target)) ↔ axis.Ordered :=
  ⟨fun hall _ hg ⟨e, he, hlt⟩ => leads_of_greatest h hg (hall _ ⟨e, he, by omega⟩),
    fun hordered _ ⟨_, he, hle⟩ => beforeFirstAfter_greatest h hordered he hle⟩

end

/-! ### Both resolutions -/

section

variable (chain : Chain S)

theorem Chain.runs {axis : Axis S} {stamp : CommitTimes S → Option ℤ}
    (h : axis.Holds chain.commits stamp)
    (hmono : ∀ c ∈ chain.commits, ∀ d ∈ chain.commits, c.t ≤ d.t →
      ∀ x ∈ stamp c, ∃ y ∈ stamp d, x ≤ y) : axis.Runs chain.head where
  pos f hf := by
    obtain ⟨c, hc, -, -, rfl⟩ := (h f).mp hf
    exact (chain.numbered c.t).mp ⟨c, hc, rfl⟩
  upto f hf t hle hhead := by
    obtain ⟨c, hc, x, hx, rfl⟩ := (h f).mp hf
    obtain ⟨d, hd, rfl⟩ := (chain.numbered t).mpr
      ⟨((chain.numbered c.t).mp ⟨c, hc, rfl⟩).1.trans hle, hhead⟩
    obtain ⟨y, hy, -⟩ := hmono c hc d hd hle x hx
    exact ⟨_, (h _).mpr ⟨d, hd, y, hy, rfl⟩, rfl⟩
  mono f g hf hg hle := by
    obtain ⟨c, hc, x, hx, rfl⟩ := (h f).mp hf
    obtain ⟨d, hd, y, hy, rfl⟩ := (h g).mp hg
    obtain ⟨z, hz, hxz⟩ := hmono c hc d hd hle x hx
    exact hxz.trans_eq (mem_unique hz hy)
  number_inj f g hf hg heq := by
    obtain ⟨c, hc, x, hx, rfl⟩ := (h f).mp hf
    obtain ⟨d, hd, y, hy, rfl⟩ := (h g).mp hg
    obtain rfl := chain.number_inj c hc d hd heq
    rw [mem_unique hx hy]
  subject_inj f g hf hg heq := by
    obtain ⟨c, hc, x, hx, rfl⟩ := (h f).mp hf
    obtain ⟨d, hd, y, hy, rfl⟩ := (h g).mp hg
    obtain rfl := chain.subject_inj c hc d hd heq
    rw [mem_unique hx hy]

theorem Chain.time_runs : chain.time.Runs chain.head :=
  chain.runs chain.holds_time fun c hc d hd hle _ hx =>
    ⟨d.time, rfl, some_inj.mp hx ▸ chain.events c hc d hd hle⟩

theorem Chain.received_runs : chain.received.Runs chain.head :=
  chain.runs chain.holds_received chain.stamps

theorem Chain.madeBy_eq (target : ℤ) : chain.madeBy target = chain.time.upTo target := by
  ext t
  simp [madeBy, Axis.upTo, chain.holds_time _, CommitTimes.fact]

theorem Chain.not_resolves_of_empty (hempty : ∀ c, c ∉ chain.commits) (target : ℤ) :
    ¬ Resolves (datetimeToT iso chain.time target chain.head) (chain.madeBy target) := by
  have hnone : probeTimestampAxis chain.time chain.head none = none := by
    rw [probe_eq_none chain.time_runs]
    intro f hf
    obtain ⟨c, hc, -⟩ := (chain.holds_time f).mp hf
    exact absurd hc (hempty c)
  rw [datetimeToT, hnone]
  rintro ⟨⟨c, hc, -⟩, -⟩
  exact hempty c hc

theorem Chain.datetime_resolves_iff (hne : ∃ c, c ∈ chain.commits) :
    (∀ target, Resolves (datetimeToT iso chain.time target chain.head) (chain.madeBy target)) ↔
      chain.time.Ordered := by
  rw [← greatest_iff_ordered chain.time_runs]
  refine forall_congr' fun target => ?_
  rw [chain.madeBy_eq, datetimeToT]
  cases hprobe : probeTimestampAxis chain.time chain.head none with
  | none =>
    obtain ⟨c, hc⟩ := hne
    have hnone := (probe_eq_none chain.time_runs).mp hprobe _
      ((chain.holds_time _).mpr ⟨c, hc, _, rfl, rfl⟩)
    simp at hnone
  | some f =>
    obtain ⟨hf, hleast⟩ := earliest_le chain.time_runs hprobe
    by_cases htarget : target < f.o
    · simp only [if_pos htarget]
      have hnone : ¬ ∃ e, chain.time.Has e ∧ e.o ≤ target := fun ⟨e, he, hle⟩ =>
        absurd (hleast e he) (by omega)
      refine iff_of_true (Set.eq_empty_of_forall_notMem ?_) fun h => absurd h hnone
      rintro t ⟨e, he, -, hle⟩
      exact hnone ⟨e, he, hle⟩
    · simp only [if_neg htarget]
      exact ⟨fun hgreatest _ => hgreatest, fun h => h ⟨f, hf, by omega⟩⟩

section

variable {chain} {c : CommitTimes S} {x : ℤ} (hc : c ∈ chain.commits) (hx : x ∈ c.receivedAt)

include hc hx

theorem isGreatest_recordedBy {target : ℤ} (htarget : x ≤ target) {t : ℤ} :
    IsGreatest (chain.recordedBy target) t ↔ IsGreatest (chain.received.upTo target) t := by
  have hsub : chain.received.upTo target ⊆ chain.recordedBy target := by
    rintro t ⟨f, hf, rfl, hle⟩
    obtain ⟨d, hd, y, hy, rfl⟩ := (chain.holds_received f).mp hf
    exact ⟨d, hd, rfl, by rwa [mem_def.mp hy]⟩
  have hmem : c.t ∈ chain.received.upTo target :=
    ⟨c.fact x, (chain.holds_received _).mpr ⟨c, hc, x, hx, rfl⟩, rfl, htarget⟩
  have hrest : ∀ t ∈ chain.recordedBy target, c.t ≤ t → t ∈ chain.received.upTo target := by
    rintro t ⟨d, hd, rfl, hle⟩ hct
    obtain ⟨y, hy, -⟩ := chain.stamps c hc d hd hct x hx
    rw [mem_def.mp hy] at hle
    exact ⟨d.fact y, (chain.holds_received _).mpr ⟨d, hd, y, hy, rfl⟩, rfl, hle⟩
  constructor
  · intro h
    exact ⟨hrest t h.1 (h.2 (hsub hmem)), fun s hs => h.2 (hsub hs)⟩
  · intro h
    refine ⟨hsub h.1, fun s hs => ?_⟩
    rcases le_total c.t s with hle | hle
    · exact h.2 (hrest s hs hle)
    · exact hle.trans (h.2 hmem)

variable (hflip : ∀ d ∈ chain.commits, d.receivedAt.isSome → c.t ≤ d.t)

include hflip

theorem mem_recordedBy_of_lt (target : ℤ) (htarget : target < x) (t : ℤ) :
    t ∈ chain.recordedBy target ↔ t ∈ chain.madeBy target ∧ t < c.t := by
  constructor
  · rintro ⟨d, hd, rfl, hle⟩
    cases hstamp : d.receivedAt with
    | none =>
      rw [hstamp] at hle
      refine ⟨⟨d, hd, rfl, hle⟩, lt_of_not_ge fun hct => ?_⟩
      obtain ⟨y, hy, -⟩ := chain.stamps c hc d hd hct x hx
      simp [hstamp] at hy
    | some y =>
      obtain ⟨z, hz, hxz⟩ := chain.stamps c hc d hd (hflip d hd (by simp [hstamp])) x hx
      rw [hstamp] at hle hz
      obtain rfl := some_inj.mp hz
      exact absurd hle (by simp; omega)
  · rintro ⟨⟨d, hd, rfl, hle⟩, hlt⟩
    have hstamp : d.receivedAt = none := not_isSome_iff_eq_none.mp fun hsome =>
      absurd (hflip d hd hsome) (by omega)
    exact ⟨d, hd, rfl, by rwa [hstamp]⟩

theorem recorded_before_iff
    (hdatetime : ∀ target,
      Resolves (datetimeToT iso chain.time target chain.head) (chain.madeBy target))
    (hprobe : probeTimestampAxis chain.received chain.head none = some f) (ho : f.o = x) :
    (∀ target < x, Resolves (recordedToT iso chain.time chain.received target chain.head)
      (chain.recordedBy target)) ↔ chain.received.Leads (c.fact x) ∨ x ≤ c.time := by
  have hmem := mem_recordedBy_of_lt hc hx hflip
  obtain ⟨hf, -, hleast⟩ := probe_eq_some chain.received_runs hprobe
  have hhas : chain.received.Has (c.fact x) := (chain.holds_received _).mpr ⟨c, hc, x, hx, rfl⟩
  have hct : c.t ≤ f.t := by
    obtain ⟨d, hd, y, hy, rfl⟩ := (chain.holds_received f).mp hf
    exact hflip d hd (isSome_of_mem hy)
  have hpos : ∀ target, ∀ t ∈ chain.madeBy target, 1 ≤ t := fun target t ⟨d, hd, ht, _⟩ =>
    ((chain.numbered t).mp ⟨d, hd, ht⟩).1
  simp only [recordedToT, hprobe, ho]
  constructor
  · intro h
    by_contra hneither
    obtain ⟨hlead, htime⟩ := not_or.mp hneither
    have hne : f.t ≠ c.t := by
      intro heq
      obtain rfl := chain.received_runs.number_inj f (c.fact x) hf hhas heq
      exact hlead fun g hg hgo =>
        ((postLe_iff.mp (hleast g hg (by simp))).resolve_left (by simp_all)).2
    have hmade : c.t ∈ chain.madeBy (x - 1) := ⟨c, hc, rfl, by omega⟩
    have hone := hpos _ _ hmade
    have hresolved := h (x - 1) (by omega)
    rw [if_pos (by omega), if_neg (by omega)] at hresolved
    have hevent := hdatetime (x - 1)
    cases hresult : datetimeToT iso chain.time (x - 1) chain.head with
    | error e =>
      rw [hresult] at hevent
      exact absurd hmade (by rw [show chain.madeBy (x - 1) = ∅ from hevent]; simp)
    | ok E =>
      rw [hresult] at hevent hresolved
      have hE : c.t ≤ E := hevent.2 hmade
      have hlt := ((hmem (x - 1) (by omega) _).mp hresolved.1).2
      simp only at hlt
      omega
  · intro h target htarget
    rw [if_pos htarget]
    have hbefore : f.t = c.t ∨ ∀ t ∈ chain.madeBy target, t < c.t := by
      rcases h with hlead | htime
      · refine .inl (congrArg TimeFact.t (show f = c.fact x from ?_))
        refine first_eq chain.received_runs ⟨hhas, fun g hg _ => ?_⟩ hf ho.symm
          (hleast _ hhas (by simp)) hlead
        obtain ⟨d, hd, y, hy, rfl⟩ := (chain.holds_received g).mp hg
        exact hflip d hd (isSome_of_mem hy)
      · refine .inr fun t ⟨d, hd, ht, hle⟩ => lt_of_not_ge fun hge => ?_
        exact absurd (chain.events c hc d hd (ht ▸ hge)) (by omega)
    have hone : ∀ t ∈ chain.recordedBy target, 1 ≤ t ∧ t < c.t ∧ t ∈ chain.madeBy target := by
      intro t ht
      obtain ⟨hmade, hlt⟩ := (hmem target htarget t).mp ht
      exact ⟨hpos _ _ hmade, hlt, hmade⟩
    have hevent := hdatetime target
    split
    · exact Set.eq_empty_of_forall_notMem fun t ht => by have := hone t ht; omega
    cases hresult : datetimeToT iso chain.time target chain.head with
    | error e =>
      rw [hresult] at hevent
      exact Set.eq_empty_of_forall_notMem fun t ht =>
        Set.eq_empty_iff_forall_notMem.mp hevent t (hone t ht).2.2
    | ok E =>
      rw [hresult] at hevent
      obtain ⟨⟨e, he, rfl, hle⟩, hgreatest⟩ := hevent
      obtain ⟨heone, hehead⟩ := (chain.numbered e.t).mp ⟨e, he, rfl⟩
      have hlt : min e.t (f.t - 1) < c.t ∧ 1 ≤ min e.t (f.t - 1) := by
        rcases hbefore with heq | hall
        · omega
        · have := hall e.t ⟨e, he, rfl, hle⟩
          omega
      obtain ⟨d, hd, hdt⟩ := (chain.numbered (min e.t (f.t - 1))).mpr ⟨hlt.2, by omega⟩
      refine ⟨(hmem target htarget _).mpr ⟨⟨d, hd, hdt, ?_⟩, hlt.1⟩, fun t ht => le_min ?_ ?_⟩
      · exact (chain.events d hd e he (by omega)).trans hle
      · exact hgreatest (hone t ht).2.2
      · have := hone t ht
        omega

end

theorem Chain.recorded_resolves_iff
    (hdatetime : ∀ target,
      Resolves (datetimeToT iso chain.time target chain.head) (chain.madeBy target)) :
    (∀ target, Resolves (recordedToT iso chain.time chain.received target chain.head)
      (chain.recordedBy target)) ↔ chain.received.Ordered ∧ chain.FlipLeads := by
  cases hprobe : probeTimestampAxis chain.received chain.head none with
  | none =>
    have hnone : ∀ f, ¬ chain.received.Has f := by
      simpa using (probe_eq_none chain.received_runs).mp hprobe
    have hstamp : ∀ c ∈ chain.commits, c.receivedAt = none := fun c hc =>
      eq_none_iff_forall_not_mem.mpr fun x hx =>
        hnone _ ((chain.holds_received _).mpr ⟨c, hc, x, hx, rfl⟩)
    refine iff_of_true (fun target => ?_) ⟨fun f hf => absurd hf.1 (hnone f), fun c hc x hx => ?_⟩
    · have hsame : chain.recordedBy target = chain.madeBy target := by
        ext t
        exact exists_congr fun c => and_congr_right fun hc => by rw [hstamp c hc, getD_none]
      rw [recordedToT, hprobe, hsame]
      exact hdatetime target
    · simp [hstamp c hc] at hx
  | some f =>
    obtain ⟨hf, hleast⟩ := earliest_le chain.received_runs hprobe
    obtain ⟨g, hg, ho⟩ := exists_first chain.received_runs hf
    obtain ⟨c, hc, x, hx, rfl⟩ := (chain.holds_received g).mp hg.1
    have hflip : ∀ d ∈ chain.commits, d.receivedAt.isSome → c.t ≤ d.t := by
      intro d hd hsome
      obtain ⟨y, hy⟩ := isSome_iff_exists.mp hsome
      have hhas : chain.received.Has (d.fact y) := (chain.holds_received _).mpr ⟨d, hd, y, hy, rfl⟩
      rcases (ho.trans_le (hleast _ hhas)).lt_or_eq with hlt | heq
      · exact (chain.received_runs.lt_of_lt hg.1 hhas hlt).le
      · exact hg.2 _ hhas heq.symm
    have hleads : chain.FlipLeads ↔ chain.received.Leads (c.fact x) ∨ x ≤ c.time := by
      refine ⟨fun h => h c hc x hx hflip, fun h d hd y hy hfirst => ?_⟩
      obtain rfl := chain.number_inj c hc d hd
        (le_antisymm (hflip d hd (isSome_of_mem hy)) (hfirst c hc (isSome_of_mem hx)))
      rwa [mem_unique hy hx]
    have hlate : ∀ target, x ≤ target →
        (Resolves (recordedToT iso chain.time chain.received target chain.head)
          (chain.recordedBy target) ↔ IsGreatest (chain.received.upTo target)
            (beforeFirstAfter chain.received chain.head target)) := by
      intro target hle
      simp only [recordedToT, hprobe]
      rw [if_neg (ho ▸ not_lt.mpr hle)]
      exact isGreatest_recordedBy hc hx hle
    rw [hleads, ← recorded_before_iff iso hc hx hflip hdatetime hprobe ho.symm,
      ← greatest_iff_ordered chain.received_runs]
    constructor
    · refine fun h => ⟨fun target ⟨e, he, hle⟩ => ?_, fun target _ => h target⟩
      exact (hlate target ((ho.trans_le (hleast e he)).trans hle)).mp (h target)
    · rintro ⟨hafter, hbefore⟩ target
      rcases lt_or_ge target x with hlt | hle
      · exact hbefore target hlt
      · exact (hlate target hle).mpr (hafter target ⟨f, hf, ho ▸ hle⟩)

/-- Both resolutions answer every target right, exactly if there is a commit and the first
commit of a time, where it counts, has the least subject. -/
theorem wall_clock_resolves_iff :
    (∀ target,
      Resolves (datetimeToT iso chain.time target chain.head) (chain.madeBy target) ∧
      Resolves (recordedToT iso chain.time chain.received target chain.head)
        (chain.recordedBy target)) ↔
    (∃ c, c ∈ chain.commits) ∧ chain.time.Ordered ∧ chain.received.Ordered ∧ chain.FlipLeads := by
  by_cases hne : ∃ c, c ∈ chain.commits
  · rw [forall_and, and_iff_right hne, ← chain.datetime_resolves_iff iso hne]
    exact and_congr_right (chain.recorded_resolves_iff iso)
  · refine iff_of_false (fun h => ?_) fun h => hne h.1
    exact chain.not_resolves_of_empty iso (not_exists.mp hne) 0 (h 0).1

end

/-- Of three commits the last two have one time, and the third has the lesser subject. -/
def tied : Chain ℕ where
  head := 3
  commits := [⟨1, 1, 100, none⟩, ⟨2, 3, 200, none⟩, ⟨3, 2, 200, none⟩]
  numbered t := by simp; omega
  number_inj := by decide
  subject_inj := by decide
  events := by decide
  stamps := by simp
  time := ⟨[⟨1, 100, 1⟩], [⟨3, 200, 2⟩, ⟨2, 200, 3⟩]⟩
  received := ⟨[], []⟩
  holds_time f := by simp [Axis.Has, CommitTimes.fact]
  holds_received f := by simp [Axis.Has]

/-- The instant between the two times resolves to the second commit, made after it. -/
theorem tied_resolves_late : datetimeToT toString tied.time 150 tied.head = .ok 2 ∧
    tied.madeBy 150 = {1} := by
  constructor
  · decide +kernel
  · ext t
    simp [Chain.madeBy, tied]

end FlureeDb.Ledger.TimeResolve
