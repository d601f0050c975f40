import FlureeDb.Lib.SortedList
import Mathlib.Data.List.Pairwise
import Mathlib.Data.List.TakeWhile

/-!
The walk with two pointers over rows and operations that are sorted by the same key. A
row and an operation of one key are met together; everything else is met alone. Keys
of rows are distinct. Operations may share a key; the first one meets the row.
-/

namespace FlureeDb.Lib

open List

inductive Joined (α β : Type*)
  | left (a : α)
  | right (b : β)
  | both (a : α) (b : β)

namespace Joined

variable {α β : Type*}

def rows : Joined α β → List α
  | left a => [a]
  | right _ => []
  | both a _ => [a]

def ops : Joined α β → List β
  | left _ => []
  | right b => [b]
  | both _ b => [b]

end Joined

section

variable {α β : Type*} (cmp : α → β → Ordering) (within : β → Bool)

/-- At a row, the operations that sort before it are met first, and the row is met with
the next operation if that is of its key. Behind the last row, operations are met as long
as they are within bounds. What is not met is left. -/
def mergeJoin : List α → List β → List (Joined α β) × List β
  | [], bs => ((bs.takeWhile within).map .right, bs.dropWhile within)
  | a :: as, bs =>
    let before := (bs.takeWhile fun b => cmp a b == .gt).map Joined.right
    match bs.dropWhile fun b => cmp a b == .gt with
    | [] => (before ++ .left a :: (mergeJoin as []).1, (mergeJoin as []).2)
    | b :: bs =>
      if cmp a b = .eq then
        (before ++ .both a b :: (mergeJoin as bs).1, (mergeJoin as bs).2)
      else (before ++ .left a :: (mergeJoin as (b :: bs)).1, (mergeJoin as (b :: bs)).2)

/-- Nothing is left if everything is within bounds. -/
theorem mergeJoin_all (as : List α) (bs : List β) :
    (mergeJoin cmp (fun _ => true) as bs).2 = [] := by
  induction as generalizing bs with
  | nil => simp [mergeJoin]
  | cons a as ih =>
    simp only [mergeJoin]
    split
    · exact ih _
    · split
      · exact ih _
      · exact ih _

/-- Rows in front of all operations are met alone, and operations out of bounds are left. -/
theorem mergeJoin_of_lt {as : List α} {bs : List β} (hlt : ∀ a ∈ as, ∀ b ∈ bs.head?, cmp a b = .lt)
    (hout : ∀ b ∈ bs.head?, within b = false) :
    mergeJoin cmp within as bs = (as.map .left, bs) := by
  induction as with
  | nil =>
    cases bs with
    | nil => rfl
    | cons b => simp [mergeJoin, hout b rfl]
  | cons a as ih =>
    have ih := ih fun a' ha' => hlt a' (mem_cons_of_mem a ha')
    cases bs with
    | nil => simp [mergeJoin, ih]
    | cons b => simp [mergeJoin, hlt a mem_cons_self b rfl, ih]

/-- A cut commutes with a cut further behind. -/
theorem takeWhile_cut {p q : β → Bool} (h : ∀ b, p b = true → q b = true) (bs : List β) :
    (bs.takeWhile q).takeWhile p = bs.takeWhile p ∧
      (bs.takeWhile q).dropWhile p = (bs.dropWhile p).takeWhile q ∧
        bs.dropWhile q = (bs.dropWhile p).dropWhile q := by
  induction bs with
  | nil => exact ⟨rfl, rfl, rfl⟩
  | cons b bs ih =>
    cases hp : p b with
    | true => simp [hp, h b, ih.1, ih.2.1, ← ih.2.2]
    | false => cases hq : q b <;> simp [hp, hq]

/-- If everything up to a row is within bounds, the bounds cut the operations in two: the
walk is over the first part. -/
theorem mergeJoin_within {as : List α} (h : ∀ a ∈ as, ∀ b, cmp a b ≠ .lt → within b = true)
    (bs : List β) :
    mergeJoin cmp within as bs =
      ((mergeJoin cmp (fun _ => true) as (bs.takeWhile within)).1, bs.dropWhile within) := by
  induction as generalizing bs with
  | nil =>
    have hid : (bs.takeWhile within).takeWhile (fun _ => true) = bs.takeWhile within :=
      takeWhile_eq_self_iff.mpr fun _ _ => rfl
    simp only [mergeJoin, hid]
  | cons a as ih =>
    have ih := ih fun a' ha' => h a' (mem_cons_of_mem a ha')
    have ha := h a mem_cons_self
    have hgt : ∀ b, (cmp a b == .gt) = true → within b = true := by
      intro b hb
      refine ha b fun hlt => ?_
      rw [hlt] at hb
      cases hb
    obtain ⟨hcut, hrest, hleft⟩ := takeWhile_cut hgt bs
    simp only [mergeJoin, hcut, hrest]
    rw [hleft]
    cases hafter : bs.dropWhile fun b => cmp a b == .gt with
    | nil => simp [ih]
    | cons b =>
      by_cases heq : cmp a b = .eq
      · have hb : within b = true := ha b (by simp [heq])
        simp [heq, hb, ih]
      · simp only [ih]
        cases hb : within b <;> simp [hb, heq]

/-- A cut that nothing of the second part passes is a cut of the first part. -/
theorem takeWhile_append_cut {p : β → Bool} {bs' : List β} (h : ∀ b ∈ bs', p b = false)
    (bs : List β) :
    (bs ++ bs').takeWhile p = bs.takeWhile p ∧
      (bs ++ bs').dropWhile p = bs.dropWhile p ++ bs' := by
  induction bs with
  | nil =>
    cases bs' with
    | nil => exact ⟨rfl, rfl⟩
    | cons b => simp [h b]
  | cons b bs ih => cases hb : p b <;> simp [hb, ih.1, ih.2]

/-- The walk over two parts that are apart is the walk over the whole. -/
theorem mergeJoin_append {as as' : List α} {bs bs' : List β}
    (hlt : ∀ a ∈ as, ∀ b ∈ bs', cmp a b = .lt) (hgt : ∀ a ∈ as', ∀ b ∈ bs, cmp a b = .gt) :
    (mergeJoin cmp (fun _ => true) (as ++ as') (bs ++ bs')).1 =
      (mergeJoin cmp (fun _ => true) as bs).1 ++ (mergeJoin cmp (fun _ => true) as' bs').1 := by
  have hid : ∀ bs : List β, bs.takeWhile (fun _ => true) = bs :=
    fun bs => takeWhile_eq_self_iff.mpr fun _ _ => rfl
  induction as generalizing bs with
  | nil =>
    rw [nil_append]
    cases as' with
    | nil => simp only [mergeJoin, hid, map_append]
    | cons a =>
      have hall : ∀ b ∈ bs, (cmp a b == .gt) = true := by
        intro b hb
        rw [hgt a mem_cons_self b hb]
        rfl
      simp only [mergeJoin, hid, takeWhile_append_of_pos hall,
        dropWhile_append_of_pos hall, map_append, append_assoc]
      split
      · rfl
      · split
        · rfl
        · rfl
  | cons a as ih =>
    have hlater : ∀ b ∈ bs', (cmp a b == .gt) = false := by
      intro b hb
      rw [hlt a mem_cons_self b hb]
      rfl
    have ih := fun (bs : List β) (hbs : ∀ a ∈ as', ∀ b ∈ bs, cmp a b = .gt) =>
      @ih bs (fun a' ha' => hlt a' (mem_cons_of_mem a ha')) hbs
    have hrest : ∀ a' ∈ as', ∀ b ∈ bs.dropWhile (fun b => cmp a b == .gt), cmp a' b = .gt :=
      fun a' ha' b hb => hgt a' ha' b ((dropWhile_sublist _).subset hb)
    obtain ⟨htake, hdrop⟩ := takeWhile_append_cut (p := fun b => cmp a b == .gt) hlater bs
    simp only [cons_append, mergeJoin, htake, hdrop]
    cases hafter : bs.dropWhile fun b => cmp a b == .gt with
    | nil =>
      -- the operations of the first part are used up before this row
      have hempty := ih [] fun _ _ b hb => absurd hb not_mem_nil
      rw [nil_append] at hempty ⊢
      cases bs' with
      | nil => simp [hempty]
      | cons b => simp [hlt a mem_cons_self b, hempty]
    | cons b rest =>
      rw [hafter] at hrest
      by_cases heq : cmp a b = .eq
      · have htail := ih rest fun a' ha' b' hb' => hrest a' ha' b' (mem_cons_of_mem b hb')
        simp [heq, htail]
      · have htail := ih (b :: rest) hrest
        rw [cons_append] at htail
        simp [heq, htail]

end

/-- Cuts a list at the binary search for each bound. What is behind the last cut is the last
slice. -/
def sliceAt {β γ : Type*} (below : γ → β → Bool) : List γ → List β → List (List β)
  | [], bs => [bs]
  | c :: cs, bs =>
    bs.take (partitionPoint (below c) bs) ::
      sliceAt below cs (bs.drop (partitionPoint (below c) bs))

/-- The part that a key falls into: the last one whose bound it reaches, or the first. -/
def routed {γ K : Type*} [LinearOrder K] (bound : γ → K) (key : K) : γ → List γ → γ
  | part, [] => part
  | part, c :: cs => if key < bound c then part else routed bound key c cs

def routedIn {γ K : Type*} [LinearOrder K] (bound : γ → K) (key : K) : List γ → Option γ
  | [] => none
  | part :: parts => some (routed bound key part parts)

/-! ### What the walk meets -/

variable {α β K : Type*} [LinearOrder K] {cmp : α → β → Ordering} {within : β → Bool}
  {rowKey : α → K} {opKey : β → K}

def Joined.key (rowKey : α → K) (opKey : β → K) : Joined α β → K
  | left a => rowKey a
  | right b => opKey b
  | both _ b => opKey b

/-- One has a smaller key than the other, or their operations are in the order given. -/
def Joined.Before (rowKey : α → K) (opKey : β → K) (r : β → β → Prop) (x y : Joined α β) : Prop :=
  x.key rowKey opKey < y.key rowKey opKey ∨ ∃ b ∈ x.ops, ∃ b' ∈ y.ops, r b b'

variable {x : Joined α β}

omit [LinearOrder K] in
theorem Joined.key_of_mem_ops {b : β} (h : b ∈ x.ops) : x.key rowKey opKey = opKey b := by
  cases x with
  | left => cases h
  | right | both => rw [mem_singleton.mp h]; rfl

variable (hcmp : ∀ a b, (cmp a b).Compares (rowKey a) (opKey b))

include hcmp in
/-- Induction over the rows, for sorted operations: a row is met alone if there is no operation of
its key, and else with the first one. -/
theorem mergeJoin_induction {motive : List α → List β → List (Joined α β) × List β → Prop}
    (nil : ∀ bs, motive [] bs ((bs.takeWhile within).map .right, bs.dropWhile within))
    (left : ∀ {a as before after}, (∀ b ∈ before, opKey b < rowKey a) →
      (∀ b ∈ after, rowKey a < opKey b) → motive as after (mergeJoin cmp within as after) →
        motive (a :: as) (before ++ after)
          (before.map .right ++ .left a :: (mergeJoin cmp within as after).1,
            (mergeJoin cmp within as after).2))
    (both : ∀ {a as before b rest}, (∀ b ∈ before, opKey b < rowKey a) → opKey b = rowKey a →
      motive as rest (mergeJoin cmp within as rest) →
        motive (a :: as) (before ++ b :: rest)
          (before.map .right ++ .both a b :: (mergeJoin cmp within as rest).1,
            (mergeJoin cmp within as rest).2))
    (as : List α) {bs : List β} (hbs : bs.Pairwise fun b b' => opKey b ≤ opKey b') :
    motive as bs (mergeJoin cmp within as bs) := by
  induction as generalizing bs with
  | nil => exact nil bs
  | cons a as ih =>
    have hgt : ∀ b, (cmp a b == .gt) = true ↔ opKey b < rowKey a := by
      intro b
      rw [beq_iff_eq, (hcmp a b).eq_gt]
    have hbefore : ∀ b ∈ bs.takeWhile fun b => cmp a b == .gt, opKey b < rowKey a := fun b hb =>
      (hgt b).mp (mem_takeWhile_imp (p := fun b => cmp a b == .gt) hb)
    have hsplit := takeWhile_append_dropWhile (p := fun b => cmp a b == .gt) (l := bs)
    have hsorted := hbs.sublist (dropWhile_sublist fun b => cmp a b == .gt)
    rw [mergeJoin]
    cases hafter : bs.dropWhile fun b => cmp a b == .gt with
    | nil =>
      rw [hafter] at hsplit
      have hstep := left hbefore (fun b hb => absurd hb not_mem_nil) (ih .nil)
      rwa [hsplit] at hstep
    | cons b =>
      rw [hafter] at hsplit hsorted
      obtain ⟨hrest, htail⟩ := pairwise_cons.mp hsorted
      by_cases heq : cmp a b = .eq
      · have hstep := both hbefore ((hcmp a b).eq_eq.mp heq).symm (ih htail)
        rw [hsplit] at hstep
        simpa only [heq, if_true] using hstep
      · have hlt : rowKey a < opKey b := by
          have hnot := List.head?_dropWhile_not (fun b => cmp a b == .gt) bs
          rw [hafter, List.head?_cons] at hnot
          refine lt_of_le_of_ne (not_lt.mp fun hlt => ?_) fun hkey => heq ((hcmp a b).eq_eq.mpr hkey)
          simp [(hgt b).mpr hlt] at hnot
        have hstep := left hbefore (forall_mem_cons.mpr
          ⟨hlt, fun b' hb' => lt_of_lt_of_le hlt (hrest b' hb')⟩) (ih hsorted)
        rw [hsplit] at hstep
        simpa only [heq, if_false] using hstep

/-- Sorted operations are below a bound at the front and not below it behind. -/
theorem not_lt_of_mem_dropWhile {p : β → Bool} {c : K} (hp : ∀ b, p b = true ↔ opKey b < c)
    {bs : List β} (hbs : bs.Pairwise fun b b' => opKey b ≤ opKey b') :
    ∀ b ∈ bs.dropWhile p, c ≤ opKey b := by
  intro b hb
  rw [dropWhile_eq_filter (hbs.imp fun hle hlt => (hp _).mpr (hle.trans_lt ((hp _).mp hlt))),
    mem_filter, Bool.not_eq_true', ← Bool.not_eq_true, hp, not_lt] at hb
  exact hb.2

omit [LinearOrder K] in
theorem flatMap_right (bs : List β) :
    (bs.map (Joined.right : β → Joined α β)).flatMap Joined.ops = bs ∧
      (bs.map (Joined.right : β → Joined α β)).flatMap Joined.rows = [] := by
  rw [flatMap_map, flatMap_map]
  exact ⟨flatMap_singleton' bs, flatMap_eq_nil_iff.mpr fun _ _ => rfl⟩

include hcmp

section

variable {as : List α} {bs : List β} (hbs : bs.Pairwise fun b b' => opKey b ≤ opKey b')

include hbs

variable (within as) in
/-- Every operation is met once, in order, or left. -/
theorem mergeJoin_ops :
    (mergeJoin cmp within as bs).1.flatMap Joined.ops ++ (mergeJoin cmp within as bs).2 = bs := by
  refine mergeJoin_induction hcmp
    (motive := fun _ bs out => out.1.flatMap Joined.ops ++ out.2 = bs) (fun bs => ?_) ?_ ?_ as hbs
  · rw [(flatMap_right _).1, takeWhile_append_dropWhile]
  · intro a as before after _ _ ih
    rw [flatMap_append, (flatMap_right _).1, flatMap_cons, append_assoc]
    exact congrArg (before ++ ·) ih
  · intro a as before b rest _ _ ih
    rw [flatMap_append, (flatMap_right _).1, flatMap_cons, append_assoc]
    exact congrArg (before ++ b :: ·) ih

variable (as) in
theorem mergeJoin_ops_all : (mergeJoin cmp (fun _ => true) as bs).1.flatMap Joined.ops = bs := by
  have hops := mergeJoin_ops (fun _ => true) hcmp as hbs
  rwa [mergeJoin_all, append_nil] at hops

variable (within as) in
theorem mergeJoin_rows : (mergeJoin cmp within as bs).1.flatMap Joined.rows = as := by
  refine mergeJoin_induction hcmp
    (motive := fun as _ out => out.1.flatMap Joined.rows = as) (fun bs => ?_) ?_ ?_ as hbs
  · exact (flatMap_right _).2
  · intro a as before after _ _ ih
    rw [flatMap_append, (flatMap_right _).2, flatMap_cons, ih]
    rfl
  · intro a as before b rest _ _ ih
    rw [flatMap_append, (flatMap_right _).2, flatMap_cons, ih]
    rfl

variable (within) in
/-- A row is met alone exactly if there is no operation of its key. -/
theorem left_mem_mergeJoin (has : as.Pairwise fun a a' => rowKey a < rowKey a') (x : α) :
    .left x ∈ (mergeJoin cmp within as bs).1 ↔ x ∈ as ∧ ∀ b ∈ bs, opKey b ≠ rowKey x := by
  revert has
  refine mergeJoin_induction hcmp (motive := fun as bs out =>
    (as.Pairwise fun a a' => rowKey a < rowKey a') →
      (.left x ∈ out.1 ↔ x ∈ as ∧ ∀ b ∈ bs, opKey b ≠ rowKey x)) (fun bs _ => by simp) ?_ ?_ as hbs
  · intro a as before after hbefore hafter ih has
    obtain ⟨ha, has⟩ := pairwise_cons.mp has
    simp only [mem_append, mem_map, reduceCtorEq, and_false, exists_false, false_or,
      mem_cons, Joined.left.injEq]
    rw [ih has]
    constructor
    · rintro (rfl | ⟨hx, hnone⟩)
      · refine ⟨.inl rfl, fun b hb => ?_⟩
        rcases hb with hb | hb
        · exact ne_of_lt (hbefore b hb)
        · exact (ne_of_lt (hafter b hb)).symm
      · refine ⟨.inr hx, fun b hb => ?_⟩
        rcases hb with hb | hb
        · exact ne_of_lt ((hbefore b hb).trans (ha x hx))
        · exact hnone b hb
    · rintro ⟨rfl | hx, hnone⟩
      · exact .inl rfl
      · exact .inr ⟨hx, fun b hb => hnone b (.inr hb)⟩
  · intro a as before b rest hbefore hkey ih has
    obtain ⟨ha, has⟩ := pairwise_cons.mp has
    simp only [mem_append, mem_map, reduceCtorEq, and_false, exists_false, false_or, mem_cons]
    rw [ih has]
    constructor
    · rintro ⟨hx, hnone⟩
      refine ⟨.inr hx, fun b' hb' => ?_⟩
      rcases hb' with hb' | rfl | hb'
      · exact ne_of_lt ((hbefore b' hb').trans (ha x hx))
      · exact ne_of_lt (hkey.trans_lt (ha x hx))
      · exact hnone b' hb'
    · rintro ⟨rfl | hx, hnone⟩
      · exact absurd hkey (hnone b (.inr (.inl rfl)))
      · exact ⟨hx, fun b' hb' => hnone b' (.inr (.inr hb'))⟩

theorem key_eq_of_both_mem {x : α} {y : β} (h : .both x y ∈ (mergeJoin cmp within as bs).1) :
    rowKey x = opKey y := by
  revert h
  refine mergeJoin_induction hcmp
    (motive := fun _ _ out => .both x y ∈ out.1 → rowKey x = opKey y) (fun bs => by simp) ?_ ?_ as hbs
  · intro a as before after _ _ ih h
    refine ih ?_
    simpa using h
  · intro a as before b rest _ hkey ih h
    simp only [mem_append, mem_map, reduceCtorEq, and_false, exists_false,
      false_or, mem_cons] at h
    rcases h with ⟨rfl, rfl⟩ | h
    · exact hkey.symm
    · exact ih h

theorem mem_of_mem_rows (hx : x ∈ (mergeJoin cmp within as bs).1) {a : α} (h : a ∈ x.rows) :
    a ∈ as := by
  have hin := mem_flatMap_of_mem hx h
  rwa [mergeJoin_rows within hcmp as hbs] at hin

theorem mem_of_mem_ops (hx : x ∈ (mergeJoin cmp within as bs).1) {b : β} (h : b ∈ x.ops) :
    b ∈ bs := by
  rw [← mergeJoin_ops within hcmp as hbs]
  exact mem_append_left _ (mem_flatMap_of_mem hx h)

end

/-- The walk goes in the order of the keys, and meets operations of one key in the order
they are in. -/
theorem mergeJoin_pairwise {r : β → β → Prop} (hle : ∀ {b b'}, r b b' → opKey b ≤ opKey b')
    {as : List α} {bs : List β} (has : as.Pairwise fun a a' => rowKey a < rowKey a')
    (hbs : bs.Pairwise r) :
    (mergeJoin cmp within as bs).1.Pairwise (Joined.Before rowKey opKey r) := by
  have hweak : ∀ {bs : List β}, bs.Pairwise r → bs.Pairwise fun b b' => opKey b ≤ opKey b' :=
    fun h => h.imp hle
  have hright : ∀ {bs : List β}, bs.Pairwise r →
      (bs.map (Joined.right : β → Joined α β)).Pairwise (Joined.Before rowKey opKey r) := fun h =>
    Pairwise.map _ (fun b b' hr => .inr
      ⟨b, mem_singleton_self b, b', mem_singleton_self b', hr⟩) h
  -- operations in front of what the walk meets next
  have hfront : ∀ {m : Joined α β} {before : List β} {walk : List (Joined α β)},
      before.Pairwise r → (∀ b ∈ before, opKey b < m.key rowKey opKey) →
      (∀ y ∈ walk, m.Before rowKey opKey r y) → walk.Pairwise (Joined.Before rowKey opKey r) →
      (before.map Joined.right ++ m :: walk).Pairwise (Joined.Before rowKey opKey r) := by
    intro m before walk hsorted hbefore hlater hwalk
    refine pairwise_append.mpr ⟨hright hsorted, pairwise_cons.mpr ⟨hlater, hwalk⟩, ?_⟩
    intro x hx y hy
    obtain ⟨b, hb, rfl⟩ := mem_map.mp hx
    refine .inl (lt_of_lt_of_le (hbefore b hb) ?_)
    rcases mem_cons.mp hy with rfl | hy
    · exact le_rfl
    rcases hlater y hy with hlt | ⟨b', hb', c, hc, hr⟩
    · exact hlt.le
    · rw [Joined.key_of_mem_ops hb', Joined.key_of_mem_ops hc]
      exact hle hr
  have hsorted := hweak hbs
  revert has hbs
  refine mergeJoin_induction hcmp (motive := fun as bs out =>
    (as.Pairwise fun a a' => rowKey a < rowKey a') → bs.Pairwise r →
      out.1.Pairwise (Joined.Before rowKey opKey r))
    (fun bs _ hbs => hright (hbs.sublist (takeWhile_sublist _))) ?_ ?_ as hsorted
  · intro a as before after hbefore hafter ih has hbs
    obtain ⟨ha, has⟩ := pairwise_cons.mp has
    obtain ⟨hbs₁, hbs₂, -⟩ := pairwise_append.mp hbs
    refine hfront hbs₁ hbefore (fun x hx => .inl ?_) (ih has hbs₂)
    -- what comes later has the key of a later row or of a later operation
    have hrows := fun a' => mem_of_mem_rows hcmp (hweak hbs₂) hx (a := a')
    have hops := fun b' => mem_of_mem_ops hcmp (hweak hbs₂) hx (b := b')
    cases x with
    | left a' => exact ha a' (hrows a' mem_cons_self)
    | right b' | both a' b' => exact hafter b' (hops b' mem_cons_self)
  · intro a as before b rest hbefore hkey ih has hbs
    obtain ⟨ha, has⟩ := pairwise_cons.mp has
    obtain ⟨hbs₁, hbs₂, -⟩ := pairwise_append.mp hbs
    obtain ⟨hb, hbs₂⟩ := pairwise_cons.mp hbs₂
    refine hfront hbs₁ (fun b' hb' => (hbefore b' hb').trans_eq hkey.symm) (fun x hx => ?_)
      (ih has hbs₂)
    have hrows := fun a' => mem_of_mem_rows hcmp (hweak hbs₂) hx (a := a')
    have hops := fun b' => mem_of_mem_ops hcmp (hweak hbs₂) hx (b := b')
    cases x with
    | left a' => exact .inl (hkey.trans_lt (ha a' (hrows a' mem_cons_self)))
    | right b' | both a' b' =>
      exact .inr ⟨b, mem_cons_self, b', mem_cons_self, hb b' (hops b' mem_cons_self)⟩

/-! ### Slices -/

section

variable {γ : Type*} {below : γ → β → Bool} {bound : γ → K} {rows : γ → List α}

omit hcmp in
/-- The slice of each part has what falls into it. -/
theorem forall_slices_iff (hbelow : ∀ c b, below c b = true ↔ opKey b < bound c)
    {Q : γ → β → Prop} (part : γ) (parts : List γ) {bs : List β}
    (hbs : bs.Pairwise fun b b' => opKey b ≤ opKey b') :
    (∀ p ∈ (part :: parts).zip (sliceAt below parts bs), ∀ b ∈ p.2, Q p.1 b) ↔
      ∀ b ∈ bs, Q (routed bound (opKey b) part parts) b := by
  induction parts generalizing part bs with
  | nil => simp [sliceAt, routed]
  | cons next parts ih =>
    have hcut : bs.Pairwise fun b b' => below next b' = true → below next b = true :=
      hbs.imp fun hle hlt => (hbelow _ _).mpr (hle.trans_lt ((hbelow _ _).mp hlt))
    rw [sliceAt, take_partitionPoint, drop_takeWhile_length, zip_cons_cons, forall_mem_cons,
      ih next (hbs.sublist (dropWhile_sublist (below next))), takeWhile_eq_filter hcut,
      dropWhile_eq_filter hcut]
    constructor
    · rintro ⟨hfront, hback⟩ b hb
      rw [routed]
      split
      next hlt => exact hfront b (mem_filter.mpr ⟨hb, (hbelow next b).mpr hlt⟩)
      next hle =>
        exact hback b (mem_filter.mpr ⟨hb, by simpa using (hbelow next b).not.mpr hle⟩)
    · intro h
      refine ⟨fun b hb => ?_, fun b hb => ?_⟩
      · obtain ⟨hb, hlt⟩ := mem_filter.mp hb
        simpa [routed, (hbelow next b).mp hlt] using h b hb
      · obtain ⟨hb, hle⟩ := mem_filter.mp hb
        have hnot : ¬ opKey b < bound next := by
          rw [← hbelow]
          simpa using hle
        simpa [routed, hnot] using h b hb

/-- Walking each part with its slice is one walk, if the cuts fall between the parts. -/
theorem mergeJoin_slices (hbelow : ∀ c b, below c b = true ↔ opKey b < bound c) (part : γ)
    (parts : List γ) (hbefore : (part :: parts).Pairwise fun c c' => ∀ a ∈ rows c, rowKey a < bound c')
    (hafter : ∀ c ∈ parts, ∀ a ∈ rows c, bound c ≤ rowKey a)
    (hbounds : parts.Pairwise fun c c' => bound c ≤ bound c') {bs : List β}
    (hbs : bs.Pairwise fun b b' => opKey b ≤ opKey b') :
    ((part :: parts).zip (sliceAt below parts bs)).flatMap
        (fun p => (mergeJoin cmp (fun _ => true) (rows p.1) p.2).1) =
      (mergeJoin cmp (fun _ => true) ((part :: parts).flatMap rows) bs).1 := by
  induction parts generalizing part bs with
  | nil => simp [sliceAt]
  | cons next parts ih =>
    obtain ⟨hpart, hbefore⟩ := pairwise_cons.mp hbefore
    obtain ⟨hnext, hbounds⟩ := pairwise_cons.mp hbounds
    have hrest := ih next hbefore (fun c hc => hafter c (mem_cons_of_mem next hc)) hbounds
      (hbs.sublist (dropWhile_sublist (below next)))
    have hfront : ∀ a ∈ rows part, ∀ b ∈ bs.dropWhile (below next), cmp a b = .lt := by
      intro a ha b hb
      refine (hcmp a b).eq_lt.mpr (lt_of_lt_of_le (hpart next mem_cons_self a ha) ?_)
      exact not_lt_of_mem_dropWhile (hbelow next) hbs b hb
    have hback : ∀ a ∈ (next :: parts).flatMap rows, ∀ b ∈ bs.takeWhile (below next),
        cmp a b = .gt := by
      intro a ha b hb
      obtain ⟨c, hc, ha⟩ := mem_flatMap.mp ha
      have hle : bound next ≤ bound c := by
        rcases mem_cons.mp hc with rfl | hc
        · exact le_rfl
        · exact hnext c hc
      have hlt : opKey b < bound next :=
        (hbelow next b).mp (mem_takeWhile_imp (p := below next) hb)
      exact (hcmp a b).eq_gt.mpr (lt_of_lt_of_le hlt (hle.trans (hafter c hc a ha)))
    rw [sliceAt, take_partitionPoint, drop_takeWhile_length, zip_cons_cons,
      flatMap_cons, hrest]
    have happend := mergeJoin_append cmp hfront hback
    rw [takeWhile_append_dropWhile] at happend
    exact happend.symm

end

variable {as : List α} {bs : List β} (has : as.Pairwise fun a a' => rowKey a < rowKey a')
  (hbs : bs.Pairwise fun b b' => opKey b < opKey b')

include has hbs

theorem eq_of_key_eq {y : Joined α β} (hx : x ∈ (mergeJoin cmp within as bs).1)
    (hy : y ∈ (mergeJoin cmp within as bs).1) (h : x.key rowKey opKey = y.key rowKey opKey) :
    x = y := by
  have hsorted : (mergeJoin cmp within as bs).1.Pairwise
      fun x y => x.key rowKey opKey < y.key rowKey opKey := by
    refine (mergeJoin_pairwise hcmp le_of_lt has hbs).imp fun hxy => ?_
    rcases hxy with hlt | ⟨b, hb, b', hb', hlt⟩
    · exact hlt
    · rw [Joined.key_of_mem_ops hb, Joined.key_of_mem_ops hb']
      exact hlt
  exact inj_on_of_nodup_map (pairwise_map.mpr (hsorted.imp ne_of_lt)) hx hy h

theorem both_mem_mergeJoin (hall : (mergeJoin cmp within as bs).2 = []) (x : α) (y : β) :
    .both x y ∈ (mergeJoin cmp within as bs).1 ↔ x ∈ as ∧ y ∈ bs ∧ rowKey x = opKey y := by
  have hweak := hbs.imp le_of_lt
  refine ⟨fun h => ⟨mem_of_mem_rows hcmp hweak h mem_cons_self,
    mem_of_mem_ops hcmp hweak h mem_cons_self, key_eq_of_both_mem hcmp hweak h⟩, ?_⟩
  rintro ⟨hx, hy, hkey⟩
  rw [← mergeJoin_rows within hcmp as hweak] at hx
  rw [← mergeJoin_ops within hcmp as hweak, hall, append_nil] at hy
  obtain ⟨e, he, hex⟩ := mem_flatMap.mp hx
  obtain ⟨e', he', hey⟩ := mem_flatMap.mp hy
  have hekey : e.key rowKey opKey = rowKey x := by
    cases e with
    | left => rw [mem_singleton.mp hex]; rfl
    | right => cases hex
    | both =>
      rw [mem_singleton.mp hex]
      exact (key_eq_of_both_mem hcmp hweak he).symm
  have hekey' : e'.key rowKey opKey = opKey y := Joined.key_of_mem_ops hey
  have heq := eq_of_key_eq hcmp has hbs he he' (by rw [hekey, hekey', hkey])
  subst heq
  cases e with
  | left => cases hey
  | right => cases hex
  | both =>
    rw [mem_singleton.mp hex, mem_singleton.mp hey]
    exact he

/-- An operation is met alone exactly if there is no row of its key. -/
theorem right_mem_mergeJoin (hall : (mergeJoin cmp within as bs).2 = []) (y : β) :
    .right y ∈ (mergeJoin cmp within as bs).1 ↔ y ∈ bs ∧ ∀ a ∈ as, rowKey a ≠ opKey y := by
  have hweak := hbs.imp le_of_lt
  constructor
  · intro h
    have hy := mem_of_mem_ops hcmp hweak h mem_cons_self
    refine ⟨hy, fun a ha hkey => ?_⟩
    have hboth := (both_mem_mergeJoin hcmp has hbs hall a y).mpr ⟨ha, hy, hkey⟩
    have heq := eq_of_key_eq hcmp has hbs h hboth rfl
    cases heq
  · rintro ⟨hy, hnone⟩
    rw [← mergeJoin_ops within hcmp as hweak, hall, append_nil] at hy
    obtain ⟨e, he, hey⟩ := mem_flatMap.mp hy
    cases e with
    | left => cases hey
    | right =>
      rw [mem_singleton.mp hey]
      exact he
    | both a =>
      rw [mem_singleton.mp hey] at hnone
      exact absurd (key_eq_of_both_mem hcmp hweak he)
        (hnone a (mem_of_mem_rows hcmp hweak he mem_cons_self))

end FlureeDb.Lib
