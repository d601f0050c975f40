import FlureeDb.Core.DurationExact

/-!
The components of durations with a time of day, and their sums. The parsers read components from
left to right and add them up as they go, so they can overflow before they have seen that the
rest is no duration. What a component adds, and where it breaks, is said of its text; the parsers
of seconds, of time parts and of days and times follow it.
-/

namespace FlureeDb.Core

open Lib List Outcome
open Lib.Numerals (SignedNumeral)
open Xsd (field)

/-! ### Components -/

/-- What a duration adds up: a number of units, or seconds. -/
inductive Component
  | amount (scale : ℤ) (text : List Char)
  | seconds (text : List Char)

def WholeSeconds (text : List Char) (w : ℤ) : Prop :=
  text = [] ∧ w = 0 ∨ text ≠ [] ∧ SignedNumeral (2 ^ 63 - 1) text w

/-- The first six bytes of a fraction, or the fraction filled up with zeros. -/
def SixPlaces (frac six : List Char) : Prop :=
  (∃ rest, frac = six ++ rest ∧ byteLen six = 6) ∨
    byteLen frac < 6 ∧ six = frac ++ List.replicate (6 - frac.length) '0'

/-- The whole seconds and the microseconds that a text spells. -/
def SecondsText (text : List Char) (w f : ℤ) : Prop :=
  '.' ∉ text ∧ SignedNumeral (2 ^ 63 - 1) text w ∧ f = 0 ∨
    ∃ whole frac six, text = whole ++ '.' :: frac ∧ '.' ∉ whole ∧ WholeSeconds whole w ∧
      SixPlaces frac six ∧ SignedNumeral (2 ^ 63 - 1) six f

/-- The sixth byte of the fraction is inside a character. -/
def FractionCut (text : List Char) : Prop :=
  ∃ whole frac w, text = whole ++ '.' :: frac ∧ '.' ∉ whole ∧ WholeSeconds whole w ∧
    6 ≤ byteLen frac ∧ ¬ Utf8.Boundary frac 6

/-- The number that a component adds. -/
def Component.Reads (width : ℕ) (c : Component) (v : ℤ) : Prop :=
  match c with
  | amount scale text => ∃ n, SignedNumeral (2 ^ (width - 1) - 1) text n ∧ v = n * scale
  | seconds text => ∃ w f, SecondsText text w f ∧ v = w * 1000000 + f

/-- The number of a component in the smallest unit is out of range, or its fraction is cut. -/
def Component.Breaks (width : ℕ) : Component → Prop
  | amount scale text =>
    ∃ n, SignedNumeral (2 ^ (width - 1) - 1) text n ∧ ¬ Fits width (n * scale)
  | seconds text => FractionCut text ∨ ∃ w f, SecondsText text w f ∧
      (¬ Fits width (w * 1000000) ∨ ¬ Fits width (w * 1000000 + f))

/-- One of the components breaks, or takes the sum so far out of range, after all before it have
been read. -/
def Overruns (width : ℕ) : ℤ → List Component → Prop
  | _, [] => False
  | total, c :: cs => c.Breaks width ∨
      ∃ v, c.Reads width v ∧ (¬ Fits width (total + v) ∨ Overruns width (total + v) cs)

/-- The total of what the components add. -/
def Sums (width : ℕ) : ℤ → List Component → ℤ → Prop
  | total, [], sum => sum = total
  | total, c :: cs, sum => ∃ v, c.Reads width v ∧ Sums width (total + v) cs sum

variable {width : ℕ} {total sum v : ℤ} {cs ds : List Component}

theorem overruns_append :
    Overruns width total (cs ++ ds) ↔
      Overruns width total cs ∨ ∃ a, Sums width total cs a ∧ Overruns width a ds := by
  induction cs generalizing total with
  | nil => simp [Overruns, Sums]
  | cons c cs ih =>
    simp only [cons_append, Overruns, Sums, ih]
    constructor
    · rintro (hbreaks | ⟨v, hv, hfits | hover | ⟨a, ha, hover⟩⟩)
      · exact .inl (.inl hbreaks)
      · exact .inl (.inr ⟨v, hv, .inl hfits⟩)
      · exact .inl (.inr ⟨v, hv, .inr hover⟩)
      · exact .inr ⟨a, ⟨v, hv, ha⟩, hover⟩
    · rintro ((hbreaks | ⟨v, hv, hfits | hover⟩) | ⟨a, ⟨v, hv, ha⟩, hover⟩)
      · exact .inl hbreaks
      · exact .inr ⟨v, hv, .inl hfits⟩
      · exact .inr ⟨v, hv, .inr (.inl hover)⟩
      · exact .inr ⟨v, hv, .inr (.inr ⟨a, ha, hover⟩)⟩

theorem sums_append :
    Sums width total (cs ++ ds) sum ↔ ∃ a, Sums width total cs a ∧ Sums width a ds sum := by
  induction cs generalizing total with
  | nil => simp [Sums]
  | cons c cs ih =>
    simp only [cons_append, Sums, ih]
    constructor
    · rintro ⟨v, hv, a, ha, hsum⟩
      exact ⟨a, ⟨v, hv, ha⟩, hsum⟩
    · rintro ⟨a, ⟨v, hv, ha⟩, hsum⟩
      exact ⟨v, hv, a, ha, hsum⟩

theorem fits_of_sums (htotal : Fits width total) (hover : ¬ Overruns width total cs)
    (h : Sums width total cs sum) : Fits width sum := by
  induction cs generalizing total with
  | nil => exact h ▸ htotal
  | cons c cs ih =>
    obtain ⟨v, hv, h⟩ := h
    have hnext := not_or.mp fun hnext => hover (.inr ⟨v, hv, hnext⟩)
    exact ih (not_not.mp hnext.1) hnext.2 h

/-- A computation that panics where a component breaks and else gives the number it adds. -/
structure Yields (width : ℕ) (x : Outcome String ℤ) (c : Component) : Prop where
  eq_panic : x = panic ↔ c.Breaks width
  eq_ok : ∀ v, x = ok v ↔ ¬ c.Breaks width ∧ c.Reads width v

/-- A computation that adds components to a total, from left to right. -/
structure Adds (width : ℕ) (f : ℤ → Outcome String ℤ) (cs : List Component) : Prop where
  eq_panic : ∀ total, f total = panic ↔ Overruns width total cs
  eq_ok : ∀ total sum, f total = ok sum ↔ ¬ Overruns width total cs ∧ Sums width total cs sum

theorem Adds.none (width : ℕ) : Adds width ok [] :=
  ⟨fun total => by simp [Overruns], fun total sum => by simp [Overruns, Sums, eq_comm]⟩

theorem Adds.panic_append {f : ℤ → Outcome String ℤ} (hf : Adds width f cs) :
    (f total = panic ∨ ∃ a, f total = ok a ∧ Overruns width a ds) ↔
      Overruns width total (cs ++ ds) := by
  rw [overruns_append, hf.eq_panic]
  by_cases hover : Overruns width total cs
  · simp [hover]
  · simp [hover, hf.eq_ok]

theorem Adds.ok_append {f : ℤ → Outcome String ℤ} (hf : Adds width f cs) :
    (∃ a, f total = ok a ∧ ¬ Overruns width a ds ∧ Sums width a ds sum) ↔
      ¬ Overruns width total (cs ++ ds) ∧ Sums width total (cs ++ ds) sum := by
  rw [overruns_append, sums_append, not_or]
  constructor
  · rintro ⟨a, ha, hover', hsums'⟩
    obtain ⟨hover, hsums⟩ := (hf.eq_ok _ _).mp ha
    refine ⟨⟨hover, ?_⟩, a, hsums, hsums'⟩
    rintro ⟨b, hb, hbover⟩
    have hsame := ha.symm.trans ((hf.eq_ok _ _).mpr ⟨hover, hb⟩)
    cases hsame
    exact hover' hbover
  · rintro ⟨⟨hover, hnone⟩, a, ha, hsum⟩
    exact ⟨a, (hf.eq_ok _ _).mpr ⟨hover, ha⟩, fun hbover => hnone ⟨a, ha, hbover⟩, hsum⟩

theorem Adds.bind {f g : ℤ → Outcome String ℤ} (hf : Adds width f cs) (hg : Adds width g ds) :
    Adds width (fun total => f total >>= g) (cs ++ ds) := by
  refine ⟨fun total => ?_, fun total sum => ?_⟩
  · rw [bind_eq_panic, ← hf.panic_append]
    simp only [hg.eq_panic]
  · rw [bind_eq_ok, ← hf.ok_append]
    simp only [hg.eq_ok]

theorem Adds.addUnit {read : List Char → Outcome String ℤ} {component : List Char → Component}
    (h : ∀ text, Yields width (read text) (component text)) (text : Option (List Char)) :
    Adds width (fun total => addUnit width read total text) (text.map component).toList := by
  cases text with
  | none => exact Adds.none width
  | some text =>
    refine ⟨fun total => ?_, fun total sum => ?_⟩
    · show (read text >>= fun v => checked width (total + v)) = panic ↔
        Overruns width total [component text]
      rw [bind_eq_panic, (h text).eq_panic]
      by_cases hbreaks : (component text).Breaks width
      · simp [Overruns, hbreaks]
      · simp [Overruns, hbreaks, (h text).eq_ok]
    · show (read text >>= fun v => checked width (total + v)) = ok sum ↔
        ¬ Overruns width total [component text] ∧ Sums width total [component text] sum
      rw [bind_eq_ok]
      simp only [Overruns, Sums, or_false, not_or]
      constructor
      · rintro ⟨v, hv, hsum⟩
        obtain ⟨hbreaks, hreads⟩ := ((h text).eq_ok v).mp hv
        obtain ⟨hfits, rfl⟩ := checked_eq_ok.mp hsum
        refine ⟨⟨hbreaks, ?_⟩, v, hreads, rfl⟩
        rintro ⟨w, hw, hout⟩
        have hsame := hv.symm.trans (((h text).eq_ok w).mpr ⟨hbreaks, hw⟩)
        cases hsame
        exact hout hfits
      · rintro ⟨⟨hbreaks, hfits⟩, v, hreads, rfl⟩
        exact ⟨v, ((h text).eq_ok v).mpr ⟨hbreaks, hreads⟩,
          checked_eq_ok.mpr ⟨not_not.mp fun hout => hfits ⟨v, hreads, hout⟩, rfl⟩⟩

variable {frac six text : List Char} {w f : ℤ}

theorem Yields.of_reads {x : Outcome String ℤ} {c : Component} (hpanic : x = panic ↔ c.Breaks width)
    (hok : ∀ v, x = ok v → c.Reads width v)
    (hreads : ∀ v, c.Reads width v → x ≠ panic → x = ok v) : Yields width x c := by
  refine ⟨hpanic, fun v => ⟨fun h => ⟨?_, hok v h⟩, fun ⟨hbreaks, hv⟩ => ?_⟩⟩
  · rw [← hpanic, h]
    simp
  · exact hreads v hv (hpanic.not.mpr hbreaks)

theorem yields_scaled (width : ℕ) (scale : ℤ) (message : String) (text : List Char) :
    Yields width (scaled width scale message text) (.amount scale text) := by
  have hread : ∀ n, Numerals.readSigned (2 ^ (width - 1) - 1) text = some n ↔
      SignedNumeral (2 ^ (width - 1) - 1) text n := fun n => Numerals.readSigned_eq_some
  refine .of_reads (by simp [scaled, bind_eq_panic, hread, Component.Breaks]) ?_ ?_
  · intro v h
    obtain ⟨n, hn, hv⟩ := bind_eq_ok.mp h
    exact ⟨n, (hread n).mp (orErr_eq_ok.mp hn), (checked_eq_ok.mp hv).2.symm⟩
  · rintro v ⟨n, hn, rfl⟩ hsafe
    rw [scaled, (hread n).mpr hn] at *
    exact checked_eq_ok.mpr ⟨not_not.mp (checked_eq_panic.not.mp hsafe), rfl⟩

theorem wholeSeconds_eq_ok {whole : List Char} :
    wholeSeconds text whole = ok w ↔ WholeSeconds whole w := by
  unfold wholeSeconds WholeSeconds
  by_cases h : whole = []
  · simp [h, eq_comm]
  · simp [h, parseI64, Numerals.readSigned_eq_some]

theorem wholeSeconds_ne_panic (text whole : List Char) : wholeSeconds text whole ≠ panic := by
  unfold wholeSeconds
  split <;> simp

theorem padFraction_eq_ok : padFraction frac = ok six ↔ SixPlaces frac six := by
  unfold padFraction SixPlaces
  by_cases h : 6 ≤ byteLen frac
  · rw [if_pos h, orPanic_eq_ok, Option.map_eq_some_iff]
    simp only [Prod.exists, exists_and_right, exists_eq_right, Utf8.splitAt_eq_some]
    rw [or_iff_left fun hshort => absurd hshort.1 (Nat.not_lt.mpr h)]
    simp [byteLen]
  · rw [if_neg h]
    constructor
    · rintro ⟨⟩
      exact .inr ⟨Nat.not_le.mp h, rfl⟩
    · rintro (⟨rest, rfl, hsix⟩ | ⟨-, rfl⟩)
      · rw [byteLen_append] at h
        omega
      · rfl

theorem padFraction_eq_panic :
    padFraction frac = panic ↔ 6 ≤ byteLen frac ∧ ¬ Utf8.Boundary frac 6 := by
  unfold padFraction
  split
  · next h =>
    rw [orPanic_eq_panic, Option.map_eq_none_iff, ← Utf8.exists_splitAt_iff,
      Option.eq_none_iff_forall_ne_some]
    simp [h]
  · next h => simp [h]

/-- The text in front of the first point. -/
theorem splitFirst_point {whole : List Char} (h : '.' ∉ whole) (frac : List Char) :
    Utf8.splitFirst (· == '.') (whole ++ '.' :: frac) = some (whole, '.', frac) :=
  Utf8.splitFirst_eq_some.mpr
    ⟨rfl, rfl, fun _ hd => beq_eq_false_iff_ne.mpr fun hdot => h (hdot ▸ hd)⟩

theorem parseSecondsToMicros_of_cut (h : FractionCut text) : parseSecondsToMicros text = panic := by
  obtain ⟨whole, frac, w, rfl, hpoint, hw, hcut⟩ := h
  rw [parseSecondsToMicros, splitFirst_point hpoint]
  dsimp only
  rw [wholeSeconds_eq_ok.mpr hw, ok_bind, padFraction_eq_panic.mpr hcut]
  rfl

theorem parseSecondsToMicros_of_text (h : SecondsText text w f) :
    parseSecondsToMicros text =
      checked 64 (w * 1000000) >>= fun micros => checked 64 (micros + f) := by
  rcases h with ⟨hpoint, hw, rfl⟩ | ⟨whole, frac, six, rfl, hpoint, hw, hsix, hf⟩
  · have hnone : Utf8.splitFirst (· == '.') text = none :=
      Utf8.splitFirst_eq_none.mpr fun d hd => beq_eq_false_iff_ne.mpr fun hdot => hpoint (hdot ▸ hd)
    rw [parseSecondsToMicros, hnone]
    dsimp only
    rw [parseI64, Numerals.readSigned_eq_some.mpr hw]
    by_cases hfits : Fits 64 (w * 1000000)
    · rw [checked_eq_ok.mpr ⟨hfits, rfl⟩, ok_bind, add_zero, checked_eq_ok.mpr ⟨hfits, rfl⟩]
      exact checked_eq_ok.mpr ⟨hfits, rfl⟩
    · rw [checked_eq_panic.mpr hfits]
      exact checked_eq_panic.mpr hfits
  · rw [parseSecondsToMicros, splitFirst_point hpoint]
    dsimp only
    rw [wholeSeconds_eq_ok.mpr hw, ok_bind, padFraction_eq_ok.mpr hsix, ok_bind, parseI64,
      Numerals.readSigned_eq_some.mpr hf]
    rfl

theorem text_of_parseSecondsToMicros (h : ∀ e, parseSecondsToMicros text ≠ err e) :
    FractionCut text ∨ ∃ w f, SecondsText text w f := by
  unfold parseSecondsToMicros at h
  split at h
  · next whole dot frac hcut =>
    obtain ⟨rfl, hdot, hnot⟩ := Utf8.splitFirst_eq_some.mp hcut
    obtain rfl : dot = '.' := by simpa using hdot
    have hpoint : '.' ∉ whole := fun hmem => by simpa using hnot _ hmem
    obtain ⟨w, hw, h⟩ := (bind_ne_err h).resolve_left (wholeSeconds_ne_panic _ _)
    have hw := wholeSeconds_eq_ok.mp hw
    rcases bind_ne_err h with hpanic | ⟨six, hsix, h⟩
    · exact .inl ⟨whole, frac, w, rfl, hpoint, hw, padFraction_eq_panic.mp hpanic⟩
    · obtain ⟨f, hf, -⟩ := (bind_ne_err h).resolve_left (orErr_ne_panic _ _)
      exact .inr ⟨w, f, .inr ⟨whole, frac, six, rfl, hpoint, hw, padFraction_eq_ok.mp hsix,
        Numerals.readSigned_eq_some.mp (orErr_eq_ok.mp hf)⟩⟩
  · next hcut =>
    obtain ⟨w, hw, -⟩ := (bind_ne_err h).resolve_left (orErr_ne_panic _ _)
    refine .inr ⟨w, 0, .inl ⟨fun hmem => ?_,
      Numerals.readSigned_eq_some.mp (orErr_eq_ok.mp hw), rfl⟩⟩
    simpa using Utf8.splitFirst_eq_none.mp hcut _ hmem

theorem checked_sum_eq_panic (w f : ℤ) :
    (checked 64 (w * 1000000) >>= fun micros => checked 64 (micros + f) : Outcome String ℤ) =
      Outcome.panic ↔ ¬ Fits 64 (w * 1000000) ∨ ¬ Fits 64 (w * 1000000 + f) := by
  rw [bind_eq_panic, checked_eq_panic]
  by_cases hfits : Fits 64 (w * 1000000) <;> simp [hfits]

theorem yields_seconds (type s : String) (text : List Char) :
    Yields 64 (secondsOf type s text) (.seconds text) := by
  refine .of_reads ?_ ?_ ?_
  · rw [secondsOf, mapErr_eq_panic]
    constructor
    · intro hpanic
      refine (text_of_parseSecondsToMicros (by simp [hpanic])).imp_right ?_
      rintro ⟨w, f, htext⟩
      rw [parseSecondsToMicros_of_text htext, checked_sum_eq_panic] at hpanic
      exact ⟨w, f, htext, hpanic⟩
    · rintro (hcut | ⟨w, f, htext, hout⟩)
      · exact parseSecondsToMicros_of_cut hcut
      · rw [parseSecondsToMicros_of_text htext, checked_sum_eq_panic]
        exact hout
  · intro v h
    have h := mapErr_eq_ok.mp h
    have hread : ∀ e, parseSecondsToMicros text ≠ err e := by simp [h]
    rcases text_of_parseSecondsToMicros hread with hcut | ⟨w, f, htext⟩
    · rw [parseSecondsToMicros_of_cut hcut] at h
      cases h
    · rw [parseSecondsToMicros_of_text htext, bind_eq_ok] at h
      obtain ⟨micros, hmicros, h⟩ := h
      obtain ⟨-, rfl⟩ := checked_eq_ok.mp hmicros
      exact ⟨w, f, htext, (checked_eq_ok.mp h).2.symm⟩
  · rintro v ⟨w, f, htext, rfl⟩ hsafe
    rw [secondsOf, Ne, mapErr_eq_panic, parseSecondsToMicros_of_text htext, checked_sum_eq_panic,
      not_or, not_not, not_not] at hsafe
    rw [secondsOf, mapErr_eq_ok, parseSecondsToMicros_of_text htext,
      checked_eq_ok.mpr ⟨hsafe.1, rfl⟩]
    exact checked_eq_ok.mpr ⟨hsafe.2, rfl⟩

/-! ### Days and times -/

structure TimeParts where
  hours : Option (List Char)
  minutes : Option (List Char)
  seconds : Option (List Char)
  rest : List Char

def timeParts (timePart : List Char) : TimeParts :=
  let (hours, remaining) := takeUnit 'H' timePart
  let (minutes, remaining) := takeUnit 'M' remaining
  let (seconds, remaining) := takeUnit 'S' remaining
  ⟨hours, minutes, seconds, remaining⟩

/-- The components of a time part, from left to right. -/
def timeComponents : Option (List Char) → List Component
  | none => []
  | some timePart =>
    ((timeParts timePart).hours.map (.amount 3600000000)).toList ++
      (((timeParts timePart).minutes.map (.amount 60000000)).toList ++
        ((timeParts timePart).seconds.map .seconds).toList)

/-- There is something behind the letter T and nothing behind the seconds. -/
def TimeComplete (timePart : Option (List Char)) : Prop :=
  ∀ text ∈ timePart, text ≠ [] ∧ (timeParts text).rest = []

theorem timeParts_text (timePart : List Char) :
    timePart = field (timeParts timePart).hours 'H' ++ (field (timeParts timePart).minutes 'M' ++
      (field (timeParts timePart).seconds 'S' ++ (timeParts timePart).rest)) := by
  rw [show timeParts timePart = ⟨(takeUnit 'H' timePart).1,
    (takeUnit 'M' (takeUnit 'H' timePart).2).1,
    (takeUnit 'S' (takeUnit 'M' (takeUnit 'H' timePart).2).2).1,
    (takeUnit 'S' (takeUnit 'M' (takeUnit 'H' timePart).2).2).2⟩ from rfl]
  rw [← takeUnit_eq, ← takeUnit_eq, ← takeUnit_eq]

theorem adds_timeComponents (type s : String) (timePart : List Char) :
    Adds 64 (fun total =>
        addUnit 64 (scaled 64 3600000000 s!"Invalid hour component in {type}: {s}") total
            (timeParts timePart).hours >>= fun total =>
          addUnit 64 (scaled 64 60000000 s!"Invalid minute component in {type}: {s}") total
            (timeParts timePart).minutes >>= fun total =>
          addUnit 64 (secondsOf type s) total (timeParts timePart).seconds)
      (timeComponents (some timePart)) :=
  (Adds.addUnit (yields_scaled 64 _ _) _).bind
    ((Adds.addUnit (yields_scaled 64 _ _) _).bind (Adds.addUnit (yields_seconds type s) _))

variable {type s : String} {timePart : Option (List Char)}

theorem addTimePart_eq {timePart : List Char} (h : timePart ≠ []) :
    addTimePart type s total (some timePart) =
      (addUnit 64 (scaled 64 3600000000 s!"Invalid hour component in {type}: {s}") total
            (timeParts timePart).hours >>= fun total =>
          addUnit 64 (scaled 64 60000000 s!"Invalid minute component in {type}: {s}") total
            (timeParts timePart).minutes >>= fun total =>
          addUnit 64 (secondsOf type s) total (timeParts timePart).seconds) >>= fun sum =>
        if (timeParts timePart).rest ≠ [] then
          err s!"Unexpected trailing content in {type} time part: {s}"
        else ok (sum, (timeParts timePart).hours.isSome || (timeParts timePart).minutes.isSome ||
          (timeParts timePart).seconds.isSome) := by
  rw [addTimePart, if_neg h]
  simp only [bind_assoc]
  rfl

theorem addTimePart_eq_panic :
    addTimePart type s total timePart = panic ↔ Overruns 64 total (timeComponents timePart) := by
  cases timePart with
  | none => simp [addTimePart, timeComponents, Overruns]
  | some text =>
    by_cases h : text = []
    · subst h
      exact iff_of_false (by simp [addTimePart]) (show ¬ Overruns 64 total [] from not_false)
    · rw [addTimePart_eq h, bind_eq_panic_of_safe, (adds_timeComponents type s text).eq_panic]
      intro sum
      split <;> simp

/-- A time part that is complete has a component. -/
theorem isSome_of_complete {text : List Char} (hne : text ≠ []) (hrest : (timeParts text).rest = []) :
    ((timeParts text).hours.isSome || (timeParts text).minutes.isSome ||
      (timeParts text).seconds.isSome) = true := by
  have htext := timeParts_text text
  rw [hrest] at htext
  by_contra hnone
  rw [Bool.not_eq_true, Bool.or_eq_false_iff, Bool.or_eq_false_iff] at hnone
  simp only [Option.isSome_eq_false_iff, Option.isNone_iff_eq_none] at hnone
  rw [hnone.1.1, hnone.1.2, hnone.2] at htext
  exact hne htext

theorem addTimePart_eq_ok {found : Bool} :
    addTimePart type s total timePart = ok (sum, found) ↔
      ¬ Overruns 64 total (timeComponents timePart) ∧
        Sums 64 total (timeComponents timePart) sum ∧ TimeComplete timePart ∧
        found = timePart.isSome := by
  cases timePart with
  | none =>
    constructor
    · rintro ⟨⟩
      exact ⟨not_false, rfl, by simp [TimeComplete], rfl⟩
    · rintro ⟨-, rfl, -, rfl⟩
      rfl
  | some text =>
    by_cases hne : text = []
    · subst hne
      exact iff_of_false (by simp [addTimePart]) fun h => absurd rfl (h.2.2.1 [] rfl).1
    · rw [addTimePart_eq hne, bind_eq_ok]
      constructor
      · rintro ⟨sum', hsum, h⟩
        split at h
        · cases h
        next hrest =>
          cases h
          obtain ⟨hover, hsums⟩ := ((adds_timeComponents type s text).eq_ok _ _).mp hsum
          have hrest := not_not.mp hrest
          refine ⟨hover, hsums, ?_, isSome_of_complete hne hrest⟩
          rintro _ ⟨⟩
          exact ⟨hne, hrest⟩
      · rintro ⟨hover, hsums, hcomplete, rfl⟩
        have hrest := (hcomplete text rfl).2
        refine ⟨sum, ((adds_timeComponents type s text).eq_ok _ _).mpr ⟨hover, hsums⟩, ?_⟩
        rw [if_neg (not_not.mpr hrest), isSome_of_complete hne hrest]
        rfl

/-- The components of the days and the time part. What is behind the days that is no time part
ends the sum. -/
def dayTimeComponents (text : List Char) (timePart : Option (List Char)) : List Component :=
  ((takeUnit 'D' text).1.map (.amount 86400000000)).toList ++
    if (takeUnit 'D' text).2 = [] then timeComponents timePart else []

/-- Days, nothing behind them, and the time part. -/
def addDayTime {α : Type} (type s e : String) (text : List Char) (timePart : Option (List Char))
    (next : ℤ × Bool → Outcome String α) : Outcome String α :=
  addUnit 64 (scaled 64 86400000000 s!"Invalid day component in {type}: {s}") 0
      (takeUnit 'D' text).1 >>= fun total =>
    if (takeUnit 'D' text).2 ≠ [] then err e else addTimePart type s total timePart >>= next

section

variable {α : Type} {e : String} {next : ℤ × Bool → Outcome String α}

theorem adds_days (type s : String) (text : List Char) :
    Adds 64 (fun total => addUnit 64
        (scaled 64 86400000000 s!"Invalid day component in {type}: {s}") total (takeUnit 'D' text).1)
      ((takeUnit 'D' text).1.map (.amount 86400000000)).toList :=
  Adds.addUnit (yields_scaled 64 _ _) _

theorem addDayTime_eq_panic (hnext : ∀ x, next x ≠ panic) :
    addDayTime type s e text timePart next = panic ↔
      Overruns 64 0 (dayTimeComponents text timePart) := by
  have hdays := adds_days type s text
  rw [dayTimeComponents, addDayTime, bind_eq_panic, ← hdays.panic_append]
  refine or_congr_right (exists_congr fun total => and_congr_right fun _ => ?_)
  by_cases hrest : (takeUnit 'D' text).2 = []
  · rw [if_neg (not_not.mpr hrest), if_pos hrest, bind_eq_panic_of_safe hnext,
      addTimePart_eq_panic]
  · rw [if_pos hrest, if_neg hrest]
    simp [Overruns]

theorem addDayTime_eq_ok {y : α} :
    addDayTime type s e text timePart next = ok y ↔
      ∃ sum, ¬ Overruns 64 0 (dayTimeComponents text timePart) ∧
        Sums 64 0 (dayTimeComponents text timePart) sum ∧ (takeUnit 'D' text).2 = [] ∧
        TimeComplete timePart ∧ next (sum, timePart.isSome) = ok y := by
  have hdays := adds_days type s text
  rw [addDayTime, bind_eq_ok]
  by_cases hrest : (takeUnit 'D' text).2 = []
  · simp only [dayTimeComponents, if_neg (not_not.mpr hrest), if_pos hrest]
    constructor
    · rintro ⟨total, htotal, h⟩
      obtain ⟨⟨sum, found⟩, htime, hy⟩ := bind_eq_ok.mp h
      obtain ⟨hover, hsums, hcomplete, rfl⟩ := addTimePart_eq_ok.mp htime
      obtain ⟨hover, hsums⟩ := hdays.ok_append.mp ⟨total, htotal, hover, hsums⟩
      exact ⟨sum, hover, hsums, hrest, hcomplete, hy⟩
    · rintro ⟨sum, hover, hsums, -, hcomplete, hy⟩
      obtain ⟨total, htotal, hover, hsums⟩ := hdays.ok_append.mpr ⟨hover, hsums⟩
      exact ⟨total, htotal, bind_eq_ok.mpr
        ⟨(sum, timePart.isSome), addTimePart_eq_ok.mpr ⟨hover, hsums, hcomplete, rfl⟩, hy⟩⟩
  · simp [hrest]

end

end FlureeDb.Core
