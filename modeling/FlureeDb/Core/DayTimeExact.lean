import FlureeDb.Core.DurationSums

/-!
The parsers of durations with a time of day. They panic when a component or the sum so far leaves
its type, when the fraction of a second is cut inside a character, and when the sum cannot be
negated. What they accept is exact if it has no sign but the one in front and digits on both
sides of its point.
-/

namespace FlureeDb.Core

open Lib List Outcome DayTimeDuration
open Lib.Numerals (Numeral SignedNumeral value)
open Xsd (signText signed field fieldValue Unsigned DecimalPoints)

variable {width : ℕ} {total sum v w f : ℤ} {frac six text : List Char} {s : String}
variable {timePart : Option (List Char)}

/-! ### Exact components -/

theorem scaled_plain {scale : ℤ} {digits : Option (List Char)} {unit : Char}
    (h : Sums width total (digits.map (.amount scale)).toList sum)
    (hplain : Plain (field digits unit)) :
    (∀ ds ∈ digits, Numeral ds) ∧ sum = total + fieldValue digits * scale := by
  cases digits with
  | none => exact ⟨by simp, h.trans (by simp [fieldValue])⟩
  | some text =>
    obtain ⟨v, ⟨n, hn, rfl⟩, rfl⟩ := h
    obtain ⟨hnum, rfl⟩ := Numerals.SignedNumeral.of_plain hn hplain.of_field.1 hplain.of_field.2
    exact ⟨by rintro ds ⟨⟩; exact hnum, rfl⟩

/-- Six digits of a fraction are its microseconds. -/
theorem SixPlaces.value_eq (h : SixPlaces frac six) (hfrac : Numeral frac) :
    (∀ c ∈ six, c.isDigit) ∧ value six = value frac * 10 ^ 6 / 10 ^ frac.length := by
  rcases h with ⟨rest, rfl, hsix⟩ | ⟨hshort, rfl⟩
  · have hdigits : ∀ c ∈ six, c.isDigit := fun c hc => hfrac.2 c (mem_append_left _ hc)
    have hrest : value rest < 10 ^ rest.length :=
      Numerals.value_lt fun c hc => hfrac.2 c (mem_append_right _ hc)
    rw [byteLen_of_ascii (ascii_of_digits hdigits)] at hsix
    refine ⟨hdigits, ?_⟩
    rw [length_append, hsix, pow_add, mul_comm (10 ^ 6), Nat.mul_div_mul_right _ _ (by decide),
      Numerals.value_append, Nat.mul_comm, Nat.mul_add_div (Nat.pow_pos (by decide)),
      Nat.div_eq_of_lt hrest, add_zero]
  · have hlen := byteLen_of_ascii (ascii_of_digits hfrac.2)
    refine ⟨?_, ?_⟩
    · intro c hc
      rcases mem_append.mp hc with hc | hc
      · exact hfrac.2 c hc
      · rw [eq_of_mem_replicate hc]
        decide
    · have hpow : 10 ^ 6 = 10 ^ (6 - frac.length) * 10 ^ frac.length := by
        rw [← pow_add]
        congr 1
        omega
      rw [Numerals.value_append, Numerals.value_replicate_zero, length_replicate, hpow,
        ← mul_assoc, Nat.mul_div_cancel _ (Nat.pow_pos (by decide)), add_zero]

/-- Seconds without signs and with digits around the point. -/
theorem seconds_plain (h : SecondsText text w f) (hplain : Plain text)
    (hpoint : ∀ whole frac, text = whole ++ '.' :: frac → whole ≠ [] ∧ Numeral frac) :
    ∃ sec : Xsd.Seconds, sec.Valid ∧ sec.text = text ∧ w * 1000000 + f = sec.micros := by
  rcases h with ⟨-, hw, rfl⟩ | ⟨whole, frac, six, rfl, -, hw, hsix, hf⟩
  · obtain ⟨hnum, rfl⟩ := Numerals.SignedNumeral.of_plain hw hplain.1 hplain.2
    exact ⟨⟨text, none⟩, ⟨hnum, by simp⟩, rfl, by simp [Xsd.Seconds.micros]⟩
  · obtain ⟨hwhole, hfrac⟩ := hpoint whole frac rfl
    have hplain := (plain_append.mp hplain).1
    have hw := (hw.resolve_left fun hempty => hwhole hempty.1).2
    obtain ⟨hnum, rfl⟩ := Numerals.SignedNumeral.of_plain hw hplain.1 hplain.2
    obtain ⟨hdigits, hvalue⟩ := hsix.value_eq hfrac
    obtain ⟨-, rfl⟩ := Numerals.SignedNumeral.of_plain hf
      (fun hmem => absurd (hdigits _ hmem) (by decide))
      (fun hmem => absurd (hdigits _ hmem) (by decide))
    refine ⟨⟨whole, some frac⟩, ⟨hnum, by rintro _ ⟨⟩; exact hfrac⟩, rfl, ?_⟩
    rw [hvalue]
    simp [Xsd.Seconds.micros]

theorem exists_letter (hours minutes : Option (List Char)) :
    ∃ front c, 'T' :: (field hours 'H' ++ field minutes 'M') = front ++ [c] ∧
      c.isDigit = false := by
  cases minutes with
  | some ds => exact ⟨'T' :: (field hours 'H' ++ ds), 'M', by simp, by decide⟩
  | none =>
    cases hours with
    | some ds => exact ⟨'T' :: ds, 'H', by simp, by decide⟩
    | none => exact ⟨[], 'T', rfl, by decide⟩

/-- The point between the seconds and their fraction. -/
theorem point_of_decimalPoints {front whole : List Char} {hours minutes : Option (List Char)}
    (hpoints : DecimalPoints (front ++ 'T' :: (field hours 'H' ++ (field minutes 'M' ++
      (text ++ ['S']))))) (hunit : 'S' ∉ text) (htext : text = whole ++ '.' :: frac) :
    whole ≠ [] ∧ Numeral frac := by
  subst htext
  obtain ⟨⟨a, d, ha, hd⟩, frac', b, hb, hfrac⟩ :=
    hpoints (front ++ 'T' :: (field hours 'H' ++ (field minutes 'M' ++ whole))) (frac ++ ['S'])
      (by simp)
  constructor
  · rintro rfl
    obtain ⟨pre, c, hpre, hc⟩ := exists_letter hours minutes
    rw [append_nil, hpre, ← append_assoc] at ha
    have hlast := (append_inj' ha rfl).2
    cases hlast
    exact absurd hd (by simp [hc])
  · rw [mem_append, mem_cons, not_or, not_or] at hunit
    obtain ⟨rfl, -⟩ := (append_cons_inj_of_notMem hunit.2.2 not_mem_nil).mp hb
    exact hfrac

/-- A time part without signs and with digits around its point. -/
theorem time_plain {front timePart : List Char}
    (h : Sums 64 total (timeComponents (some timePart)) sum)
    (hcomplete : TimeComplete (some timePart)) (hplain : Plain timePart)
    (hpoints : DecimalPoints (front ++ 'T' :: timePart)) :
    ∃ t : Xsd.TimeFields, t.Valid ∧ t.text = timePart ∧ sum = total + t.micros := by
  obtain ⟨hne, hrest⟩ := hcomplete timePart rfl
  have htext := timeParts_text timePart
  have hsecondsUnit : ∀ t ∈ (timeParts timePart).seconds, 'S' ∉ t :=
    (takeUnit_iff.mp (show takeUnit 'S' _ = (_, (timeParts timePart).rest) from rfl)).2.1
  rw [timeComponents] at h
  generalize timeParts timePart = parts at *
  obtain ⟨hours, minutes, seconds, rest⟩ := parts
  obtain rfl : rest = [] := hrest
  rw [append_nil] at htext
  subst htext
  rw [plain_append, plain_append] at hplain
  obtain ⟨total₁, hhours, h⟩ := sums_append.mp h
  obtain ⟨total₂, hminutes, h⟩ := sums_append.mp h
  obtain ⟨hhoursNum, rfl⟩ := scaled_plain hhours hplain.1
  obtain ⟨hminutesNum, rfl⟩ := scaled_plain hminutes hplain.2.1
  cases seconds with
  | none =>
    obtain rfl := h
    refine ⟨⟨hours, minutes, none⟩, ⟨?_, hhoursNum, hminutesNum, by simp⟩, rfl, ?_⟩
    · -- something was read
      cases hours with
      | some ds => exact .inl rfl
      | none =>
        cases minutes with
        | some ds => exact .inr (.inl rfl)
        | none => exact absurd rfl hne
    · simp [Xsd.TimeFields.micros, add_assoc]
  | some text =>
    obtain ⟨v, ⟨w, f, hseconds, rfl⟩, rfl⟩ := h
    obtain ⟨sec, hvalid, rfl, hmicros⟩ := seconds_plain hseconds hplain.2.2.of_field
      (fun whole frac htext =>
        point_of_decimalPoints hpoints (hsecondsUnit text rfl) htext)
    refine ⟨⟨hours, minutes, some sec⟩, ⟨.inr (.inr rfl), hhoursNum, hminutesNum, ?_⟩, rfl, ?_⟩
    · rintro _ ⟨⟩
      exact hvalid
    · rw [hmicros]
      simp [Xsd.TimeFields.micros, add_assoc]

/-! ### Points of a literal -/

theorem Numeral.point_not_mem {ds : List Char} (h : Numeral ds) : '.' ∉ ds :=
  fun hmem => absurd (h.2 _ hmem) (by decide)

theorem point_not_mem_field {digits : Option (List Char)} (unit : Char)
    (h : ∀ ds ∈ digits, Numeral ds) (hunit : unit ≠ '.') : '.' ∉ field digits unit := by
  cases digits with
  | none => simp
  | some ds => simp [Numeral.point_not_mem (h ds rfl), hunit.symm]

/-- One point, with a digit in front and digits behind it. -/
theorem decimalPoints_of_split {whole : List Char} (front : List Char) (hfront : '.' ∉ front)
    (hwhole : Numeral whole) (hfrac : Numeral frac) :
    DecimalPoints (front ++ (whole ++ '.' :: (frac ++ ['S']))) := by
  intro a b hab
  have hsplit : (front ++ whole) ++ '.' :: (frac ++ ['S']) = a ++ '.' :: b := by
    rw [← hab, append_assoc]
  obtain ⟨rfl, -, rfl⟩ := (append_cons_inj_of_notMem
    (by simp [hfront, Numeral.point_not_mem hwhole])
    (by simp [Numeral.point_not_mem hfrac])).mp hsplit
  refine ⟨⟨front ++ whole.dropLast, whole.getLast hwhole.1, ?_,
    hwhole.2 _ (getLast_mem hwhole.1)⟩, frac, [], rfl, hfrac⟩
  rw [append_assoc, dropLast_append_getLast]

variable {negative : Bool}

theorem Xsd.IsLiteral.decimalPoints {s : List Char} {f : Xsd.Fields}
    (h : Xsd.IsLiteral s negative f) : DecimalPoints s := by
  obtain ⟨⟨-, hyears, hmonths, hdays, htime⟩, rfl⟩ := h
  have hsign : '.' ∉ signText negative := fun hmem => absurd (signText_chars hmem) (by decide)
  have hy := point_not_mem_field 'Y' hyears (by decide)
  have hm := point_not_mem_field 'M' hmonths (by decide)
  have hd := point_not_mem_field 'D' hdays (by decide)
  have hvacuous : ∀ t : List Char, '.' ∉ t → DecimalPoints t :=
    fun t ht a b hab => absurd (hab ▸ by simp) ht
  unfold Fields.text
  cases ht : f.time with
  | none => exact hvacuous _ (by simp [hsign, hy, hm, hd])
  | some t =>
    obtain ⟨-, hhours, hminutes, hseconds⟩ := htime t ht
    have hh := point_not_mem_field 'H' hhours (by decide)
    have hmin := point_not_mem_field 'M' hminutes (by decide)
    dsimp only
    unfold TimeFields.text
    cases hs : t.seconds with
    | none => exact hvacuous _ (by simp [hsign, hy, hm, hd, hh, hmin])
    | some sec =>
      obtain ⟨whole, fraction⟩ := sec
      obtain ⟨hwhole, hfrac⟩ := hseconds _ hs
      cases fraction with
      | none =>
        have hw := Numeral.point_not_mem hwhole
        exact hvacuous _
          (by simp [hsign, hy, hm, hd, hh, hmin, Seconds.text, hw])
      | some frac =>
        have hsplit := decimalPoints_of_split (signText negative ++ 'P' ::
          (field f.years 'Y' ++ (field f.months 'M' ++ (field f.days 'D' ++
            'T' :: (field t.hours 'H' ++ field t.minutes 'M')))))
          (by simp [hsign, hy, hm, hd, hh, hmin]) hwhole (hfrac frac rfl)
        simpa [Seconds.text] using hsplit

/-! ### Days and shorter units -/

def timeSuffix : Option (List Char) → List Char
  | some timePart => 'T' :: timePart
  | none => []

variable {body datePart : List Char}

theorem splitTime_iff :
    splitTime body = (datePart, timePart) ↔
      body = datePart ++ timeSuffix timePart ∧ 'T' ∉ datePart := by
  unfold splitTime
  cases hcut : Utf8.splitFirst (· == 'T') body with
  | none =>
    have hnot : 'T' ∉ body := fun hmem => by simpa using Utf8.splitFirst_eq_none.mp hcut _ hmem
    constructor
    · rintro ⟨⟩
      exact ⟨(append_nil body).symm, hnot⟩
    · rintro ⟨rfl, -⟩
      cases timePart with
      | none => simp [timeSuffix]
      | some timePart => exact absurd (by simp [timeSuffix]) hnot
  | some cut =>
    obtain ⟨front, c, back⟩ := cut
    obtain ⟨rfl, hc, hfront⟩ := Utf8.splitFirst_eq_some.mp hcut
    obtain rfl : c = 'T' := by simpa using hc
    constructor
    · rintro ⟨⟩
      exact ⟨rfl, fun hmem => by simpa using hfront _ hmem⟩
    · rintro ⟨hbody, hnot⟩
      cases timePart with
      | none =>
        rw [timeSuffix, append_nil] at hbody
        exact absurd (hbody ▸ by simp) hnot
      | some timePart =>
        have hsplit : Utf8.splitFirst (· == 'T') (front ++ 'T' :: back) =
            some (datePart, 'T', timePart) :=
          Utf8.splitFirst_eq_some.mpr ⟨hbody, rfl, fun _ hd =>
            beq_eq_false_iff_ne.mpr fun ht => hnot (ht ▸ hd)⟩
        rw [hcut] at hsplit
        cases hsplit
        rfl

/-- A sign, the letter P, and the parts before and behind the first letter T. -/
def DurationParts (s : List Char) (negative : Bool) (datePart : List Char)
    (timePart : Option (List Char)) : Prop :=
  s = signText negative ++ 'P' :: (datePart ++ timeSuffix timePart) ∧ 'T' ∉ datePart

theorem negateIf_spec (negative : Bool) (h : Fits width v) :
    (negative ∧ v = -2 ^ (width - 1) → negateIf width negative v = panic) ∧
      (¬ (negative ∧ v = -2 ^ (width - 1)) →
        negateIf width negative v = ok (signed negative v)) := by
  have hneg : ¬ Fits width (-v) ↔ v = -2 ^ (width - 1) := by
    unfold Fits at *
    omega
  cases negative with
  | false => simp [negateIf, signed]
  | true => simp [negateIf, signed, ← hneg]

/-- Days are checked in a different order, which shows in the messages only. -/
theorem DayTimeDuration.total_eq (s : String) (datePart : List Char)
    (timePart : Option (List Char)) :
    ∃ e, DayTimeDuration.total s datePart timePart =
      addDayTime "dayTimeDuration" s e datePart timePart fun x =>
        if !((takeUnit 'D' datePart).1.isSome || x.2) then
          err s!"dayTimeDuration must have at least one of D, H, M, or S: {s}"
        else ok x.1 := by
  unfold total daysOf addDayTime
  by_cases hempty : datePart = []
  · subst hempty
    exact ⟨"", rfl⟩
  · rw [if_neg hempty]
    rcases hdays : takeUnit 'D' datePart with ⟨days, rest⟩
    cases days with
    | none =>
      have hrest : rest ≠ [] := by
        obtain ⟨htext, -⟩ := takeUnit_iff.mp hdays
        rintro rfl
        exact hempty htext
      refine ⟨s!"Expected 'D' in date part of dayTimeDuration: {s}", ?_⟩
      simp [addUnit, hrest]
    | some text =>
      refine ⟨s!"Unexpected content after D in dayTimeDuration: {s}", ?_⟩
      rw [bind_assoc]
      refine bind_congr fun total => ?_
      split <;> rfl

/-- The parts of a duration without years and months. -/
def DayTimeDuration.Parts (s : List Char) (negative : Bool) (datePart : List Char)
    (timePart : Option (List Char)) : Prop :=
  DurationParts s negative datePart timePart ∧ 'Y' ∉ datePart ++ timeSuffix timePart ∧
    'M' ∉ datePart

/-- There is a component, and nothing besides the components. -/
def DayTimeDuration.Complete (datePart : List Char) (timePart : Option (List Char)) : Prop :=
  (takeUnit 'D' datePart).2 = [] ∧ TimeComplete timePart ∧
    ((takeUnit 'D' datePart).1.isSome ∨ timePart.isSome)

theorem DayTimeDuration.total_eq_panic :
    DayTimeDuration.total s datePart timePart = panic ↔
      Overruns 64 0 (dayTimeComponents datePart timePart) := by
  obtain ⟨e, heq⟩ := total_eq s datePart timePart
  rw [heq, addDayTime_eq_panic]
  intro x
  split <;> simp

theorem DayTimeDuration.total_eq_ok :
    DayTimeDuration.total s datePart timePart = ok sum ↔
      ¬ Overruns 64 0 (dayTimeComponents datePart timePart) ∧
        Sums 64 0 (dayTimeComponents datePart timePart) sum ∧
        DayTimeDuration.Complete datePart timePart := by
  obtain ⟨e, heq⟩ := total_eq s datePart timePart
  rw [heq, addDayTime_eq_ok]
  constructor
  · rintro ⟨sum', hover, hsums, hrest, hcomplete, h⟩
    split at h
    · cases h
    next hany =>
      cases h
      rw [Bool.not_eq_true, Bool.not_eq_false', Bool.or_eq_true] at hany
      exact ⟨hover, hsums, hrest, hcomplete, hany⟩
  · rintro ⟨hover, hsums, hrest, hcomplete, hany⟩
    rw [← Bool.or_eq_true] at hany
    exact ⟨sum, hover, hsums, hrest, hcomplete, by simp [hany]⟩

theorem DayTimeDuration.parse_of_parts {s : String}
    (h : DayTimeDuration.Parts s.toList negative datePart timePart) :
    DayTimeDuration.parse s = DayTimeDuration.total s datePart timePart >>= fun sum =>
      negateIf 64 negative sum >>= fun micros => ok ⟨⟨micros⟩, s⟩ := by
  obtain ⟨⟨htext, htime⟩, hyear, hmonth⟩ := h
  rw [parse, durationBody_eq_ok.mpr htext, ok_bind]
  dsimp only
  rw [if_neg hyear, splitTime_iff.mpr ⟨rfl, htime⟩]
  dsimp only
  rw [if_neg hmonth]

theorem DayTimeDuration.parts_of_parse {s : String} (h : ∀ e, DayTimeDuration.parse s ≠ err e) :
    ∃ negative datePart timePart,
      DayTimeDuration.Parts s.toList negative datePart timePart := by
  obtain ⟨⟨negative, body⟩, hbody, h⟩ := (bind_ne_err h).resolve_left (durationBody_ne_panic _ _)
  rcases hsplit : splitTime body with ⟨datePart, timePart⟩
  obtain ⟨rfl, htime⟩ := splitTime_iff.mp hsplit
  dsimp only at h
  split at h
  · exact absurd rfl (h _)
  next hyear =>
    rw [hsplit] at h
    dsimp only at h
    split at h
    · exact absurd rfl (h _)
    next hmonth =>
      exact ⟨negative, datePart, timePart, ⟨durationBody_eq_ok.mp hbody, htime⟩, hyear, hmonth⟩

/-- Days and a time part, without signs and with digits around the point, behind the fields of
years and months. -/
theorem dayTime_plain (years months : Option (List Char))
    (h : Sums 64 0 (dayTimeComponents text timePart) sum)
    (hrest : (takeUnit 'D' text).2 = []) (hcomplete : TimeComplete timePart)
    (htext : s.toList = signText negative ++ 'P' :: (field years 'Y' ++ (field months 'M' ++
      (text ++ timeSuffix timePart)))) (hunsigned : Unsigned s.toList)
    (hpoints : DecimalPoints s.toList) (hyears : ∀ ds ∈ years, Numeral ds)
    (hmonths : ∀ ds ∈ months, Numeral ds)
    (hsome : years.isSome ∨ months.isSome ∨ (takeUnit 'D' text).1.isSome ∨ timePart.isSome) :
    ∃ days time, Xsd.IsLiteral s.toList negative ⟨years, months, days, time⟩ ∧
      sum = (⟨years, months, days, time⟩ : Xsd.Fields).totalMicros := by
  rw [dayTimeComponents, if_pos hrest] at h
  obtain ⟨total, hdays, h⟩ := sums_append.mp h
  have hfield : text = field (takeUnit 'D' text).1 'D' := by
    have := takeUnit_eq 'D' text
    rwa [hrest, append_nil] at this
  generalize (takeUnit 'D' text).1 = days at *
  subst hfield
  rw [htext, unsigned_iff, plain_append, plain_append, plain_append] at hunsigned
  obtain ⟨-, -, hplainD, hplain⟩ := hunsigned
  obtain ⟨hnum, rfl⟩ := scaled_plain hdays hplainD
  cases timePart with
  | none =>
    obtain rfl := h
    refine ⟨days, none, ⟨⟨?_, hyears, hmonths, hnum, by simp⟩, htext⟩, ?_⟩
    · exact hsome
    · simp [Xsd.Fields.totalMicros]
  | some timePart =>
    have hpoints : DecimalPoints ((signText negative ++ 'P' :: (field years 'Y' ++
        (field months 'M' ++ field days 'D'))) ++ 'T' :: timePart) := by
      simpa [htext, timeSuffix] using hpoints
    obtain ⟨t, hvalid, rfl, rfl⟩ := time_plain h hcomplete
      (plain_append.mp (show Plain (['T'] ++ timePart) from hplain)).2 hpoints
    refine ⟨days, some t, ⟨⟨?_, hyears, hmonths, hnum, ?_⟩, htext⟩, ?_⟩
    · exact .inr (.inr (.inr rfl))
    · rintro _ ⟨⟩
      exact hvalid
    · simp [Xsd.Fields.totalMicros]

/-- No sum so far is out of range, and a complete text has a sum that can be negated, no sign
inside and digits around its point. -/
def DayTimeDuration.Regular (s : List Char) : Prop :=
  ∀ negative datePart timePart, DayTimeDuration.Parts s negative datePart timePart →
    ¬ Overruns 64 0 (dayTimeComponents datePart timePart) ∧
      (DayTimeDuration.Complete datePart timePart → ∀ sum,
        Sums 64 0 (dayTimeComponents datePart timePart) sum →
          ¬ (negative ∧ sum = -2 ^ 63) ∧ Unsigned s ∧ DecimalPoints s)

/-- A duration of days and shorter units is read exactly if and only if its text is regular. -/
theorem DayTimeDuration.exact_iff (s : String) :
    Exact (parse s) (fun v => Xsd.DenotesDayTimeDuration s.toList v.micros) ↔
      DayTimeDuration.Regular s.toList := by
  constructor
  · rintro ⟨hsafe, hexact⟩ negative datePart timePart hparts
    have hparse := parse_of_parts hparts
    have hover : ¬ Overruns 64 0 (dayTimeComponents datePart timePart) := fun hover => by
      rw [total_eq_panic.mpr hover] at hparse
      exact hsafe hparse
    refine ⟨hover, fun hcomplete sum hsums => ?_⟩
    rw [total_eq_ok.mpr ⟨hover, hsums, hcomplete⟩, ok_bind] at hparse
    obtain ⟨hpanic, hok⟩ := negateIf_spec negative (fits_of_sums (by decide) hover hsums)
    have hmin : ¬ (negative ∧ sum = -2 ^ 63) := fun hmin => by
      rw [hpanic hmin] at hparse
      exact hsafe hparse
    rw [hok hmin] at hparse
    obtain ⟨_, _, hliteral, -⟩ := hexact _ hparse
    exact ⟨hmin, hliteral.unsigned, hliteral.decimalPoints⟩
  · intro hall
    refine .of_read fun hno => ?_
    obtain ⟨negative, datePart, timePart, hparts⟩ := parts_of_parse hno
    obtain ⟨hover, hall⟩ := hall negative datePart timePart hparts
    have hparse := parse_of_parts hparts
    rw [hparse] at hno
    obtain ⟨sum, hsum, -⟩ := (bind_ne_err hno).resolve_left (total_eq_panic.not.mpr hover)
    obtain ⟨-, hsums, hcomplete⟩ := total_eq_ok.mp hsum
    obtain ⟨hmin, hunsigned, hpoints⟩ := hall hcomplete sum hsums
    rw [hsum, ok_bind, (negateIf_spec _ (fits_of_sums (by decide) hover hsums)).2 hmin] at hparse
    obtain ⟨days, time, hliteral, rfl⟩ := dayTime_plain none none hsums hcomplete.1 hcomplete.2.1
      hparts.1.1 hunsigned hpoints (by simp) (by simp) (.inr (.inr hcomplete.2.2))
    exact ⟨_, hparse, negative, _, hliteral, rfl, rfl, rfl⟩

/-! ### Durations with everything -/

/-- The components of the years and months. -/
def monthComponents (datePart : List Char) : List Component :=
  ((takeUnit 'Y' datePart).1.map (.amount 12)).toList ++
    ((takeUnit 'M' (takeUnit 'Y' datePart).2).1.map (.amount 1)).toList

def daysText (datePart : List Char) : List Char := (takeUnit 'M' (takeUnit 'Y' datePart).2).2

/-- There is a component, and nothing besides the components. -/
def Duration.Complete (datePart : List Char) (timePart : Option (List Char)) : Prop :=
  (takeUnit 'D' (daysText datePart)).2 = [] ∧ TimeComplete timePart ∧
    ((takeUnit 'Y' datePart).1.isSome ∨ (takeUnit 'M' (takeUnit 'Y' datePart).2).1.isSome ∨
      (takeUnit 'D' (daysText datePart)).1.isSome ∨ timePart.isSome)

/-- The years and months, and then the rest. -/
theorem Duration.total_eq (s : String) (datePart : List Char) (timePart : Option (List Char)) :
    ∃ f, Adds 32 f (monthComponents datePart) ∧
      Duration.total s datePart timePart = f 0 >>= fun months =>
        addDayTime "duration" s s!"Unexpected content in date part of duration: {s}"
          (daysText datePart) timePart fun x =>
            if !((takeUnit 'Y' datePart).1.isSome ||
                (takeUnit 'M' (takeUnit 'Y' datePart).2).1.isSome ||
                (takeUnit 'D' (daysText datePart)).1.isSome || x.2) then
              err s!"Duration must have at least one component (Y, M, D, H, M, S): {s}"
            else ok (months, x.1) := by
  refine ⟨_, (Adds.addUnit (yields_scaled 32 12 s!"Invalid year component in duration: {s}")
    (takeUnit 'Y' datePart).1).bind (Adds.addUnit
      (yields_scaled 32 1 s!"Invalid month component in duration: {s}")
      (takeUnit 'M' (takeUnit 'Y' datePart).2).1), ?_⟩
  unfold total
  simp only [bind_assoc]
  rfl

theorem Duration.total_eq_panic :
    Duration.total s datePart timePart = panic ↔
      Overruns 32 0 (monthComponents datePart) ∨ (∃ months,
        Sums 32 0 (monthComponents datePart) months) ∧
          Overruns 64 0 (dayTimeComponents (daysText datePart) timePart) := by
  obtain ⟨f, hf, heq⟩ := total_eq s datePart timePart
  rw [heq, bind_eq_panic, hf.eq_panic]
  constructor
  · rintro (hover | ⟨months, hmonths, hpanic⟩)
    · exact .inl hover
    · rw [addDayTime_eq_panic fun x => by split <;> simp] at hpanic
      exact .inr ⟨⟨months, ((hf.eq_ok _ _).mp hmonths).2⟩, hpanic⟩
  · rintro (hover | ⟨⟨months, hmonths⟩, hpanic⟩)
    · exact .inl hover
    · by_cases hover : Overruns 32 0 (monthComponents datePart)
      · exact .inl hover
      · refine .inr ⟨months, (hf.eq_ok _ _).mpr ⟨hover, hmonths⟩, ?_⟩
        rwa [addDayTime_eq_panic fun x => by split <;> simp]

theorem Duration.total_eq_ok {months micros : ℤ} :
    Duration.total s datePart timePart = ok (months, micros) ↔
      (¬ Overruns 32 0 (monthComponents datePart) ∧
        Sums 32 0 (monthComponents datePart) months) ∧
      ¬ Overruns 64 0 (dayTimeComponents (daysText datePart) timePart) ∧
        Sums 64 0 (dayTimeComponents (daysText datePart) timePart) micros ∧
        Duration.Complete datePart timePart := by
  obtain ⟨f, hf, heq⟩ := total_eq s datePart timePart
  rw [heq, bind_eq_ok]
  simp only [addDayTime_eq_ok, hf.eq_ok]
  constructor
  · rintro ⟨months', hmonths, sum, hover, hsums, hrest, hcomplete, h⟩
    split at h
    · cases h
    next hany =>
      cases h
      rw [Bool.not_eq_true, Bool.not_eq_false', Bool.or_eq_true, Bool.or_eq_true,
        Bool.or_eq_true, or_assoc, or_assoc] at hany
      exact ⟨hmonths, hover, hsums, hrest, hcomplete, hany⟩
  · rintro ⟨hmonths, hover, hsums, hrest, hcomplete, hany⟩
    refine ⟨months, hmonths, micros, hover, hsums, hrest, hcomplete, ?_⟩
    rw [← or_assoc, ← or_assoc, ← Bool.or_eq_true, ← Bool.or_eq_true, ← Bool.or_eq_true] at hany
    simp [hany]

theorem Duration.parse_of_parts {s : String}
    (h : DurationParts s.toList negative datePart timePart) :
    Duration.parse s = Duration.total s datePart timePart >>= fun x =>
      negateIf 32 negative x.1 >>= fun months => negateIf 64 negative x.2 >>= fun micros =>
        ok ⟨⟨months, micros⟩, s⟩ := by
  rw [parse, durationBody_eq_ok.mpr h.1, ok_bind]
  dsimp only
  rw [splitTime_iff.mpr ⟨rfl, h.2⟩]

theorem Duration.parts_of_parse {s : String} (h : ∀ e, Duration.parse s ≠ err e) :
    ∃ negative datePart timePart, DurationParts s.toList negative datePart timePart := by
  obtain ⟨⟨negative, body⟩, hbody, -⟩ := (bind_ne_err h).resolve_left (durationBody_ne_panic _ _)
  rcases hsplit : splitTime body with ⟨datePart, timePart⟩
  obtain ⟨rfl, htime⟩ := splitTime_iff.mp hsplit
  exact ⟨negative, datePart, timePart, durationBody_eq_ok.mp hbody, htime⟩

/-- Years and months without signs, in front of days and a time part. -/
theorem duration_plain {s : String} {months micros : ℤ}
    (hparts : DurationParts s.toList negative datePart timePart)
    (hmonths : Sums 32 0 (monthComponents datePart) months)
    (hmicros : Sums 64 0 (dayTimeComponents (daysText datePart) timePart) micros)
    (hcomplete : Duration.Complete datePart timePart) (hunsigned : Unsigned s.toList)
    (hpoints : DecimalPoints s.toList) :
    Xsd.DenotesDuration s.toList (signed negative months) (signed negative micros) := by
  obtain ⟨htext, -⟩ := hparts
  obtain ⟨hrest, htime, hsome⟩ := hcomplete
  have hdate : datePart = field (takeUnit 'Y' datePart).1 'Y' ++
      (field (takeUnit 'M' (takeUnit 'Y' datePart).2).1 'M' ++ daysText datePart) := by
    rw [daysText, ← takeUnit_eq, ← takeUnit_eq]
  obtain ⟨yearMonths, hyears, hmonths⟩ := sums_append.mp hmonths
  generalize (takeUnit 'Y' datePart).1 = years,
    (takeUnit 'M' (takeUnit 'Y' datePart).2).1 = monthsText, daysText datePart = days at *
  subst hdate
  rw [append_assoc, append_assoc] at htext
  have hplain := hunsigned
  rw [htext, unsigned_iff, plain_append, plain_append] at hplain
  obtain ⟨hyearsNum, rfl⟩ := scaled_plain hyears hplain.1
  obtain ⟨hmonthsNum, rfl⟩ := scaled_plain hmonths hplain.2.1
  obtain ⟨days, time, hliteral, rfl⟩ := dayTime_plain _ _ hmicros hrest htime htext
    hunsigned hpoints hyearsNum hmonthsNum hsome
  refine ⟨negative, _, hliteral, ?_, rfl⟩
  simp [Xsd.Fields.totalMonths]

theorem Duration.negated_spec {months micros : ℤ} (s : String) (negative : Bool)
    (hmonths : Fits 32 months) (hmicros : Fits 64 micros) :
    (negative ∧ (months = -2 ^ 31 ∨ micros = -2 ^ 63) →
      (negateIf 32 negative months >>= fun m => negateIf 64 negative micros >>= fun u =>
        (ok ⟨⟨m, u⟩, s⟩ : Outcome String (Lexical Duration))) = panic) ∧
    (¬ (negative ∧ (months = -2 ^ 31 ∨ micros = -2 ^ 63)) →
      (negateIf 32 negative months >>= fun m => negateIf 64 negative micros >>= fun u =>
        (ok ⟨⟨m, u⟩, s⟩ : Outcome String (Lexical Duration))) =
          ok ⟨⟨signed negative months, signed negative micros⟩, s⟩) := by
  obtain ⟨hpanic, hok⟩ := negateIf_spec negative hmonths
  obtain ⟨hpanic', hok'⟩ := negateIf_spec negative hmicros
  constructor
  · rintro ⟨hneg, hmin⟩
    by_cases hfirst : months = -2 ^ 31
    · rw [hpanic ⟨hneg, hfirst⟩, panic_bind]
    · rw [hok fun h => hfirst h.2, ok_bind, hpanic' ⟨hneg, hmin.resolve_left hfirst⟩, panic_bind]
  · intro hmin
    rw [hok fun h => hmin ⟨h.1, .inl h.2⟩, ok_bind, hok' fun h => hmin ⟨h.1, .inr h.2⟩, ok_bind]

/-- The same for both sums of a duration, the months first. -/
def Duration.Regular (s : List Char) : Prop :=
  ∀ negative datePart timePart, DurationParts s negative datePart timePart →
    ¬ Overruns 32 0 (monthComponents datePart) ∧
      ∀ months, Sums 32 0 (monthComponents datePart) months →
        ¬ Overruns 64 0 (dayTimeComponents (daysText datePart) timePart) ∧
          (Duration.Complete datePart timePart → ∀ micros,
            Sums 64 0 (dayTimeComponents (daysText datePart) timePart) micros →
              ¬ (negative ∧ (months = -2 ^ 31 ∨ micros = -2 ^ 63)) ∧ Unsigned s ∧
                DecimalPoints s)

theorem Duration.exact_iff (s : String) :
    Exact (Duration.parse s) (fun v => Xsd.DenotesDuration s.toList v.months v.micros) ↔
      Duration.Regular s.toList := by
  constructor
  · rintro ⟨hsafe, hexact⟩ negative datePart timePart hparts
    have hparse := parse_of_parts hparts
    have hover : ¬ Overruns 32 0 (monthComponents datePart) := fun hover => by
      rw [total_eq_panic.mpr (.inl hover)] at hparse
      exact hsafe hparse
    refine ⟨hover, fun months hmonths => ?_⟩
    have hover' : ¬ Overruns 64 0 (dayTimeComponents (daysText datePart) timePart) := fun h => by
      rw [total_eq_panic.mpr (.inr ⟨⟨months, hmonths⟩, h⟩)] at hparse
      exact hsafe hparse
    refine ⟨hover', fun hcomplete micros hmicros => ?_⟩
    rw [total_eq_ok.mpr ⟨⟨hover, hmonths⟩, hover', hmicros, hcomplete⟩, ok_bind] at hparse
    obtain ⟨hpanic, hok⟩ := negated_spec s negative
      (fits_of_sums (by decide) hover hmonths) (fits_of_sums (by decide) hover' hmicros)
    have hmin : ¬ (negative ∧ (months = -2 ^ 31 ∨ micros = -2 ^ 63)) := fun hmin =>
      hsafe (hparse.trans (hpanic hmin))
    obtain ⟨_, _, hliteral, -⟩ := hexact _ (hparse.trans (hok hmin))
    exact ⟨hmin, hliteral.unsigned, hliteral.decimalPoints⟩
  · intro hall
    refine .of_read fun hno => ?_
    obtain ⟨negative, datePart, timePart, hparts⟩ := parts_of_parse hno
    obtain ⟨hover, hall⟩ := hall negative datePart timePart hparts
    have hparse := parse_of_parts hparts
    rw [hparse] at hno
    have hsafe : Duration.total s datePart timePart ≠ panic := by
      rw [Ne, total_eq_panic]
      rintro (h | ⟨⟨months, hmonths⟩, h⟩)
      · exact hover h
      · exact (hall months hmonths).1 h
    obtain ⟨⟨months, micros⟩, htotal, -⟩ := (bind_ne_err hno).resolve_left hsafe
    obtain ⟨⟨-, hmonths⟩, hover', hmicros, hcomplete⟩ := total_eq_ok.mp htotal
    obtain ⟨hmin, hunsigned, hpoints⟩ := (hall months hmonths).2 hcomplete micros hmicros
    rw [htotal, ok_bind] at hparse
    exact ⟨_, hparse.trans ((negated_spec s _ (fits_of_sums (by decide) hover hmonths)
        (fits_of_sums (by decide) hover' hmicros)).2 hmin),
      duration_plain hparts hmonths hmicros hcomplete hunsigned hpoints⟩

/-! ### All parsers -/

/-- For any text, where each parser of a temporal literal panics, and when the parsers of years
and durations are exact. -/
theorem temporal_parsers_iff (chrono : Chrono) (s : String) :
    Date.parse chrono s ≠ panic ∧
    (Time.parse chrono s ≠ panic ↔ ¬ TailCut s.toList) ∧
    (GMonth.parse s ≠ panic ↔ ¬ ∃ rest, s.toList = '-' :: '-' :: rest ∧ TailCut rest) ∧
    (GDay.parse s ≠ panic ↔ ¬ ∃ rest, s.toList = '-' :: '-' :: '-' :: rest ∧ TailCut rest) ∧
    (GMonthDay.parse s ≠ panic ↔ ¬ ∃ rest, s.toList = '-' :: '-' :: rest ∧ TailCut rest) ∧
    (Exact (GYear.parse s) (fun v => Xsd.DenotesYear s.toList v.year) ↔
      GYear.Regular s.toList) ∧
    (Exact (GYearMonth.parse s) (fun v => Xsd.DenotesYearMonth s.toList v.year v.month) ↔
      GYearMonth.Regular s.toList) ∧
    (Exact (YearMonthDuration.parse s)
        (fun v => Xsd.DenotesYearMonthDuration s.toList v.months) ↔
      YearMonthDuration.Regular s.toList) ∧
    (Exact (parse s) (fun v => Xsd.DenotesDayTimeDuration s.toList v.micros) ↔
      DayTimeDuration.Regular s.toList) ∧
    (Exact (Duration.parse s) (fun v => Xsd.DenotesDuration s.toList v.months v.micros) ↔
      Duration.Regular s.toList) :=
  ⟨Date.parse_safe chrono s, (Time.parse_eq_panic chrono s).not, (GMonth.parse_eq_panic s).not,
    (GDay.parse_eq_panic s).not, (GMonthDay.parse_eq_panic s).not, GYear.exact_iff s,
    GYearMonth.exact_iff s, YearMonthDuration.exact_iff s, exact_iff s,
    Duration.exact_iff s⟩

/-- A year whose last six bytes start inside a character panics, a duration of 178956971 years
overflows, a duration of minus one year in the middle is accepted, and so is a fraction of a
second with letters behind six digits. -/
theorem temporal_parsers_not_exact :
    GYear.parse "ééé1" = panic ∧ YearMonthDuration.parse "P178956971Y" = panic ∧
    ¬ Exact (YearMonthDuration.parse "P-1Y")
      (fun v => Xsd.DenotesYearMonthDuration "P-1Y".toList v.months) ∧
    ¬ Exact (parse "PT0.123456abcS")
      (fun v => Xsd.DenotesDayTimeDuration "PT0.123456abcS".toList v.micros) := by
  refine ⟨by decide +kernel, by decide +kernel, fun h => ?_, fun h => ?_⟩
  · obtain ⟨negative, f, hliteral, -⟩ := h.2 ⟨⟨-12⟩, "P-1Y"⟩ (by decide +kernel)
    exact hliteral.unsigned.2 (by decide +kernel)
  · obtain ⟨negative, f, hliteral, -⟩ :=
      h.2 ⟨⟨123456⟩, "PT0.123456abcS"⟩ (by decide +kernel)
    have hletter : 'a' ∈ signText negative ++ 'P' :: f.text := hliteral.2 ▸ by decide +kernel
    rcases mem_append.mp hletter with hsign | hbody
    · exact absurd (signText_chars hsign) (by decide)
    · rcases mem_cons.mp hbody with hp | htext
      · exact absurd hp (by decide)
      · rcases hliteral.1.chars _ htext with h | h <;> exact absurd h (by decide)

end FlureeDb.Core
