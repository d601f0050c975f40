import FlureeDb.Core.TemporalSafe

/-!
The parsers of years, months and days. All of them panic at the cut of the timezone and nowhere
else, but for a year and month with two signs, whose year cannot be negated. They accept more
than the lexical space; what they accept of it they read exactly.
-/

namespace FlureeDb.Core

open Lib List Outcome Option GYearMonth
open Lib.Numerals (Numeral SignedNumeral UnsignedNumeral value)
open Xsd (signText signed)

/-- A parser that gives a result for a text, and one that is right if it is no error. -/
def Exact {α : Type} (result : Outcome String (Lexical α)) (denotes : α → Prop) : Prop :=
  result ≠ panic ∧ ∀ v, result = ok v → denotes v.value

theorem Exact.of_read {α : Type} {result : Outcome String (Lexical α)} {denotes : α → Prop}
    (h : (∀ e, result ≠ err e) → ∃ v, result = ok v ∧ denotes v.value) : Exact result denotes := by
  refine ⟨fun hpanic => ?_, fun v hv => ?_⟩
  · obtain ⟨v, hv, -⟩ := h (by simp [hpanic])
    exact absurd (hpanic.symm.trans hv) (by simp)
  · obtain ⟨v', hv', hdenotes⟩ := h (by simp [hv])
    cases hv.symm.trans hv'
    exact hdenotes

@[simp] theorem checkRange_ne_panic (what type : String) (max n : ℕ) (s : String) :
    checkRange what type max n s ≠ panic := by
  unfold checkRange
  split <;> simp

variable (s : String)

theorem GYear.parse_eq_panic : GYear.parse s = panic ↔ TailCut s.toList := by
  rw [parse, bind_eq_panic_of_safe, parseTzSuffix_eq_panic]
  intro parts
  simp [bind_eq_panic]

theorem GMonth.parse_eq_panic :
    GMonth.parse s = panic ↔ ∃ rest, s.toList = '-' :: '-' :: rest ∧ TailCut rest := by
  unfold parse
  split
  · next rest hs =>
    rw [bind_eq_panic_of_safe (by simp [bind_eq_panic]), parseTzSuffix_eq_panic, hs]
    simp
  · next hs => exact iff_of_false (by simp) fun ⟨rest, h⟩ => hs rest h.1

theorem GDay.parse_eq_panic :
    GDay.parse s = panic ↔ ∃ rest, s.toList = '-' :: '-' :: '-' :: rest ∧ TailCut rest := by
  unfold parse
  split
  · next rest hs =>
    rw [bind_eq_panic_of_safe (by simp [bind_eq_panic]), parseTzSuffix_eq_panic, hs]
    simp
  · next hs => exact iff_of_false (by simp) fun ⟨rest, h⟩ => hs rest h.1

theorem GMonthDay.parse_eq_panic :
    GMonthDay.parse s = panic ↔ ∃ rest, s.toList = '-' :: '-' :: rest ∧ TailCut rest := by
  unfold parse
  split
  · next rest hs =>
    rw [bind_eq_panic_of_safe (by simp [bind_eq_panic]), parseTzSuffix_eq_panic, hs]
    simp
  · next hs => exact iff_of_false (by simp) fun ⟨rest, h⟩ => hs rest h.1

/-- A year and a month around the last dash, and whether a dash in front is the year's sign. -/
def GYearMonth.Around (text : List Char) (minus : Bool) (yearStr monthStr : List Char) (year : ℤ)
    (month : ℕ) : Prop :=
  text = signText minus ++ (yearStr ++ '-' :: monthStr) ∧
    (minus = false → text.head? ≠ some '-') ∧ '-' ∉ monthStr ∧
    SignedNumeral (2 ^ 31 - 1) yearStr year ∧ UnsignedNumeral (2 ^ 32 - 1) monthStr month

variable {s} {text ds : List Char} {year : ℤ} {month : ℕ} {c : Char}

theorem GYearMonth.components_eq_ok :
    components s text = ok (year, month) ↔
      ∃ yearStr monthStr, text = yearStr ++ '-' :: monthStr ∧ '-' ∉ monthStr ∧
        SignedNumeral (2 ^ 31 - 1) yearStr year ∧
        UnsignedNumeral (2 ^ 32 - 1) monthStr month := by
  simp only [components, parseI32, parseU32, bind_eq_ok, orErr_eq_ok, Prod.exists,
    Numerals.readSigned_eq_some, Numerals.readUnsigned_eq_some]
  constructor
  · rintro ⟨yearStr, dash, monthStr, hcut, y, hy, m, hm, hpair⟩
    obtain ⟨rfl, hdash, hnot⟩ := Utf8.splitLast_eq_some.mp hcut
    obtain rfl : dash = '-' := by simpa using hdash
    cases hpair
    exact ⟨yearStr, monthStr, rfl, fun hmem => by simpa using hnot _ hmem, hy, hm⟩
  · rintro ⟨yearStr, monthStr, rfl, hnot, hy, hm⟩
    refine ⟨yearStr, '-', monthStr, Utf8.splitLast_eq_some.mpr ⟨rfl, by decide, ?_⟩, year, hy,
      month, hm, rfl⟩
    intro d hd
    exact beq_eq_false_iff_ne.mpr fun hdash => hnot (hdash ▸ hd)

theorem GYearMonth.components_ne_panic (s : String) (text : List Char) :
    components s text ≠ panic := by
  simp [components, bind_eq_panic]

theorem fits_of_signedNumeral {v : ℤ} (h : SignedNumeral (2 ^ 31 - 1) text v) : Fits 32 v := by
  unfold Fits
  rcases h with ⟨ds, -, -, hle, rfl⟩ | ⟨ds, -, -, hle, rfl⟩ <;> omega

/-- The year is negated if the dash in front is its sign. -/
theorem GYearMonth.yearAndMonth_of_around {minus : Bool} {yearStr monthStr : List Char}
    (h : GYearMonth.Around text minus yearStr monthStr year month) :
    yearAndMonth s text =
      if minus then checked 32 (-year) >>= fun y => ok (y, month) else ok (year, month) := by
  obtain ⟨rfl, hhead, hnot, hy, hm⟩ := h
  have hparts : components s (yearStr ++ '-' :: monthStr) = ok (year, month) :=
    components_eq_ok.mpr ⟨yearStr, monthStr, rfl, hnot, hy, hm⟩
  unfold yearAndMonth
  cases minus with
  | true =>
    have hstrip : stripPrefix '-' (signText true ++ (yearStr ++ '-' :: monthStr)) =
        some (yearStr ++ '-' :: monthStr) := stripPrefix_eq_some.mpr rfl
    rw [hstrip]
    dsimp only
    rw [hparts]
    rfl
  | false =>
    rw [stripPrefix_eq_none.mpr (hhead rfl)]
    exact hparts

theorem GYearMonth.around_of_yearAndMonth (h : ∀ e, yearAndMonth s text ≠ err e) :
    ∃ minus yearStr monthStr year month,
      GYearMonth.Around text minus yearStr monthStr year month := by
  unfold yearAndMonth at h
  split at h
  · next rest hrest =>
    obtain ⟨⟨year, month⟩, hparts, -⟩ := (bind_ne_err h).resolve_left (components_ne_panic s rest)
    obtain ⟨yearStr, monthStr, rfl, hnot, hy, hm⟩ := components_eq_ok.mp hparts
    exact ⟨true, yearStr, monthStr, year, month, stripPrefix_eq_some.mp hrest, by simp, hnot, hy, hm⟩
  · next hnone =>
    cases hparts : components s text with
    | ok parts =>
      obtain ⟨yearStr, monthStr, rfl, hnot, hy, hm⟩ :=
        components_eq_ok.mp (show components s text = ok (parts.1, parts.2) from hparts)
      exact ⟨false, yearStr, monthStr, parts.1, parts.2, rfl,
        fun _ => stripPrefix_eq_none.mp hnone, hnot, hy, hm⟩
    | err e => exact absurd hparts (h e)
    | panic => exact absurd hparts (components_ne_panic s text)

/-! ### Literals -/

theorem toNat_of_isDigit (h : c.isDigit) : 48 ≤ c.toNat ∧ c.toNat ≤ 57 := by
  rw [Char.isDigit, Bool.and_eq_true, decide_eq_true_iff, decide_eq_true_iff] at h
  exact ⟨h.1, h.2⟩

theorem ascii_of_digits (h : ∀ c ∈ ds, c.isDigit) : ∀ c ∈ ds, c.toNat < 128 := by
  intro c hc
  have := toNat_of_isDigit (h c hc)
  omega

theorem byteLen_of_ascii (h : ∀ c ∈ text, c.toNat < 128) : byteLen text = text.length := by
  rw [byteLen, Utf8.bytes_of_ascii h, length_map]

theorem ne_of_isDigit {d : Char} (hc : c.isDigit) (hd : d.isDigit = false) : c ≠ d := by
  rintro rfl
  exact absurd hc (by simp [hd])

theorem ascii_of_timeZone {tz : List Char} (htz : Xsd.TimeZone tz) : ∀ c ∈ tz, c.toNat < 128 := by
  rcases htz with rfl | rfl | ⟨sign, h, h', m, m', rfl, hsign, hh, hm, -⟩
  · simp
  · exact forall_mem_singleton.mpr (by decide)
  · rw [show [sign, h, h', ':', m, m'] = sign :: ([h, h'] ++ ':' :: [m, m']) from rfl]
    refine forall_mem_cons.mpr ⟨?_, forall_mem_append.mpr ⟨ascii_of_digits hh.2,
      forall_mem_cons.mpr ⟨by decide, ascii_of_digits hm.2⟩⟩⟩
    rcases hsign with rfl | rfl <;> decide

theorem not_tailCut_of_ascii (h : ∀ c ∈ text, c.toNat < 128) : ¬ TailCut text := by
  rintro ⟨-, -, hcut⟩
  rw [← cutTail_eq_panic, cutTail, byteLen_of_ascii h,
    Utf8.splitAt_of_ascii h (Nat.sub_le _ _)] at hcut
  cases hcut

theorem offsetPart_of_digits {a b : Char} (h : Numeral [a, b]) :
    byteLen [a, b] = 2 ∧ OffsetPart [a, b] (value [a, b] : ℤ) := by
  have hlt := Numerals.value_lt h.2
  simp only [length_cons, length_nil] at hlt
  exact ⟨byteLen_of_ascii (ascii_of_digits h.2),
    .inl (.inl ⟨[a, b], .inl rfl, h, by omega, rfl⟩)⟩

/-- The timezone of a literal is divided off where it starts. -/
theorem dividesTz_of_timeZone {front tz : List Char} (hfront : ∀ c ∈ front, c.isDigit ∨ c = '-')
    (htz : Xsd.TimeZone tz) : DividesTz (front ++ tz) front tz := by
  have hnot : ∀ c, c.isDigit = false → c ≠ '-' → c ∉ front := by
    intro c hdigit hdash hc
    rcases hfront c hc with h | h
    · exact absurd h (by simp [hdigit])
    · exact hdash h
  refine ⟨rfl, ?_⟩
  rcases htz with rfl | rfl | ⟨sign, h, h', m, m', rfl, hsign, hh, hm, hrange⟩
  · rw [append_nil]
    refine .inr ⟨fun hlast => hnot 'Z' (by decide) (by decide) (mem_of_getLast? hlast),
      .inr ⟨rfl, ?_⟩⟩
    rintro front' _ rfl ⟨sign, hours, mins, -, -, rfl, -⟩
    exact hnot ':' (by decide) (by decide) (by simp)
  · exact .inl rfl
  · have hlast : (front ++ [sign, h, h', ':', m, m']).getLast? = some m' := by simp
    have hdigit : m' ≠ 'Z' := ne_of_isDigit (hm.2 m' (by simp)) (by decide)
    refine .inr ⟨by rw [hlast]; exact fun heq => hdigit (some.inj heq), .inl ?_⟩
    obtain ⟨hhlen, hhours⟩ := offsetPart_of_digits hh
    obtain ⟨hmlen, hmins⟩ := offsetPart_of_digits hm
    refine ⟨sign, [h, h'], [m, m'], _, _, rfl, isSign_iff.mpr hsign, hhlen, hmlen, hhours, hmins, ?_⟩
    omega

/-- A numeral with digits behind its sign. -/
theorem SignedNumeral.eq_signed {max : ℕ} (negative : Bool) {v : ℤ} (hds : Numeral ds)
    (h : SignedNumeral max (signText negative ++ ds) v) : v = signed negative (value ds) := by
  cases negative with
  | true =>
    rcases h with ⟨es, hes, hnum, -, rfl⟩ | ⟨es, hes, -, -, rfl⟩
    · rcases hes with rfl | hes
      · exact absurd rfl (hnum.head_ne_plus rfl).2
      · cases hes
    · cases hes
      rfl
  | false =>
    rcases h with ⟨es, hes, -, -, rfl⟩ | ⟨es, hes, -, -, rfl⟩
    · rcases hes with rfl | hes
      · rfl
      · exact absurd rfl (hds.head_ne_plus hes).1
    · exact absurd rfl (hds.head_ne_plus hes).2

theorem UnsignedNumeral.eq_value {max n : ℕ} (hds : Numeral ds) (h : UnsignedNumeral max ds n) :
    n = value ds := by
  obtain ⟨es, rfl | hes, -, -, rfl⟩ := h
  · rfl
  · exact absurd rfl (hds.head_ne_plus hes).1

theorem signText_chars {negative : Bool} (h : c ∈ signText negative) : c = '-' := by
  cases negative with
  | true => simpa [signText] using h
  | false => simp [signText] at h

/-- The division of a text that ends in a timezone. -/
theorem eq_of_dividesTz {front front' tz tz' : List Char} (h : DividesTz text front tz)
    (htext : text = front' ++ tz') (hfront : ∀ c ∈ front', c.isDigit ∨ c = '-')
    (htz : Xsd.TimeZone tz') : front = front' ∧ tz = tz' := by
  have hascii : ∀ c ∈ text, c.toNat < 128 := by
    rw [htext]
    refine forall_mem_append.mpr ⟨fun c hc => ?_, ascii_of_timeZone htz⟩
    rcases hfront c hc with hdigit | rfl
    · exact lt_of_le_of_lt (toNat_of_isDigit hdigit).2 (by decide)
    · decide
  have hsafe := not_tailCut_of_ascii hascii
  obtain ⟨offset, hcut⟩ := parseTzSuffix_iff.mpr ⟨hsafe, tz, h⟩
  obtain ⟨offset', hcut'⟩ :=
    parseTzSuffix_iff.mpr ⟨hsafe, tz', htext ▸ dividesTz_of_timeZone hfront htz⟩
  rw [hcut] at hcut'
  cases hcut'
  exact ⟨rfl, append_cancel_left (h.1.symm.trans htext)⟩

theorem chars_of_numeral {negative : Bool} (h : Numeral ds) :
    ∀ c ∈ signText negative ++ ds, c.isDigit ∨ c = '-' :=
  forall_mem_append.mpr ⟨fun _ hc => .inr (signText_chars hc), fun c hc => .inl (h.2 c hc)⟩

/-- A sign and the digits of a year. -/
def YearText (text : List Char) : Prop :=
  ∃ negative ds, text = signText negative ++ ds ∧ Xsd.YearDigits ds

/-- The timezone is not cut inside a character, and a number and a timezone as the parser takes
them are a year and a timezone of the lexical space. -/
def GYear.Regular (s : List Char) : Prop :=
  ¬ TailCut s ∧ ∀ front tz v, DividesTz s front tz → SignedNumeral (2 ^ 31 - 1) front v →
    YearText front ∧ Xsd.TimeZone tz

/-- A year is read exactly if and only if its text is regular. -/
theorem GYear.exact_iff (s : String) :
    Exact (GYear.parse s) (fun v => Xsd.DenotesYear s.toList v.year) ↔
      GYear.Regular s.toList := by
  rw [Exact, Ne, parse_eq_panic]
  refine and_congr_right fun hsafe => ⟨fun hexact front tz v hdiv hv => ?_, fun hlit v hv => ?_⟩
  · obtain ⟨offset, hcut⟩ := parseTzSuffix_iff.mpr ⟨hsafe, tz, hdiv⟩
    have hparse : GYear.parse s = ok ⟨⟨v, offset⟩, s⟩ := by
      rw [parse, hcut, ok_bind]
      dsimp only
      rw [parseI32, Numerals.readSigned_eq_some.mpr hv]
      rfl
    obtain ⟨negative, ds, tz', htext, hds, htz, -⟩ := hexact _ hparse
    obtain ⟨rfl, rfl⟩ := eq_of_dividesTz hdiv htext (chars_of_numeral hds.1) htz
    exact ⟨⟨negative, ds, rfl, hds⟩, htz⟩
  · rw [parse, bind_eq_ok] at hv
    obtain ⟨⟨front, offset⟩, hcut, hv⟩ := hv
    obtain ⟨y, hy, hv⟩ := bind_eq_ok.mp hv
    cases hv
    obtain ⟨-, tz, hdiv⟩ := parseTzSuffix_iff.mp ⟨offset, hcut⟩
    have hy := Numerals.readSigned_eq_some.mp (orErr_eq_ok.mp hy)
    obtain ⟨⟨negative, ds, rfl, hds⟩, htz⟩ := hlit front tz y hdiv hy
    exact ⟨negative, ds, tz, hdiv.1, hds, htz, SignedNumeral.eq_signed negative hds.1 hy⟩

theorem Numeral.not_mem_dash (h : Numeral ds) : '-' ∉ ds :=
  fun hmem => absurd (h.2 _ hmem) (by decide)

/-- The parts of a year and month of the lexical space. -/
theorem GYearMonth.Around.of_literal {minus negative : Bool} {yearStr monthStr : List Char}
    {m m' : Char} (hds : Numeral ds) (hm : Numeral [m, m'])
    (h : GYearMonth.Around (signText negative ++ ds ++ ['-', m, m']) minus yearStr monthStr year
      month) : yearStr = ds ∧ monthStr = [m, m'] := by
  obtain ⟨htext, hhead, -⟩ := h
  obtain ⟨d, rest, rfl⟩ := exists_cons_of_ne_nil hds.1
  have hdash : d ≠ '-' := ne_of_isDigit (hds.2 d (mem_cons_self ..)) (by decide)
  have hsame : minus = negative := by
    cases minus with
    | true =>
      cases negative with
      | true => rfl
      | false => exact absurd (cons.inj htext).1 hdash
    | false =>
      cases negative with
      | true => exact absurd rfl (hhead rfl)
      | false => rfl
  subst hsame
  rw [append_assoc] at htext
  obtain ⟨rfl, -, rfl⟩ := (append_cons_inj_of_notMem (Numeral.not_mem_dash hds)
    (Numeral.not_mem_dash hm)).mp (append_cancel_left htext)
  exact ⟨rfl, rfl⟩

theorem GYearMonth.yearAndMonth_eq_ok {minus : Bool} {yearStr monthStr : List Char}
    (h : GYearMonth.Around text minus yearStr monthStr year month)
    (hmin : ¬ (minus ∧ year = -2 ^ 31)) :
    yearAndMonth s text = ok (signed minus year, month) := by
  rw [yearAndMonth_of_around h]
  cases minus with
  | false => rfl
  | true =>
    have hfits := fits_of_signedNumeral h.2.2.2.1
    have hneg : Fits 32 (-year) := by
      unfold Fits at *
      simp only [true_and] at hmin
      omega
    rw [if_pos rfl, checked_eq_ok.mpr ⟨hneg, rfl⟩]
    rfl

theorem GYearMonth.parse_of_around {s : String} {front yearStr monthStr : List Char}
    {offset : Option FixedOffset} {minus : Bool} (hcut : parseTzSuffix s.toList = ok (front, offset))
    (h : GYearMonth.Around front minus yearStr monthStr year month)
    (hmin : ¬ (minus ∧ year = -2 ^ 31)) (hmonth : 1 ≤ month ∧ month ≤ 12) :
    parse s = ok ⟨⟨signed minus year, month, offset⟩, s⟩ := by
  rw [parse, hcut, ok_bind]
  dsimp only
  rw [yearAndMonth_eq_ok h hmin, ok_bind]
  dsimp only
  rw [checkRange, if_pos hmonth]
  rfl

/-- The same for a year and month, whose year is not the smallest integer behind a minus sign. -/
def GYearMonth.Regular (s : List Char) : Prop :=
  ¬ TailCut s ∧ ∀ front tz minus yearStr monthStr year month, DividesTz s front tz →
    GYearMonth.Around front minus yearStr monthStr year month →
      ¬ (minus ∧ year = -2 ^ 31) ∧ (1 ≤ month ∧ month ≤ 12 →
        Xsd.YearDigits yearStr ∧ Numeral monthStr ∧ monthStr.length = 2 ∧ Xsd.TimeZone tz)

theorem GYearMonth.exact_iff (s : String) :
    Exact (parse s) (fun v => Xsd.DenotesYearMonth s.toList v.year v.month) ↔
      GYearMonth.Regular s.toList := by
  constructor
  · rintro ⟨hsafe, hexact⟩
    have htail : ¬ TailCut s.toList := fun hcut =>
      hsafe (bind_eq_panic.mpr (.inl (parseTzSuffix_eq_panic.mpr hcut)))
    refine ⟨htail, fun front tz minus yearStr monthStr year month hdiv haround => ?_⟩
    obtain ⟨offset, hcut⟩ := parseTzSuffix_iff.mpr ⟨htail, tz, hdiv⟩
    have hmin : ¬ (minus ∧ year = -2 ^ 31) := by
      rintro ⟨rfl, rfl⟩
      refine hsafe (bind_eq_panic.mpr (.inr ⟨(front, offset), hcut, ?_⟩))
      dsimp only
      rw [yearAndMonth_of_around haround]
      rfl
    refine ⟨hmin, fun hmonth => ?_⟩
    obtain ⟨negative, ds, m, m', tz', htext, hds, hm, htz, -⟩ :=
      hexact _ (parse_of_around hcut haround hmin hmonth)
    have hchars : ∀ c ∈ signText negative ++ ds ++ ['-', m, m'], c.isDigit ∨ c = '-' :=
      forall_mem_append.mpr ⟨chars_of_numeral hds.1,
        forall_mem_cons.mpr ⟨.inr rfl, fun c hc => .inl (hm.2 c hc)⟩⟩
    obtain ⟨rfl, rfl⟩ := eq_of_dividesTz hdiv htext hchars htz
    obtain ⟨rfl, rfl⟩ := haround.of_literal hds.1 hm
    exact ⟨hds, hm, rfl, htz⟩
  · rintro ⟨htail, hlit⟩
    refine .of_read fun hno => ?_
    obtain ⟨⟨front, offset⟩, hcut, hno⟩ :=
      (bind_ne_err hno).resolve_left (parseTzSuffix_eq_panic.not.mpr htail)
    dsimp only at hno
    have hread : ∀ e, yearAndMonth s front ≠ err e := by
      intro e he
      rw [he] at hno
      exact hno e rfl
    obtain ⟨-, tz, hdiv⟩ := parseTzSuffix_iff.mp ⟨offset, hcut⟩
    obtain ⟨minus, yearStr, monthStr, year, month, haround⟩ := around_of_yearAndMonth hread
    obtain ⟨hmin, hlit⟩ := hlit _ _ _ _ _ _ _ hdiv haround
    have hmonth : 1 ≤ month ∧ month ≤ 12 := by
      by_contra hout
      rw [yearAndMonth_eq_ok haround hmin, ok_bind] at hno
      dsimp only at hno
      rw [checkRange, if_neg hout] at hno
      exact hno _ rfl
    obtain ⟨hds, hm, hlen, htz⟩ := hlit hmonth
    obtain ⟨m, m', rfl⟩ := length_eq_two.mp hlen
    have hparse := parse_of_around hcut haround hmin hmonth
    obtain ⟨htext, -, -, hy, hm'⟩ := haround
    have hyear : year = value yearStr := SignedNumeral.eq_signed false hds.1 hy
    refine ⟨_, hparse, minus, yearStr, m, m', tz, ?_, hds, hm, htz, by rw [hyear],
      UnsignedNumeral.eq_value hm hm', hmonth⟩
    rw [hdiv.1, htext]
    simp

end FlureeDb.Core
