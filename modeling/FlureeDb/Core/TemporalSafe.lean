import FlureeDb.Core.TemporalParse
import FlureeDb.Core.XsdLexical

/-!
Where the parsers of dates, times and parts of dates panic. The only cut at an offset that is
computed and not found is the one in front of the last six bytes, where a timezone would start.
It panics exactly when it falls inside a character. Everything behind that cut is safe: the hours
and minutes of an offset are two bytes each, and no product or sum of such numbers overflows.
-/

namespace FlureeDb.Core

open Lib List Outcome Utf8 Option
open Lib.Numerals (Numeral SignedNumeral value)

variable {c : Char} {s : List Char} {t : List Char}

theorem stripPrefix_eq_some : stripPrefix c s = some t ↔ s = c :: t := by
  cases s with
  | nil | cons => simp [stripPrefix]

theorem stripPrefix_eq_none : stripPrefix c s = none ↔ s.head? ≠ some c := by
  cases s with
  | nil | cons => simp [stripPrefix]

theorem stripSuffix_eq_some : stripSuffix c s = some t ↔ s = t ++ [c] := by
  rw [stripSuffix, map_eq_some_iff]
  constructor
  · rintro ⟨r, hr, rfl⟩
    rw [stripPrefix_eq_some] at hr
    rw [← reverse_reverse s, hr, reverse_cons]
  · rintro rfl
    exact ⟨t.reverse, stripPrefix_eq_some.mpr (by simp), reverse_reverse t⟩

theorem stripSuffix_eq_none : stripSuffix c s = none ↔ s.getLast? ≠ some c := by
  rw [stripSuffix, map_eq_none_iff, stripPrefix_eq_none, head?_reverse]

theorem byteLen_append (a b : List Char) : byteLen (a ++ b) = byteLen a + byteLen b := by
  rw [byteLen, bytes_append, length_append]
  rfl

theorem byteLen_cons (c : Char) (s : List Char) : byteLen (c :: s) = byteLen [c] + byteLen s :=
  byteLen_append [c] s

theorem byteLen_colon : byteLen [':'] = 1 := rfl

theorem length_le_byteLen (s : List Char) : s.length ≤ byteLen s := length_le_bytes s

/-- The cut in front of the last six bytes falls inside a character. -/
def TailCut (s : List Char) : Prop :=
  s.getLast? ≠ some 'Z' ∧ 6 ≤ byteLen s ∧ ¬ Utf8.Boundary s (byteLen s - 6)

variable {front : List Char} {tail : List Char} {sign : Char}

theorem cutTail_eq_ok (hlen : 6 ≤ byteLen s) :
    cutTail s = ok (front, tail) ↔ s = front ++ tail ∧ byteLen tail = 6 := by
  rw [cutTail, orPanic_eq_ok, splitAt_eq_some]
  refine and_congr_right fun hs => ?_
  have hsum := byteLen_append front tail
  have hfront : (bytes front).length = byteLen front := rfl
  rw [← hs] at hsum
  omega

theorem cutTail_eq_panic : cutTail s = panic ↔ ¬ Utf8.Boundary s (byteLen s - 6) := by
  rw [cutTail, orPanic_eq_panic, ← exists_splitAt_iff, eq_none_iff_forall_ne_some]
  simp

/-- What strips a letter Z or else cuts six bytes off panics at the cut. -/
theorem tail_eq_panic {α : Type} {stripped : List Char → α} {whole : α}
    {next : List Char × List Char → Outcome String α}
    (hnext : ∀ front tail, byteLen tail = 6 → next (front, tail) ≠ panic) :
    (match stripSuffix 'Z' s with
      | some front => ok (stripped front)
      | none => if 6 ≤ byteLen s then cutTail s >>= next else ok whole) = panic ↔ TailCut s := by
  cases hz : stripSuffix 'Z' s with
  | some =>
    refine iff_of_false (by simp) fun hcut => hcut.1 ?_
    rw [stripSuffix_eq_some.mp hz, getLast?_concat]
  | none =>
    have hlast := stripSuffix_eq_none.mp hz
    dsimp only
    split
    · next hlen =>
      rw [bind_eq_panic, cutTail_eq_panic]
      constructor
      · rintro (hcut | ⟨⟨front, tail⟩, hcut, hpanic⟩)
        · exact ⟨hlast, hlen, hcut⟩
        · exact absurd hpanic (hnext front tail ((cutTail_eq_ok hlen).mp hcut).2)
      · exact fun hcut => .inl hcut.2.2
    · next hlen => exact iff_of_false (by simp) fun hcut => hlen hcut.2.1

/-! ### Offsets -/

theorem isSign_iff : isSign c ↔ c = '+' ∨ c = '-' := by
  rw [isSign, Bool.or_eq_true, beq_iff_eq, beq_iff_eq]

theorem byteLen_sign (hsign : isSign sign) : byteLen [sign] = 1 := by
  rcases isSign_iff.mp hsign with rfl | rfl <;> rfl

theorem offsetLike_iff (hlen : byteLen tail = 6) :
    offsetLike tail ↔ ∃ sign hours mins, tail = sign :: (hours ++ ':' :: mins) ∧ isSign sign ∧
      byteLen hours = 2 ∧ byteLen mins = 2 := by
  constructor
  · intro h
    rw [offsetLike, Bool.and_eq_true, beq_iff_eq] at h
    obtain ⟨hhead, hcolon⟩ := h
    obtain ⟨front, c, mins, hs, hfront, -, hc⟩ := exists_char_of_ascii hcolon (by decide)
    obtain rfl : c = ':' := Char.ext (UInt32.toNat_inj.mp hc)
    have hfront : byteLen front = 3 := hfront
    cases front with
    | nil => cases hfront
    | cons sign hours =>
      subst hs
      have hsign : isSign sign := by simpa using hhead
      rw [byteLen_append, byteLen_cons ':', byteLen_colon] at hlen
      rw [byteLen_cons, byteLen_sign hsign] at hlen hfront
      exact ⟨sign, hours, mins, rfl, hsign, by omega, by omega⟩
  · rintro ⟨sign, hours, mins, rfl, hsign, hhours, hmins⟩
    rw [offsetLike, Bool.and_eq_true]
    refine ⟨by simpa using hsign, ?_⟩
    have hfront : (bytes (sign :: hours)).length = 3 :=
      (byteLen_cons sign hours).trans (by rw [byteLen_sign hsign, hhours])
    have hbytes : bytes (sign :: (hours ++ ':' :: mins)) =
        bytes (sign :: hours) ++ (':'.toUInt8 :: bytes mins) := by
      rw [← cons_append, bytes_append]
      rfl
    rw [hbytes, getElem?_append_right (by omega), hfront]
    rfl

theorem slices_of_offset {hours mins : List Char} (hsign : isSign sign) (hhours : byteLen hours = 2)
    (hmins : byteLen mins = 2) :
    slice (sign :: (hours ++ ':' :: mins)) 1 3 = ok hours ∧
      slice (sign :: (hours ++ ':' :: mins)) 4 6 = ok mins := by
  have hsignlen := byteLen_sign hsign
  have hone : splitAt (sign :: hours) 1 = some ([sign], hours) :=
    splitAt_eq_some.mpr ⟨rfl, hsignlen⟩
  have hthree : splitAt (sign :: (hours ++ ':' :: mins)) 3 =
      some (sign :: hours, ':' :: mins) := by
    refine splitAt_eq_some.mpr ⟨rfl, ?_⟩
    rw [← byteLen, byteLen_cons, hsignlen, hhours]
  have hfour : splitAt (sign :: (hours ++ ':' :: mins)) 4 =
      some (sign :: (hours ++ [':']), mins) := by
    refine splitAt_eq_some.mpr ⟨by simp, ?_⟩
    rw [← byteLen, byteLen_cons, byteLen_append, hsignlen, hhours, byteLen_colon]
  have hsix : splitAt (sign :: (hours ++ ':' :: mins)) 6 =
      some (sign :: (hours ++ ':' :: mins), []) := by
    refine splitAt_eq_some.mpr ⟨by simp, ?_⟩
    rw [← byteLen, byteLen_cons, byteLen_append, byteLen_cons ':', hsignlen, hhours, byteLen_colon,
      hmins]
  constructor
  · rw [slice, hthree, bind_some, hone]
    rfl
  · rw [slice, hsix, bind_some, hfour]
    rfl

variable {text offsetStr : List Char}

theorem parseI32_bound {v : ℤ} (hlen : byteLen text ≤ 5) (h : parseI32 text = some v) :
    -99999 ≤ v ∧ v ≤ 99999 := by
  have hlength := length_le_byteLen text
  have hbound : ∀ ds : List Char, ds.length ≤ 5 → Numeral ds → value ds ≤ 99999 := by
    intro ds hds hnum
    have hlt := Numerals.value_lt hnum.2
    have hpow : 10 ^ ds.length ≤ 10 ^ 5 := Nat.pow_le_pow_right (by decide) hds
    omega
  rcases Numerals.readSigned_eq_some.mp h with
    ⟨ds, rfl | rfl, hnum, -, rfl⟩ | ⟨ds, rfl, hnum, -, rfl⟩
  · have hle := hbound _ (by omega) hnum
    omega
  · have hle := hbound ds (by rw [length_cons] at hlength; omega) hnum
    omega
  · have hle := hbound ds (by rw [length_cons] at hlength; omega) hnum
    omega

theorem totalSecs_eq {hours mins : ℤ} (hh : -99999 ≤ hours ∧ hours ≤ 99999)
    (hm : -99999 ≤ mins ∧ mins ≤ 99999) :
    totalSecs sign hours mins =
      ok ((if sign = '-' then -1 else 1) * (hours * 3600 + mins * 60)) := by
  have hfits : ∀ v : ℤ, -2000000000 ≤ v ∧ v ≤ 2000000000 →
      (checked 32 v : Outcome String ℤ) = ok v := by
    intro v hv
    exact checked_eq_ok.mpr ⟨by unfold Fits; omega, rfl⟩
  rw [totalSecs, hfits _ (by omega), ok_bind, hfits _ (by omega), ok_bind,
    hfits _ (by omega)]
  split <;> exact hfits _ (by omega)

theorem getD_parseI32_bound (hlen : byteLen text ≤ 5) :
    -99999 ≤ (parseI32 text).getD 0 ∧ (parseI32 text).getD 0 ≤ 99999 := by
  cases h : parseI32 text with
  | none => decide
  | some => exact parseI32_bound hlen h

/-- The suffix of a timezone is cut off safely, but for the cut itself. -/
theorem parseTzSuffix_eq_panic : parseTzSuffix s = panic ↔ TailCut s := by
  refine tail_eq_panic fun front tail htail => ?_
  dsimp only
  split
  · next hlike =>
    obtain ⟨sign, hours, mins, rfl, hsign, hhours, hmins⟩ := (offsetLike_iff htail).mp hlike
    obtain ⟨hslice, hslice'⟩ := slices_of_offset hsign hhours hmins
    rw [hslice, ok_bind, hslice', ok_bind,
      totalSecs_eq (getD_parseI32_bound (by omega)) (getD_parseI32_bound (by omega)), ok_bind]
    split <;> simp
  · simp

/-! ### The text in front of a timezone -/

/-- The hours or minutes of an offset, zero if they are no number. -/
def OffsetPart (text : List Char) (v : ℤ) : Prop :=
  SignedNumeral (2 ^ 31 - 1) text v ∨ v = 0 ∧ ∀ w, ¬ SignedNumeral (2 ^ 31 - 1) text w

/-- A sign, two bytes, a colon and two bytes, and less than a day. -/
def OffsetTail (tail : List Char) : Prop :=
  ∃ sign hours mins h m, tail = sign :: (hours ++ ':' :: mins) ∧ isSign sign ∧
    byteLen hours = 2 ∧ byteLen mins = 2 ∧ OffsetPart hours h ∧ OffsetPart mins m ∧
    -86400 < h * 3600 + m * 60 ∧ h * 3600 + m * 60 < 86400

/-- A text is a value and a timezone: the letter Z, an offset, or none if there is no offset. -/
def DividesTz (s front tz : List Char) : Prop :=
  s = front ++ tz ∧ (tz = ['Z'] ∨ s.getLast? ≠ some 'Z' ∧
    (OffsetTail tz ∨ tz = [] ∧ ∀ front' tail, s = front' ++ tail → ¬ OffsetTail tail))

theorem offsetPart_iff {v : ℤ} : OffsetPart text v ↔ v = (parseI32 text).getD 0 := by
  have hread : ∀ w, SignedNumeral (2 ^ 31 - 1) text w ↔ parseI32 text = some w :=
    fun w => Numerals.readSigned_eq_some.symm
  unfold OffsetPart
  simp only [hread]
  cases parseI32 text with
  | none => simp
  | some w => simp [eq_comm]

theorem OffsetTail.byteLen_eq (h : OffsetTail tail) : byteLen tail = 6 := by
  obtain ⟨sign, hours, mins, -, -, rfl, hsign, hhours, hmins, -⟩ := h
  rw [byteLen_cons, byteLen_append, byteLen_cons ':', byteLen_sign hsign, hhours, hmins,
    byteLen_colon]

variable {front' : List Char}

/-- Two divisions of a text whose last parts are equally long. -/
theorem append_inj_of_byteLen {tail' : List Char} (h : front ++ tail = front' ++ tail')
    (hlen : byteLen tail = byteLen tail') : front = front' ∧ tail = tail' := by
  have hsplit : splitAt (front ++ tail) (byteLen front) = some (front, tail) :=
    splitAt_eq_some.mpr ⟨rfl, rfl⟩
  have hsplit' : splitAt (front ++ tail) (byteLen front) = some (front', tail') := by
    refine splitAt_eq_some.mpr ⟨h, ?_⟩
    have hsum := congrArg byteLen h
    rw [byteLen_append, byteLen_append] at hsum
    show byteLen front' = byteLen front
    omega
  rw [hsplit] at hsplit'
  cases hsplit'
  exact ⟨rfl, rfl⟩

theorem offsetTail_iff {hours mins : List Char} (hsign : isSign sign)
    (hhours : byteLen hours = 2) (hmins : byteLen mins = 2) :
    OffsetTail (sign :: (hours ++ ':' :: mins)) ↔
      -86400 < (parseI32 hours).getD 0 * 3600 + (parseI32 mins).getD 0 * 60 ∧
        (parseI32 hours).getD 0 * 3600 + (parseI32 mins).getD 0 * 60 < 86400 := by
  constructor
  · rintro ⟨sign', hours', mins', h, m, htext, -, hhours', hmins', hh, hm, hday⟩
    obtain ⟨rfl, hparts⟩ := cons.inj htext
    have hlens : byteLen (':' :: mins) = byteLen (':' :: mins') := by
      rw [byteLen_cons, hmins, byteLen_cons ':' mins', hmins']
    obtain ⟨rfl, hmins⟩ := append_inj_of_byteLen hparts hlens
    obtain rfl := (cons.inj hmins).2
    rw [offsetPart_iff.mp hh, offsetPart_iff.mp hm] at hday
    exact hday
  · exact fun hday => ⟨sign, hours, mins, _, _, rfl, hsign, hhours, hmins, offsetPart_iff.mpr rfl,
      offsetPart_iff.mpr rfl, hday⟩

/-- What is done with the last six bytes. -/
theorem parseTzSuffix_of_tail (hz : stripSuffix 'Z' s = none) (hs : s = front ++ tail)
    (hlen : byteLen tail = 6) :
    (OffsetTail tail → ∃ offset, parseTzSuffix s = ok (front, offset)) ∧
      (¬ OffsetTail tail → parseTzSuffix s = ok (s, none)) := by
  have hsix : 6 ≤ byteLen s := by
    rw [hs, byteLen_append]
    omega
  rw [parseTzSuffix, hz]
  dsimp only
  rw [if_pos hsix, (cutTail_eq_ok hsix).mpr ⟨hs, hlen⟩, ok_bind]
  dsimp only
  split
  · next hlike =>
    obtain ⟨sign, hours, mins, rfl, hsign, hhours, hmins⟩ := (offsetLike_iff hlen).mp hlike
    obtain ⟨hslice, hslice'⟩ := slices_of_offset hsign hhours hmins
    rw [hslice, ok_bind, hslice', ok_bind,
      totalSecs_eq (getD_parseI32_bound (by omega)) (getD_parseI32_bound (by omega)), ok_bind,
      FixedOffset.eastOpt, offsetTail_iff hsign hhours hmins]
    generalize (parseI32 hours).getD 0 * 3600 + (parseI32 mins).getD 0 * 60 = secs
    have hsigned : (-86400 < (if sign = '-' then -1 else 1) * secs ∧
        (if sign = '-' then -1 else 1) * secs < 86400) ↔ -86400 < secs ∧ secs < 86400 := by
      split <;> omega
    constructor
    · intro hday
      rw [headD_cons, dif_pos (hsigned.mpr hday)]
      exact ⟨_, rfl⟩
    · intro hday
      rw [headD_cons, dif_neg (hsigned.not.mpr hday)]
  · next hlike =>
    have hno : ¬ OffsetTail tail := by
      rintro ⟨sign, hours, mins, -, -, htail, hsign, hhours, hmins, -⟩
      exact hlike ((offsetLike_iff hlen).mpr ⟨sign, hours, mins, htail, hsign, hhours, hmins⟩)
    exact ⟨fun htail => absurd htail hno, fun _ => rfl⟩

theorem dividesTz_of_not_offset (hlast : s.getLast? ≠ some 'Z')
    (hnever : ∀ front' tail, s = front' ++ tail → ¬ OffsetTail tail) :
    (∃ tz, DividesTz s front tz) ↔ s = front := by
  constructor
  · rintro ⟨tz, htext, rfl | ⟨-, htail | ⟨rfl, -⟩⟩⟩
    · rw [htext, getLast?_concat] at hlast
      exact absurd rfl hlast
    · exact absurd htail (hnever front tz htext)
    · rw [htext, append_nil]
  · rintro rfl
    exact ⟨[], (append_nil s).symm, .inr ⟨hlast, .inr ⟨rfl, hnever⟩⟩⟩

theorem dividesTz_of_offset (hlast : s.getLast? ≠ some 'Z') (hs : s = front' ++ tail)
    (htail : OffsetTail tail) : (∃ tz, DividesTz s front tz) ↔ front' = front := by
  constructor
  · rintro ⟨tz, htext, rfl | ⟨-, htz | ⟨rfl, hnone⟩⟩⟩
    · rw [htext, getLast?_concat] at hlast
      exact absurd rfl hlast
    · exact (append_inj_of_byteLen (hs.symm.trans htext)
        (htail.byteLen_eq.trans htz.byteLen_eq.symm)).1
    · exact absurd htail (hnone front' tail hs)
  · rintro rfl
    exact ⟨tail, hs, .inr ⟨hlast, .inl htail⟩⟩

theorem dividesTz_of_z : (∃ tz, DividesTz (front' ++ ['Z']) front tz) ↔ front' = front := by
  constructor
  · rintro ⟨tz, htext, rfl | ⟨hlast, -⟩⟩
    · exact (append_inj' htext rfl).1
    · rw [getLast?_concat] at hlast
      exact absurd rfl hlast
  · rintro rfl
    exact ⟨['Z'], rfl, .inl rfl⟩

/-- The suffix of a timezone is cut off as the text is divided. -/
theorem parseTzSuffix_iff :
    (∃ offset, parseTzSuffix s = ok (front, offset)) ↔
      ¬ TailCut s ∧ ∃ tz, DividesTz s front tz := by
  rw [← parseTzSuffix_eq_panic]
  cases hz : stripSuffix 'Z' s with
  | some stripped =>
    have hparse : parseTzSuffix s = ok (stripped, FixedOffset.eastOpt 0) := by
      rw [parseTzSuffix, hz]
    rw [hparse, stripSuffix_eq_some.mp hz, dividesTz_of_z]
    simp
  | none =>
    have hlast := stripSuffix_eq_none.mp hz
    have hwhole : parseTzSuffix s = ok (s, none) →
        (∀ front' tail, s = front' ++ tail → ¬ OffsetTail tail) →
          ((∃ offset, parseTzSuffix s = ok (front, offset)) ↔
            parseTzSuffix s ≠ panic ∧ ∃ tz, DividesTz s front tz) := by
      intro hparse hnever
      rw [dividesTz_of_not_offset hlast hnever, hparse]
      simp
    by_cases hcut : ∃ front' tail, s = front' ++ tail ∧ byteLen tail = 6
    · obtain ⟨front', tail, hs, hlen⟩ := hcut
      obtain ⟨hoffset, hnone⟩ := parseTzSuffix_of_tail hz hs hlen
      by_cases htail : OffsetTail tail
      · obtain ⟨offset, hparse⟩ := hoffset htail
        rw [hparse, dividesTz_of_offset hlast hs htail]
        simp
      · refine hwhole (hnone htail) fun f t htext h => htail ?_
        obtain ⟨-, rfl⟩ :=
          append_inj_of_byteLen (hs.symm.trans htext) (hlen.trans h.byteLen_eq.symm)
        exact h
    · have hnever : ∀ f t, s = f ++ t → ¬ OffsetTail t :=
        fun f t htext h => hcut ⟨f, t, htext, h.byteLen_eq⟩
      by_cases hlen : 6 ≤ byteLen s
      · have hpanic : parseTzSuffix s = panic := by
          refine parseTzSuffix_eq_panic.mpr ⟨hlast, hlen, ?_⟩
          rw [← cutTail_eq_panic, cutTail, orPanic_eq_panic, eq_none_iff_forall_ne_some]
          rintro ⟨f, t⟩ hsplit
          have hok : cutTail s = ok (f, t) := orPanic_eq_ok.mpr hsplit
          exact hcut ⟨f, t, (cutTail_eq_ok hlen).mp hok⟩
        simp [hpanic]
      · have hparse : parseTzSuffix s = ok (s, none) := by
          rw [parseTzSuffix, hz]
          exact if_neg hlen
        exact hwhole hparse hnever

/-! ### Dates and times of day -/

theorem readOffset_ne_panic (h : byteLen offsetStr ≤ 5) : readOffset sign offsetStr ≠ panic := by
  unfold readOffset
  split
  · next hours c mins hcut =>
    obtain ⟨rfl, -, -⟩ := splitFirst_eq_some.mp hcut
    rw [byteLen_append, byteLen_cons] at h
    split
    · next v w hv hw =>
      rw [totalSecs_eq (parseI32_bound (by omega) hv) (parseI32_bound (by omega) hw)]
      simp
    · simp
  · simp

theorem tryOffset_ne_panic {α : Type} (h : byteLen offsetStr ≤ 5)
    (reads : List (List Char → Option α)) : tryOffset front sign offsetStr reads ≠ panic := by
  induction reads with
  | nil => simp [tryOffset]
  | cons read reads ih =>
    rw [tryOffset]
    split
    · intro hpanic
      rcases bind_eq_panic.mp hpanic with hread | ⟨offset, -, hpanic⟩
      · exact readOffset_ne_panic h hread
      · split at hpanic
        · cases hpanic
        · exact ih hpanic
    · exact ih

/-- Two separators with digits around them: every byte is one or the other. -/
theorem digit_or_separator {b : List UInt8} {sep x : UInt8} {i j : ℕ} (hlen : b.length = j + 3)
    (hij : i < j) (hi : b[i]? = some sep) (hj : b[j]? = some sep) (h1 : (b.take i).all isAsciiDigit)
    (h2 : ((b.drop (i + 1)).take (j - (i + 1))).all isAsciiDigit)
    (h3 : ((b.drop (j + 1)).take 2).all isAsciiDigit) (hx : x ∈ b) : isAsciiDigit x ∨ x = sep := by
  obtain ⟨n, hn, rfl⟩ := mem_iff_getElem.mp hx
  have hget : b[n]? = some b[n] := getElem?_eq_getElem hn
  rcases lt_trichotomy n i with h | rfl | h
  · refine .inl (all_eq_true.mp h1 _ (mem_of_getElem? (i := n) ?_))
    rw [getElem?_take_of_lt h, hget]
  · exact .inr (some.inj (hget.symm.trans hi))
  rcases lt_trichotomy n j with h' | rfl | h'
  · refine .inl (all_eq_true.mp h2 _ (mem_of_getElem? (i := n - (i + 1)) ?_))
    rw [getElem?_take_of_lt (by omega), getElem?_drop]
    rw [show i + 1 + (n - (i + 1)) = n by omega, hget]
  · exact .inr (some.inj (hget.symm.trans hj))
  · refine .inl (all_eq_true.mp h3 _ (mem_of_getElem? (i := n - (j + 1)) ?_))
    rw [getElem?_take_of_lt (by omega), getElem?_drop]
    rw [show j + 1 + (n - (j + 1)) = n by omega, hget]

/-- A strict date has no colon outside its offset. -/
theorem colon_not_mem_datePart {datePart : List Char} (hlen : byteLen datePart = 10)
    {tz : Bool} (h : let b := bytes datePart
      (b[4]? == some '-'.toUInt8 && b[7]? == some '-'.toUInt8 && (b.take 4).all isAsciiDigit &&
        ((b.drop 5).take 2).all isAsciiDigit && ((b.drop 8).take 2).all isAsciiDigit && tz) = true) :
    ':' ∉ datePart := by
  intro hmem
  simp only [Bool.and_eq_true, beq_iff_eq] at h
  obtain ⟨⟨⟨⟨⟨h4, h7⟩, hyear⟩, hmonth⟩, hday⟩, -⟩ := h
  rcases digit_or_separator (i := 4) (j := 7) hlen (by decide) h4 h7 hyear hmonth hday
    (mem_bytes_of_ascii hmem (by decide)) with hdigit | hdash
  · exact absurd hdigit (by decide)
  · exact absurd hdash (by decide)

theorem byteLen_of_isStrictOffset {tz : List Char} (h : isStrictOffset tz) (hz : tz ≠ ['Z']) :
    byteLen tz = 6 := by
  unfold isStrictOffset at h
  rw [if_neg hz] at h
  by_contra hlen
  rw [if_pos hlen] at h
  exact Bool.false_ne_true h

variable {back : List Char}

/-- Behind the last sign of a strict date there is an offset of six bytes, or no colon. -/
theorem offset_of_isStrictDateLexical (h : isStrictDateLexical s)
    (hcut : splitLast isSign s = some (front, sign, back)) (hcolon : ':' ∈ back) :
    byteLen back ≤ 5 := by
  obtain ⟨hs, hsign, -⟩ := splitLast_eq_some.mp hcut
  have hmem : ':' ∈ s := hs ▸ mem_append_right _ (mem_cons_of_mem _ hcolon)
  unfold isStrictDateLexical at h
  rw [hcut] at h
  cases hz : stripSuffix 'Z' s with
  | some =>
    rw [hz] at h
    dsimp only at h
    split at h
    · exact absurd h Bool.false_ne_true
    · next hlen =>
      refine absurd ?_ (colon_not_mem_datePart (not_not.mp hlen) h)
      rw [stripSuffix_eq_some.mp hz] at hmem
      simpa using hmem
  | none =>
    rw [hz] at h
    dsimp only at h
    by_cases hten : byteLen front = 10
    · rw [if_pos hten] at h
      rw [if_neg (not_not.mpr hten)] at h
      simp only [Bool.and_eq_true] at h
      have hlen := byteLen_of_isStrictOffset h.2 (by rintro ⟨⟩; exact absurd hsign (by decide))
      rw [byteLen_cons, byteLen_sign hsign] at hlen
      omega
    · rw [if_neg hten] at h
      split at h
      · exact absurd h Bool.false_ne_true
      · next hlen => exact absurd hmem (colon_not_mem_datePart (not_not.mp hlen) h)

/-- A date is read or rejected, whatever the text. -/
theorem Date.parse_safe (chrono : Chrono) (s : String) : Date.parse chrono s ≠ panic := by
  unfold parse
  dsimp only
  split
  · simp
  · next hstrict =>
    have hstrict : isStrictDateLexical s.toList := by simpa using hstrict
    split
    · simp
    · intro hpanic
      rcases bind_eq_panic.mp hpanic with hfound | ⟨found, -, hpanic⟩
      · unfold withOffset at hfound
        split at hfound
        · next front sign back hcut =>
          split at hfound
          · next hcolon =>
            exact tryOffset_ne_panic
              (offset_of_isStrictDateLexical hstrict hcut hcolon.2) _ hfound
          · cases hfound
        · cases hfound
      · split at hpanic
        · cases hpanic
        · split at hpanic <;> cases hpanic

/-- A strict time has no sign outside its offset. -/
theorem sign_not_mem_timePart {timePart : List Char} (h : isStrictTimePart timePart) :
    ∀ c ∈ timePart, isSign c = false := by
  have hmain : ∀ main : List Char, (let b := bytes main
      (b.length == 8 && b[2]? == some ':'.toUInt8 && b[5]? == some ':'.toUInt8 &&
        (b.take 2).all isAsciiDigit && ((b.drop 3).take 2).all isAsciiDigit &&
          ((b.drop 6).take 2).all isAsciiDigit) = true) → ∀ c ∈ main, isSign c = false := by
    intro main h c hc
    simp only [Bool.and_eq_true, beq_iff_eq] at h
    obtain ⟨⟨⟨⟨⟨hlen, h2⟩, h5⟩, hhour⟩, hmin⟩, hsec⟩ := h
    by_contra hsign
    rw [Bool.not_eq_false, isSign_iff] at hsign
    have hbyte := digit_or_separator (i := 2) (j := 5) hlen (by decide) h2 h5 hhour hmin hsec
      (mem_bytes_of_ascii hc (by rcases hsign with rfl | rfl <;> decide))
    rcases hsign with rfl | rfl <;> exact absurd hbyte (by decide)
  unfold isStrictTimePart at h
  cases hdot : splitFirst (· == '.') timePart with
  | none =>
    rw [hdot] at h
    exact hmain timePart h
  | some cut =>
    obtain ⟨main, dot, frac⟩ := cut
    obtain ⟨rfl, hpoint, -⟩ := splitFirst_eq_some.mp hdot
    obtain rfl : dot = '.' := by simpa using hpoint
    rw [hdot] at h
    dsimp only at h
    split at h
    · exact absurd h Bool.false_ne_true
    · next hfrac =>
      intro c hc
      rcases mem_append.mp hc with hc | hc
      · exact hmain main h c hc
      · rcases mem_cons.mp hc with rfl | hc
        · decide
        · have hdigits : frac.all Char.isDigit := by
            rw [Bool.or_eq_true, not_or] at hfrac
            simpa using hfrac.2
          have hdigit := all_eq_true.mp hdigits c hc
          by_contra hsign
          rw [Bool.not_eq_false, isSign_iff] at hsign
          rcases hsign with rfl | rfl <;> exact absurd hdigit (by decide)

/-- Text that ends in a sign and five bytes has no more than these behind its last sign. -/
theorem byteLen_back_le {front' rest : List Char} {sign' : Char} (hs : s = front ++ sign :: back)
    (hback : ∀ c ∈ back, isSign c = false) (hs' : s = front' ++ sign' :: rest)
    (hsign' : isSign sign') (hrest : byteLen rest ≤ 5) : byteLen back ≤ 5 := by
  rcases append_eq_append_iff.mp (hs.symm.trans hs') with
    ⟨x, -, hx⟩ | ⟨x, -, hx⟩
  · cases x with
    | nil =>
      cases hx
      exact hrest
    | cons =>
      cases hx
      exact absurd hsign' (by simp [hback])
  · cases x with
    | nil =>
      cases hx
      exact hrest
    | cons c =>
      obtain ⟨-, rfl⟩ := cons_eq_cons.mp hx
      rw [append_eq, byteLen_append, byteLen_cons] at hrest
      omega

/-- Behind the last sign of a strict time there is an offset of six bytes. -/
theorem offset_of_isStrictTimeLexical (h : isStrictTimeLexical s = ok true)
    (hcut : splitLast isSign s = some (front, sign, back)) : byteLen back ≤ 5 := by
  obtain ⟨hs, hsign, hback⟩ := splitLast_eq_some.mp hcut
  have hmem : sign ∈ s := hs ▸ mem_append_right _ (mem_cons_self ..)
  rw [isStrictTimeLexical, bind_eq_ok] at h
  obtain ⟨⟨timePart, tzPart⟩, hparts, h⟩ := h
  obtain ⟨hstrict, -⟩ : isStrictTimePart timePart ∧ tzPart.all isStrictOffset := by simpa using h
  have hnone := sign_not_mem_timePart hstrict
  have habsurd : timePart = s → byteLen back ≤ 5 := by
    rintro rfl
    exact absurd hsign (by simp [hnone sign hmem])
  unfold splitTimezone at hparts
  cases hz : stripSuffix 'Z' s with
  | some =>
    rw [hz] at hparts
    cases hparts
    rw [stripSuffix_eq_some.mp hz, mem_append, mem_singleton] at hmem
    rcases hmem with hmem | rfl
    · exact absurd hsign (by simp [hnone sign hmem])
    · exact absurd hsign (by decide)
  | none =>
    rw [hz] at hparts
    dsimp only at hparts
    split at hparts
    · next hlen =>
      obtain ⟨⟨front', tail⟩, htail, hparts⟩ := bind_eq_ok.mp hparts
      obtain ⟨hs', htaillen⟩ := (cutTail_eq_ok hlen).mp htail
      split at hparts
      · next hlike =>
        obtain ⟨sign', hours, mins, rfl, hsign', hhours, hmins⟩ :=
          (offsetLike_iff htaillen).mp hlike
        refine byteLen_back_le hs hback hs' hsign' ?_
        rw [byteLen_append, byteLen_cons, byteLen_colon, hhours, hmins]
      · cases hparts
        exact habsurd rfl
    · cases hparts
      exact habsurd rfl

theorem isStrictTimeLexical_eq_panic : isStrictTimeLexical s = panic ↔ TailCut s := by
  have hsplit : isStrictTimeLexical s = panic ↔ splitTimezone s = panic := by
    rw [isStrictTimeLexical, bind_eq_panic]
    exact or_iff_left fun ⟨_, _, hpanic⟩ => by cases hpanic
  rw [hsplit]
  exact tail_eq_panic fun _ _ _ => by simp

/-- A time panics at the cut in front of its last six bytes and nowhere else. -/
theorem Time.parse_eq_panic (chrono : Chrono) (s : String) :
    Time.parse chrono s = panic ↔ TailCut s.toList := by
  rw [← isStrictTimeLexical_eq_panic, parse, bind_eq_panic]
  refine or_iff_left ?_
  rintro ⟨strict, hstrict, hpanic⟩
  cases strict with
  | false => cases hpanic
  | true =>
    rw [if_neg (by decide)] at hpanic
    split at hpanic
    · cases hpanic
    · rcases bind_eq_panic.mp hpanic with hfound | ⟨found, -, hpanic⟩
      · unfold withOffset at hfound
        split at hfound
        · next front sign back hcut =>
          split at hfound
          · exact tryOffset_ne_panic (offset_of_isStrictTimeLexical hstrict hcut) _ hfound
          · cases hfound
        · cases hfound
      · split at hpanic
        · cases hpanic
        · split at hpanic <;> cases hpanic

end FlureeDb.Core
