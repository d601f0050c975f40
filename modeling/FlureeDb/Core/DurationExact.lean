import FlureeDb.Core.GregorianExact

/-!
The parser of durations of years and months, and what all parsers of durations share: the sign
and the letter P in front, the components in front of their units, and the characters of a
literal. Years and months are added up when the whole text has been read. The parser panics when
that sum leaves its type; what it accepts is exact if it has no sign but the one in front.
-/

namespace FlureeDb.Core

open Lib List Outcome YearMonthDuration
open Lib.Numerals (Numeral SignedNumeral value)
open Xsd (signText signed field fieldValue Unsigned)

variable {unit : Char} {text : List Char}

theorem takeUnit_iff {rest : List Char} {before : Option (List Char)} :
    takeUnit unit text = (before, rest) ↔
      text = field before unit ++ rest ∧ (∀ t ∈ before, unit ∉ t) ∧
        (before = none → unit ∉ rest) := by
  unfold takeUnit
  cases hcut : Utf8.splitFirst (· == unit) text with
  | some cut =>
    obtain ⟨front, c, back⟩ := cut
    obtain ⟨rfl, hc, hfront⟩ := Utf8.splitFirst_eq_some.mp hcut
    obtain rfl : c = unit := by simpa using hc
    have hnot : c ∉ front := fun hmem => by simpa using hfront c hmem
    constructor
    · intro h
      cases h
      refine ⟨by simp, ?_, by simp⟩
      rintro t ⟨⟩
      exact hnot
    · rintro ⟨htext, hbefore, hnone⟩
      cases before with
      | none => exact absurd (by simp [← (show _ = rest from htext)]) (hnone rfl)
      | some t =>
        have hsplit : Utf8.splitFirst (· == c) (front ++ c :: back) = some (t, c, rest) := by
          refine Utf8.splitFirst_eq_some.mpr ⟨by simpa using htext, by simp, ?_⟩
          intro d hd
          exact beq_eq_false_iff_ne.mpr fun hdc => hbefore t rfl (hdc ▸ hd)
        rw [hcut] at hsplit
        cases hsplit
        rfl
  | none =>
    have hnot : unit ∉ text := fun hmem => by
      simpa using Utf8.splitFirst_eq_none.mp hcut unit hmem
    constructor
    · intro h
      cases h
      exact ⟨rfl, by simp, fun _ => hnot⟩
    · rintro ⟨htext, -, -⟩
      cases before with
      | none =>
        rw [show text = rest from htext]
      | some t => exact absurd (htext ▸ by simp) hnot

theorem takeUnit_eq (unit : Char) (text : List Char) :
    text = field (takeUnit unit text).1 unit ++ (takeUnit unit text).2 :=
  (takeUnit_iff.mp rfl).1

variable {negative : Bool} {s : String} {message : String} {body : List Char}

theorem durationBody_eq_ok :
    durationBody message s = ok (negative, body) ↔
      s.toList = signText negative ++ 'P' :: body := by
  unfold durationBody
  simp only [bind_eq_ok, orErr_eq_ok, stripPrefix_eq_some]
  cases hminus : stripPrefix '-' s.toList with
  | some rest =>
    rw [stripPrefix_eq_some.mp hminus]
    constructor
    · rintro ⟨text, rfl, ⟨⟩⟩
      rfl
    · intro h
      cases negative with
      | true =>
        cases h
        exact ⟨body, rfl, rfl⟩
      | false => cases h
  | none =>
    rw [stripPrefix_eq_none] at hminus
    constructor
    · rintro ⟨text, htext, ⟨⟩⟩
      exact htext
    · intro h
      cases negative with
      | true => exact absurd (by rw [h]; rfl) hminus
      | false => exact ⟨body, h, rfl⟩

theorem durationBody_ne_panic (message s : String) : durationBody message s ≠ panic := by
  unfold durationBody
  split
  simp [bind_eq_panic]

/-- Text without a sign. -/
def Plain (text : List Char) : Prop := '+' ∉ text ∧ '-' ∉ text

theorem plain_append {front back : List Char} : Plain (front ++ back) ↔ Plain front ∧ Plain back := by
  simp only [Plain, mem_append, not_or]
  exact and_and_and_comm

theorem unsigned_iff : Unsigned (signText negative ++ 'P' :: body) ↔ Plain body := by
  cases negative <;> simp [Unsigned, signText, Plain]

theorem Plain.of_field (h : Plain (field (some text) unit)) : Plain text :=
  (plain_append.mp h).1

variable {c : Char} {v : ℤ}

section

variable {max : ℕ} (h : SignedNumeral max text v)

include h

theorem SignedNumeral.chars : ∀ c ∈ text, c.isDigit ∨ isSign c := by
  intro c hc
  rcases h with ⟨ds, rfl | rfl, hnum, -⟩ | ⟨ds, rfl, hnum, -⟩
  · exact .inl (hnum.2 c hc)
  · rcases mem_cons.mp hc with rfl | hc
    · exact .inr rfl
    · exact .inl (hnum.2 c hc)
  · rcases mem_cons.mp hc with rfl | hc
    · exact .inr rfl
    · exact .inl (hnum.2 c hc)

theorem SignedNumeral.not_mem (hdigit : c.isDigit = false) (hsign : isSign c = false) :
    c ∉ text := by
  intro hc
  rcases SignedNumeral.chars h c hc with h | h
  · exact absurd h (by simp [hdigit])
  · exact absurd h (by simp [hsign])

end

/-! ### Years and months -/

/-- The value of a component, zero if it is not there. -/
def Reads (text : Option (List Char)) (v : ℤ) : Prop :=
  match text with
  | some text => SignedNumeral (2 ^ 31 - 1) text v
  | none => v = 0

/-- Text with the components of years and months and nothing else. -/
def YearMonthDuration.Shape (s : List Char) (negative : Bool) (years months : Option (List Char))
    (y m : ℤ) : Prop :=
  s = signText negative ++ 'P' :: (field years 'Y' ++ field months 'M') ∧
    (years.isSome ∨ months.isSome) ∧ Reads years y ∧ Reads months m

/-- Twelve times the years, the sum with the months, or its negation is out of range. -/
def YearMonthDuration.TotalOverruns (negative : Bool) (y m : ℤ) : Prop :=
  ¬ Fits 32 (y * 12) ∨ ¬ Fits 32 (y * 12 + m) ∨ negative ∧ ¬ Fits 32 (-(y * 12 + m))

variable {digits : Option (List Char)}

theorem YearMonthDuration.component_eq_ok : component message digits = ok v ↔ Reads digits v := by
  cases digits with
  | none => simp [component, Reads, eq_comm]
  | some text => rw [component, orErr_eq_ok, Reads, parseI32, Numerals.readSigned_eq_some]

theorem YearMonthDuration.component_ne_panic (message : String) (digits : Option (List Char)) :
    component message digits ≠ panic := by
  cases digits <;> simp [component]

variable {y m : ℤ}

theorem YearMonthDuration.total_spec :
    (YearMonthDuration.TotalOverruns negative y m → total negative y m = panic) ∧
      (¬ YearMonthDuration.TotalOverruns negative y m →
        total negative y m = ok (signed negative (y * 12 + m))) := by
  unfold total TotalOverruns negateIf signed
  by_cases hy : Fits 32 (y * 12)
  · rw [checked_eq_ok.mpr ⟨hy, rfl⟩, ok_bind]
    by_cases hsum : Fits 32 (y * 12 + m)
    · rw [checked_eq_ok.mpr ⟨hsum, rfl⟩]
      cases negative <;> simp [hy, hsum]
    · rw [checked_eq_panic.mpr hsum]
      simp [hsum]
  · rw [checked_eq_panic.mpr hy]
    simp [hy]

theorem not_mem_field (h : Reads digits v) (hdigit : c.isDigit = false) (hsign : isSign c = false)
    (hunit : c ≠ unit) : c ∉ field digits unit := by
  cases digits with
  | none => simp
  | some text =>
    have hnot := SignedNumeral.not_mem h hdigit hsign
    simp [hnot, hunit]

theorem YearMonthDuration.parse_of_shape {years months : Option (List Char)}
    (h : YearMonthDuration.Shape s.toList negative years months y m) :
    parse s =
      total negative y m >>= fun total => ok ⟨⟨total⟩, s⟩ := by
  obtain ⟨htext, hsome, hy, hm⟩ := h
  have hletter : ∀ c, c.isDigit = false ∧ isSign c = false ∧ c ≠ 'Y' ∧ c ≠ 'M' →
      c ∉ field years 'Y' ++ field months 'M' := by
    rintro c ⟨hdigit, hsign, hyear, hmonth⟩ hc
    exact (mem_append.mp hc).elim (not_mem_field hy hdigit hsign hyear)
      (not_mem_field hm hdigit hsign hmonth)
  have hyears : takeUnit 'Y' (field years 'Y' ++ field months 'M') =
      (years, field months 'M') := by
    refine takeUnit_iff.mpr ⟨rfl, ?_, fun _ => not_mem_field hm (by decide) (by decide) (by decide)⟩
    rintro text ⟨⟩
    exact SignedNumeral.not_mem hy (by decide) (by decide)
  have hmonths : takeUnit 'M' (field months 'M') = (months, []) := by
    refine takeUnit_iff.mpr ⟨(append_nil _).symm, ?_, by simp⟩
    rintro text ⟨⟩
    exact SignedNumeral.not_mem hm (by decide) (by decide)
  have hfound : (!(years.isSome || months.isSome)) = false := by
    rw [Bool.not_eq_false', Bool.or_eq_true]
    exact hsome
  rw [parse, durationBody_eq_ok.mpr htext, ok_bind]
  dsimp only
  rw [if_neg (not_or.mpr ⟨hletter _ (by decide), hletter _ (by decide)⟩), hyears]
  rw [component_eq_ok.mpr hy, ok_bind, hmonths]
  rw [component_eq_ok.mpr hm, ok_bind, hfound,
    if_neg Bool.false_ne_true, if_neg (by simp)]

theorem YearMonthDuration.shape_of_parse (h : ∀ e, parse s ≠ err e) :
    ∃ negative years months y m, YearMonthDuration.Shape s.toList negative years months y m := by
  obtain ⟨⟨negative, body⟩, hbody, h⟩ := (bind_ne_err h).resolve_left (durationBody_ne_panic _ _)
  dsimp only at h
  split at h
  · exact absurd rfl (h _)
  obtain ⟨y, hy, h⟩ := (bind_ne_err h).resolve_left (component_ne_panic _ _)
  obtain ⟨m, hm, h⟩ := (bind_ne_err h).resolve_left (component_ne_panic _ _)
  split at h
  · exact absurd rfl (h _)
  next hfound =>
    split at h
    · exact absurd rfl (h _)
    next hrest =>
      rw [Bool.not_eq_true, Bool.not_eq_false', Bool.or_eq_true] at hfound
      refine ⟨negative, _, _, y, m, ?_, hfound, component_eq_ok.mp hy, component_eq_ok.mp hm⟩
      have hmonths := takeUnit_eq 'M' (takeUnit 'Y' body).2
      rw [not_not.mp hrest, append_nil] at hmonths
      rw [durationBody_eq_ok.mp hbody, ← hmonths, ← takeUnit_eq]

/-- Components that are unsigned numbers, as fields. -/
theorem numeral_of_reads (h : Reads digits v) (hplain : Plain (field digits unit)) :
    (∀ ds ∈ digits, Numeral ds) ∧ v = fieldValue digits := by
  cases digits with
  | none => exact ⟨by simp, h⟩
  | some text =>
    obtain ⟨hnum, rfl⟩ := Numerals.SignedNumeral.of_plain h hplain.of_field.1 hplain.of_field.2
    exact ⟨by rintro ds ⟨⟩; exact hnum, rfl⟩

/-! ### The characters of a literal -/

/-- The units of the fields, the letter in front of the time, and the point. -/
def literalLetters : List Char := ['Y', 'M', 'D', 'T', 'H', 'S', '.']

theorem field_chars (h : ∀ ds ∈ digits, Numeral ds)
    (hunit : unit ∈ literalLetters) : ∀ c ∈ field digits unit, c.isDigit ∨ c ∈ literalLetters := by
  cases digits with
  | none => simp
  | some ds =>
    exact forall_mem_append.mpr
      ⟨fun c hc => .inl ((h ds rfl).2 c hc), forall_mem_singleton.mpr (.inr hunit)⟩

theorem Xsd.Seconds.Valid.chars {sec : Xsd.Seconds} (h : sec.Valid) :
    ∀ c ∈ sec.text, c.isDigit ∨ c ∈ literalLetters := by
  obtain ⟨whole, fraction⟩ := sec
  have hwhole : ∀ c ∈ whole, c.isDigit ∨ c ∈ literalLetters := fun c hc => .inl (h.1.2 c hc)
  cases fraction with
  | none => exact hwhole
  | some frac =>
    exact forall_mem_append.mpr ⟨hwhole, forall_mem_cons.mpr
      ⟨.inr (by decide), fun c hc => .inl ((h.2 frac rfl).2 c hc)⟩⟩

theorem Xsd.TimeFields.Valid.chars {t : Xsd.TimeFields} (h : t.Valid) :
    ∀ c ∈ t.text, c.isDigit ∨ c ∈ literalLetters := by
  refine forall_mem_append.mpr ⟨field_chars h.2.1 (by decide),
    forall_mem_append.mpr ⟨field_chars h.2.2.1 (by decide), ?_⟩⟩
  cases hsec : t.seconds with
  | none => simp
  | some sec =>
    exact forall_mem_append.mpr
      ⟨(h.2.2.2 sec hsec).chars, forall_mem_singleton.mpr (.inr (by decide))⟩

variable {f : Xsd.Fields}

theorem Xsd.Fields.Valid.chars (h : f.Valid) : ∀ c ∈ f.text, c.isDigit ∨ c ∈ literalLetters := by
  refine forall_mem_append.mpr ⟨field_chars h.2.1 (by decide), forall_mem_append.mpr
    ⟨field_chars h.2.2.1 (by decide), forall_mem_append.mpr
      ⟨field_chars h.2.2.2.1 (by decide), ?_⟩⟩⟩
  cases htime : f.time with
  | none => simp
  | some t => exact forall_mem_cons.mpr ⟨.inr (by decide), (h.2.2.2.2 t htime).chars⟩

theorem Xsd.IsLiteral.unsigned {s : List Char} (h : Xsd.IsLiteral s negative f) : Unsigned s := by
  rw [h.2, unsigned_iff]
  constructor
  · intro hmem
    rcases h.1.chars _ hmem with h | h <;> exact absurd h (by decide)
  · intro hmem
    rcases h.1.chars _ hmem with h | h <;> exact absurd h (by decide)

/-- Text of years and months whose total does not overflow has no sign inside. -/
def YearMonthDuration.Regular (s : List Char) : Prop :=
  ∀ negative years months y m, YearMonthDuration.Shape s negative years months y m →
    ¬ YearMonthDuration.TotalOverruns negative y m ∧ Unsigned s

/-- A duration of years and months is read exactly if and only if its text is regular. -/
theorem YearMonthDuration.exact_iff (s : String) :
    Exact (parse s)
        (fun v => Xsd.DenotesYearMonthDuration s.toList v.months) ↔
      YearMonthDuration.Regular s.toList := by
  constructor
  · rintro ⟨hsafe, hexact⟩ negative years months y m hshape
    have hfits : ¬ YearMonthDuration.TotalOverruns negative y m := fun hover => by
      rw [parse_of_shape hshape, total_spec.1 hover] at hsafe
      exact hsafe rfl
    have hparse := parse_of_shape hshape
    rw [total_spec.2 hfits] at hparse
    obtain ⟨negative, f, hliteral, -⟩ := hexact _ hparse
    exact ⟨hfits, hliteral.unsigned⟩
  · intro hall
    refine .of_read fun hno => ?_
    obtain ⟨negative, years, months, y, m, hshape⟩ := shape_of_parse hno
    obtain ⟨hfits, hunsigned⟩ := hall _ _ _ _ _ hshape
    have hparse := parse_of_shape hshape
    rw [total_spec.2 hfits] at hparse
    obtain ⟨htext, hsome, hy, hm⟩ := hshape
    rw [htext, unsigned_iff, plain_append] at hunsigned
    obtain ⟨hyears, rfl⟩ := numeral_of_reads hy hunsigned.1
    obtain ⟨hmonths, rfl⟩ := numeral_of_reads hm hunsigned.2
    refine ⟨_, hparse, negative, ⟨years, months, none, none⟩,
      ⟨⟨?_, hyears, hmonths, by simp, by simp⟩, ?_⟩, rfl, rfl, ?_⟩
    · exact hsome.imp_right .inl
    · rw [htext]
      simp [Xsd.Fields.text]
    · simp [Xsd.Fields.totalMonths]

end FlureeDb.Core
