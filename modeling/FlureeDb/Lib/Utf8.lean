import Mathlib.Data.List.Basic

/-!
Text and its bytes. Programs index text by byte offset. An offset that is not between two
characters is no boundary, and to slice there fails. The bytes of a character that is not ASCII
are all 128 or above, so an ASCII byte is a character of its own, with a boundary on either
side.
-/

namespace FlureeDb.Lib.Utf8

open List Option

def bytes (s : List Char) : List UInt8 := s.flatMap String.utf8EncodeChar

@[simp] theorem bytes_nil : bytes [] = [] := rfl

@[simp] theorem bytes_cons (c : Char) (s : List Char) :
    bytes (c :: s) = String.utf8EncodeChar c ++ bytes s := rfl

@[simp] theorem bytes_append (a b : List Char) : bytes (a ++ b) = bytes a ++ bytes b :=
  flatMap_append

/-- The text up to a byte offset and the text from there, if the offset is a boundary. -/
def splitAt : List Char → ℕ → Option (List Char × List Char)
  | s, 0 => some ([], s)
  | [], _ + 1 => none
  | c :: s, n + 1 =>
    if n + 1 < c.utf8Size then none
    else (splitAt s (n + 1 - c.utf8Size)).map fun cut => (c :: cut.1, cut.2)

def Boundary (s : List Char) (n : ℕ) : Prop := ∃ a b, s = a ++ b ∧ (bytes a).length = n

theorem length_bytes_cons (c : Char) (s : List Char) :
    (bytes (c :: s)).length = c.utf8Size + (bytes s).length := by
  rw [bytes_cons, length_append, String.length_utf8EncodeChar]

variable {s a b : List Char} {n : ℕ}

theorem splitAt_eq_some : splitAt s n = some (a, b) ↔ s = a ++ b ∧ (bytes a).length = n := by
  fun_induction splitAt s n generalizing a with
  | case1 s =>
    constructor
    · intro h
      cases h
      exact ⟨rfl, rfl⟩
    · rintro ⟨rfl, hlength⟩
      cases a with
      | nil => rfl
      | cons c =>
        have hpos := c.utf8Size_pos
        rw [length_bytes_cons] at hlength
        omega
  | case2 n =>
    refine iff_of_false (by simp) ?_
    rintro ⟨hnil, hlength⟩
    obtain ⟨rfl, -⟩ := append_eq_nil_iff.mp hnil.symm
    simp at hlength
  | case3 c =>
    refine iff_of_false (by simp) ?_
    rintro ⟨hcons, hlength⟩
    cases a with
    | nil => simp at hlength
    | cons c' =>
      obtain ⟨rfl, -⟩ := cons_eq_cons.mp hcons
      rw [length_bytes_cons] at hlength
      omega
  | case4 c s n hle ih =>
    simp only [map_eq_some_iff, Prod.mk.injEq, Prod.exists]
    constructor
    · rintro ⟨front, back, hcut, rfl, rfl⟩
      obtain ⟨rfl, hlength⟩ := ih.mp hcut
      refine ⟨rfl, ?_⟩
      rw [length_bytes_cons]
      omega
    · rintro ⟨hcons, hlength⟩
      cases a with
      | nil => simp at hlength
      | cons c' a =>
        obtain ⟨rfl, rfl⟩ := cons_eq_cons.mp hcons
        rw [length_bytes_cons] at hlength
        exact ⟨a, b, ih.mpr ⟨rfl, by omega⟩, rfl, rfl⟩

theorem exists_splitAt_iff : (∃ cut, splitAt s n = some cut) ↔ Boundary s n := by
  constructor
  · rintro ⟨⟨a, b⟩, hcut⟩
    exact ⟨a, b, splitAt_eq_some.mp hcut⟩
  · rintro ⟨a, b, h⟩
    exact ⟨(a, b), splitAt_eq_some.mpr h⟩

theorem boundary_length (s : List Char) : Boundary s (bytes s).length :=
  ⟨s, [], (append_nil s).symm, rfl⟩

/-! ### ASCII bytes -/

variable {c : Char}

/-- An ASCII byte in the encoding of a character is all of it. -/
theorem utf8EncodeChar_of_ascii {b : UInt8} (hb : b ∈ String.utf8EncodeChar c)
    (hascii : b.toNat < 128) : String.utf8EncodeChar c = [b] ∧ c.toNat = b.toNat := by
  -- every byte of a longer encoding has its top bit set
  have hhigh : ∀ n, 128 ≤ n → n < 256 → b ≠ UInt8.ofNat n := by
    rintro n hle hlt rfl
    rw [UInt8.toNat_ofNat'] at hascii
    omega
  have hval : c.val.toNat = c.toNat := rfl
  unfold String.utf8EncodeChar at hb ⊢
  dsimp only at hb ⊢
  split_ifs at hb ⊢ with h1 h2 h3
  · rw [mem_singleton] at hb
    subst hb
    refine ⟨rfl, ?_⟩
    rw [UInt8.toNat_ofNat']
    omega
  · simp only [mem_cons, not_mem_nil, or_false] at hb
    rcases hb with hb | hb
    all_goals exact absurd hb (hhigh _ (by omega) (by omega))
  · simp only [mem_cons, not_mem_nil, or_false] at hb
    rcases hb with hb | hb | hb
    all_goals exact absurd hb (hhigh _ (by omega) (by omega))
  · simp only [mem_cons, not_mem_nil, or_false] at hb
    rcases hb with hb | hb | hb | hb
    all_goals exact absurd hb (hhigh _ (by omega) (by omega))

theorem exists_char_of_ascii {b : UInt8} (hn : (bytes s)[n]? = some b) (hascii : b.toNat < 128) :
    ∃ front c back, s = front ++ c :: back ∧ (bytes front).length = n ∧
      String.utf8EncodeChar c = [b] ∧ c.toNat = b.toNat := by
  induction s generalizing n with
  | nil => simp at hn
  | cons c s ih =>
    rw [bytes_cons] at hn
    by_cases hlt : n < (String.utf8EncodeChar c).length
    · rw [getElem?_append_left hlt] at hn
      obtain ⟨henc, hc⟩ := utf8EncodeChar_of_ascii (mem_of_getElem? hn) hascii
      rw [henc, length_singleton] at hlt
      exact ⟨[], c, s, rfl, by simp; omega, henc, hc⟩
    · rw [getElem?_append_right (by omega)] at hn
      obtain ⟨front, c', back, rfl, hlength, henc, hc'⟩ := ih hn
      refine ⟨c :: front, c', back, rfl, ?_, henc, hc'⟩
      rw [bytes_cons, length_append]
      omega

theorem boundary_of_ascii {b : UInt8} (hn : (bytes s)[n]? = some b) (hascii : b.toNat < 128) :
    Boundary s n ∧ Boundary s (n + 1) := by
  obtain ⟨front, c, back, rfl, hlength, henc, -⟩ := exists_char_of_ascii hn hascii
  refine ⟨⟨front, c :: back, rfl, hlength⟩, front ++ [c], back, by simp, ?_⟩
  rw [bytes_append, length_append, hlength, bytes_cons, henc]
  rfl

theorem utf8EncodeChar_eq_of_ascii (h : c.toNat < 128) : String.utf8EncodeChar c = [c.toUInt8] := by
  have hval : c.val.toNat = c.toNat := rfl
  unfold String.utf8EncodeChar
  rw [hval, if_pos (Nat.le_of_lt_succ h)]
  rfl

theorem bytes_of_ascii (h : ∀ c ∈ s, c.toNat < 128) : bytes s = s.map Char.toUInt8 := by
  induction s with
  | nil => rfl
  | cons c s ih =>
    rw [bytes_cons, utf8EncodeChar_eq_of_ascii (h c (mem_cons_self ..)),
      ih fun d hd => h d (mem_cons_of_mem _ hd)]
    rfl

theorem length_le_bytes (s : List Char) : s.length ≤ (bytes s).length := by
  induction s with
  | nil => exact Nat.le_refl _
  | cons c =>
    have hpos := c.utf8Size_pos
    rw [length_bytes_cons, length_cons]
    omega

theorem mem_bytes_of_ascii (hc : c ∈ s) (hascii : c.toNat < 128) : c.toUInt8 ∈ bytes s :=
  mem_flatMap.mpr ⟨c, hc, by rw [utf8EncodeChar_eq_of_ascii hascii]; exact mem_singleton_self _⟩

theorem splitAt_of_ascii (h : ∀ c ∈ s, c.toNat < 128) (hn : n ≤ s.length) :
    splitAt s n = some (s.take n, s.drop n) := by
  refine splitAt_eq_some.mpr ⟨(take_append_drop n s).symm, ?_⟩
  rw [bytes_of_ascii fun c hc => h c (mem_of_mem_take hc), length_map, length_take]
  exact Nat.min_eq_left hn

/-! ### Searching -/

/-- The text before the first character that satisfies `p`, that character and the text behind
it. -/
def splitFirst (p : Char → Bool) : List Char → Option (List Char × Char × List Char)
  | [] => none
  | c :: s =>
    if p c then some ([], c, s)
    else (splitFirst p s).map fun cut => (c :: cut.1, cut.2)

/-- The same with the last such character. -/
def splitLast (p : Char → Bool) (s : List Char) : Option (List Char × Char × List Char) :=
  (splitFirst p s.reverse).map fun cut => (cut.2.2.reverse, cut.2.1, cut.1.reverse)

variable {p : Char → Bool}

theorem splitFirst_eq_some :
    splitFirst p s = some (a, c, b) ↔ s = a ++ c :: b ∧ p c ∧ ∀ d ∈ a, p d = false := by
  induction s generalizing a with
  | nil => exact iff_of_false (by simp [splitFirst]) (by simp)
  | cons d s ih =>
    rw [splitFirst]
    split
    · next hp =>
      constructor
      · intro h
        cases h
        exact ⟨rfl, hp, by simp⟩
      · rintro ⟨hcons, hc, ha⟩
        cases a with
        | nil =>
          cases hcons
          rfl
        | cons d' =>
          cases hcons
          exact absurd hp (by simp [ha])
    · next hp =>
      simp only [map_eq_some_iff, Prod.mk.injEq, Prod.exists]
      constructor
      · rintro ⟨front, c', back, hcut, rfl, rfl, rfl⟩
        obtain ⟨rfl, hc, hfront⟩ := ih.mp hcut
        exact ⟨rfl, hc, forall_mem_cons.mpr ⟨by simpa using hp, hfront⟩⟩
      · rintro ⟨hcons, hc, ha⟩
        cases a with
        | nil =>
          cases hcons
          exact absurd hc hp
        | cons d' a =>
          cases hcons
          exact ⟨a, c, b, ih.mpr ⟨rfl, hc, fun e he => ha e (mem_cons_of_mem _ he)⟩,
            rfl, rfl, rfl⟩

theorem splitFirst_eq_none : splitFirst p s = none ↔ ∀ d ∈ s, p d = false := by
  induction s with
  | nil => simp [splitFirst]
  | cons d s ih =>
    rw [splitFirst, forall_mem_cons]
    split
    · next hp => exact iff_of_false (by simp) (by simp [hp])
    · next hp => rw [map_eq_none_iff, ih, and_iff_right (by simpa using hp)]

theorem splitLast_eq_some :
    splitLast p s = some (a, c, b) ↔ s = a ++ c :: b ∧ p c ∧ ∀ d ∈ b, p d = false := by
  rw [splitLast, map_eq_some_iff]
  constructor
  · rintro ⟨⟨b', c', a'⟩, hcut, hparts⟩
    obtain ⟨hs, hc, hb⟩ := splitFirst_eq_some.mp hcut
    cases hparts
    refine ⟨?_, hc, fun d hd => hb d (mem_reverse.mp hd)⟩
    rw [← reverse_reverse s, hs]
    simp
  · rintro ⟨rfl, hc, hb⟩
    refine ⟨(b.reverse, c, a.reverse), splitFirst_eq_some.mpr ⟨by simp, hc, ?_⟩, by simp⟩
    exact fun d hd => hb d (mem_reverse.mp hd)

end FlureeDb.Lib.Utf8
