import FlureeDb.Lib.Outcome
import Mathlib.Tactic.Ring

/-!
Numbers in a commit: groups of seven bits, the lowest first, each but the last marked. A reader
takes its number off the front of the bytes and leaves the rest. The decoder looks at the group
and not at the shift, so that a number of more than ten groups shifts by more than the width of a
word, which is an overflow.
-/

namespace FlureeDb.Codec

open Lib BitVec
open Lib.Outcome (ok err panic)

inductive CommitCodecError
  | unexpectedEof
  | invalidOp (message : String)
  deriving DecidableEq

/-- What reads a value off the front of a buffer. -/
abbrev Reader := StateT (List UInt8) (Outcome CommitCodecError)

def encodeVarint (value : ℕ) : List UInt8 :=
  if value / 128 ≠ 0 then UInt8.ofNat (value % 128 + 128) :: encodeVarint (value / 128)
  else [UInt8.ofNat (value % 128)]
termination_by value
decreasing_by omega

/-- The loop of `decode_varint`. A shift by the width of a word or more overflows. -/
def varintLoop (result shift : ℕ) : Reader ℕ
  | [] => err .unexpectedEof
  | byte :: rest =>
    let payload := byte.toNat % 128
    if 63 ≤ shift ∧ 1 < payload then err (.invalidOp "varint overflow")
    else if 64 ≤ shift then panic
    else if byte.toNat < 128 then ok (result ||| payload <<< shift, rest)
    else varintLoop (result ||| payload <<< shift) (shift + 7) rest

def decodeVarint : Reader ℕ := varintLoop 0 0

/-- The number that the groups in front spell, of any size, and what follows them. -/
def spelled : List UInt8 → Option (ℕ × List UInt8)
  | [] => none
  | byte :: rest =>
    if byte.toNat < 128 then some (byte.toNat, rest)
    else (spelled rest).map fun (v, rest) => (byte.toNat % 128 + 128 * v, rest)

/-- The number is read if it fits in a word, and refused if not. -/
def ReadsExactly (bytes : List UInt8) : Prop :=
  match decodeVarint bytes with
  | .ok read => spelled bytes = some read ∧ read.1 < 2 ^ 64
  | .err _ => ∀ read ∈ spelled bytes, 2 ^ 64 ≤ read.1
  | .panic => False

/-- So many marked groups, a marked tenth of at most one, and one more of at most one. -/
def OverlongAfter : ℕ → List UInt8 → Prop
  | 0, tenth :: last :: _ =>
    128 ≤ tenth.toNat ∧ tenth.toNat % 128 ≤ 1 ∧ last.toNat % 128 ≤ 1
  | n + 1, byte :: bytes => 128 ≤ byte.toNat ∧ OverlongAfter n bytes
  | _, _ => False

/-- A group goes behind the bits that are already there. -/
theorem or_shiftLeft_eq {result shift : ℕ} (h : result < 2 ^ shift) (payload : ℕ) :
    result ||| payload <<< shift = result + payload * 2 ^ shift := by
  rw [Nat.shiftLeft_eq, Nat.or_comm, mul_comm, ← Nat.two_pow_add_eq_or_of_lt h, add_comm]

theorem le_spelled {byte : UInt8} {bytes : List UInt8} {read : ℕ × List UInt8}
    (h : read ∈ spelled (byte :: bytes)) : byte.toNat % 128 ≤ read.1 := by
  rw [spelled] at h
  split at h
  · cases h
    exact Nat.mod_le ..
  · obtain ⟨rest, -, rfl⟩ := Option.map_eq_some_iff.mp h
    exact Nat.le_add_right ..

/-- What the loop makes of the groups from the shift on. -/
def LoopSpec (result shift : ℕ) (bytes : List UInt8) :
    Outcome CommitCodecError (ℕ × List UInt8) → Prop
  | .ok (n, rest) =>
    n < 2 ^ 64 ∧ ∃ v, spelled bytes = some (v, rest) ∧ n = result + v * 2 ^ shift
  | .err _ => ∀ read ∈ spelled bytes, 2 ^ 64 ≤ result + read.1 * 2 ^ shift
  | .panic => True

variable (bytes : List UInt8)

theorem varintLoop_spec (n result : ℕ) (hn : n ≤ 10) (hresult : result < 2 ^ (7 * n)) :
    LoopSpec result (7 * n) bytes (varintLoop result (7 * n) bytes) := by
  induction bytes generalizing n result with
  | nil => exact nofun
  | cons byte bytes ih =>
    have hnext : 2 ^ (7 * (n + 1)) = 128 * 2 ^ (7 * n) := by
      rw [Nat.mul_succ, Nat.pow_add, mul_comm]
    have hgroup : byte.toNat % 128 * 2 ^ (7 * n) ≤ 127 * 2 ^ (7 * n) :=
      Nat.mul_le_mul_right _ (by omega)
    rw [varintLoop]
    split
    · next hover =>
      intro read hread
      have hshift : 2 ^ 63 ≤ 2 ^ (7 * n) := Nat.pow_le_pow_right (by decide) hover.1
      have hle := mul_le_mul (hover.2.trans_le (le_spelled hread)) hshift
      omega
    split
    · trivial
    · next hsmall hword =>
      have hfits : result + byte.toNat % 128 * 2 ^ (7 * n) < 2 ^ 64 := by
        rcases lt_or_ge n 9 with hlt | hge
        · have hpow : 2 ^ (7 * (n + 1)) ≤ 2 ^ 63 := Nat.pow_le_pow_right (by decide) (by omega)
          omega
        · obtain rfl : n = 9 := by omega
          omega
      rw [or_shiftLeft_eq hresult]
      split
      · next hlast =>
        rw [Nat.mod_eq_of_lt hlast] at hfits ⊢
        exact ⟨hfits, byte.toNat, by rw [spelled, if_pos hlast], rfl⟩
      · next hmarked =>
        have hrest := ih (n + 1) (result + byte.toNat % 128 * 2 ^ (7 * n)) (by omega) (by omega)
        have hshift : ∀ v, result + byte.toNat % 128 * 2 ^ (7 * n) + v * 2 ^ (7 * (n + 1)) =
            result + (byte.toNat % 128 + 128 * v) * 2 ^ (7 * n) := by
          intro v
          ring
        rw [Nat.mul_succ] at hrest
        revert hrest
        generalize varintLoop _ _ bytes = outcome
        intro hrest
        cases outcome with
        | ok read =>
          obtain ⟨hlt, v, hv, hread⟩ := hrest
          refine ⟨hlt, byte.toNat % 128 + 128 * v, ?_, ?_⟩
          · rw [spelled, if_neg hmarked, hv]
            rfl
          · rw [← hshift]
            exact hread
        | err =>
          intro read hread
          rw [spelled, if_neg hmarked] at hread
          obtain ⟨⟨v, rest⟩, hv, rfl⟩ := Option.map_eq_some_iff.mp hread
          have hle := hrest (v, rest) hv
          rw [← Nat.mul_succ, hshift] at hle
          exact hle
        | panic => trivial

variable {n value : ℕ}

/-- Where decoding a number overflows. -/
theorem varintLoop_eq_panic (result : ℕ) (hn : n ≤ 9) :
    varintLoop result (63 - 7 * n) bytes = panic ↔ OverlongAfter n bytes := by
  induction n generalizing bytes result with
  | zero =>
    match bytes with
    | [] => simp [varintLoop, OverlongAfter]
    | [tenth] =>
      simp only [varintLoop, OverlongAfter]
      grind
    | tenth :: last :: rest =>
      simp only [varintLoop, OverlongAfter]
      grind
  | succ n ih =>
    cases bytes with
    | nil => simp [varintLoop, OverlongAfter]
    | cons byte bytes =>
      have hshift : 63 - 7 * (n + 1) + 7 = 63 - 7 * n := by omega
      rw [OverlongAfter, ← ih bytes (result ||| (byte.toNat % 128) <<< (63 - 7 * (n + 1)))
        (by omega), varintLoop, if_neg (by omega), if_neg (by omega), hshift]
      by_cases hbyte : byte.toNat < 128
      · rw [if_pos hbyte]
        exact iff_of_false nofun fun h => absurd h.1 (by omega)
      · rw [if_neg hbyte]
        exact (and_iff_right (by omega)).symm

theorem readsExactly_iff : ReadsExactly bytes ↔ ¬ OverlongAfter 9 bytes := by
  have hspec := varintLoop_spec bytes 0 0 (by decide) (by decide)
  rw [← varintLoop_eq_panic bytes 0 (n := 9) le_rfl]
  change _ ↔ decodeVarint bytes ≠ panic
  change LoopSpec 0 0 bytes (decodeVarint bytes) at hspec
  unfold ReadsExactly
  cases hread : decodeVarint bytes with
  | ok read =>
    rw [hread] at hspec
    obtain ⟨hlt, v, hv, hn⟩ := hspec
    simp only [zero_add, pow_zero, mul_one] at hn
    exact iff_of_true ⟨by rw [hv, ← hn], hlt⟩ nofun
  | err =>
    rw [hread] at hspec
    simpa [LoopSpec] using hspec
  | panic => simp

/-! ### What is written -/

/-- One more group in front, marked. -/
theorem encodeVarint_of_div (h : value / 128 ≠ 0) :
    ∃ byte : UInt8, encodeVarint value = byte :: encodeVarint (value / 128) ∧
      byte.toNat = value % 128 + 128 := by
  rw [encodeVarint, if_pos h]
  exact ⟨_, rfl, Nat.mod_eq_of_lt (by omega)⟩

theorem encodeVarint_of_lt (value : ℕ) (h : value / 128 = 0) :
    ∃ byte : UInt8, encodeVarint value = [byte] ∧ byte.toNat = value := by
  rw [encodeVarint, if_neg (not_not.mpr h)]
  exact ⟨_, rfl, (Nat.mod_eq_of_lt (by omega)).trans (by omega)⟩

theorem spelled_encodeVarint (value : ℕ) (suffix : List UInt8) :
    spelled (encodeVarint value ++ suffix) = some (value, suffix) := by
  induction value using Nat.strongRecOn with
  | ind value ih =>
    by_cases hlast : value / 128 = 0
    · obtain ⟨byte, hencode, hbyte⟩ := encodeVarint_of_lt value hlast
      rw [hencode, List.singleton_append, spelled, if_pos (by omega), hbyte]
    · obtain ⟨byte, hencode, hbyte⟩ := encodeVarint_of_div hlast
      rw [hencode, List.cons_append, spelled, if_neg (by omega), ih _ (by omega)]
      simp only [Option.map_some, Option.some.injEq, Prod.mk.injEq, and_true]
      omega

theorem le_of_overlongAfter {suffix : List UInt8}
    (h : OverlongAfter n (encodeVarint value ++ suffix)) : 128 ^ (n + 1) ≤ value := by
  induction n generalizing value with
  | zero =>
    by_contra hlt
    obtain ⟨byte, hencode, hbyte⟩ := encodeVarint_of_lt value (by omega)
    rw [hencode] at h
    cases suffix with
    | nil => exact h
    | cons => exact absurd h.1 (by omega)
  | succ n ih =>
    by_cases hlast : value / 128 = 0
    · obtain ⟨byte, hencode, hbyte⟩ := encodeVarint_of_lt value hlast
      rw [hencode] at h
      exact absurd h.1 (by omega)
    · obtain ⟨byte, hencode, -⟩ := encodeVarint_of_div hlast
      rw [hencode] at h
      have hle := ih h.2
      rw [Nat.le_div_iff_mul_le (by decide)] at hle
      exact hle

theorem decodeVarint_encodeVarint (h : value < 2 ^ 64) (suffix : List UInt8) :
    decodeVarint (encodeVarint value ++ suffix) = ok (value, suffix) := by
  have hexact := (readsExactly_iff (encodeVarint value ++ suffix)).mpr fun hover =>
    absurd (le_of_overlongAfter hover) (by omega)
  unfold ReadsExactly at hexact
  rw [spelled_encodeVarint] at hexact
  split at hexact
  · next hread => rw [hread, Option.some.inj hexact.1]
  · exact absurd (hexact _ rfl) (not_le.mpr h)
  · exact hexact.elim

/-- Zero, minus one, one, minus two and so on. -/
def zigzagEncode (value : Int64) : ℕ :=
  (value.toBitVec <<< 1 ^^^ value.toBitVec.sshiftRight 63).toNat

def zigzagDecode (value : ℕ) : Int64 :=
  ⟨⟨BitVec.ofNat 64 value >>> 1 ^^^ -(BitVec.ofNat 64 value &&& 1#64)⟩⟩

theorem zigzag_bits (x : BitVec 64) : (x <<< 1 ^^^ x.sshiftRight 63) >>> 1 ^^^
    -((x <<< 1 ^^^ x.sshiftRight 63) &&& 1#64) = x := by
  cases hmsb : x.msb with
  | false =>
    have hsmall := toNat_lt_of_msb_false hmsb
    have hsign : x.sshiftRight 63 = 0#64 := by
      rw [sshiftRight_eq_of_msb_false hmsb]
      apply eq_of_toNat_eq
      simp only [toNat_ushiftRight, toNat_ofNat]
      omega
    have heven : x <<< 1 &&& 1#64 = 0#64 := by
      apply eq_of_toNat_eq
      simp [Nat.shiftLeft_eq]
    rw [hsign, xor_zero]
    apply eq_of_toNat_eq
    simp [Nat.shiftLeft_eq]
    omega
  | true =>
    have hlarge := toNat_ge_of_msb_true hmsb
    have hsign : x.sshiftRight 63 = allOnes 64 := by
      rw [sshiftRight_eq_of_msb_true hmsb]
      apply eq_of_toNat_eq
      simp only [toNat_not, toNat_ushiftRight, toNat_allOnes]
      omega
    have hodd : ~~~(x <<< 1) &&& 1#64 = 1#64 := by
      apply eq_of_toNat_eq
      simp
      omega
    rw [hsign, xor_allOnes, hodd]
    change _ ^^^ allOnes 64 = x
    rw [xor_allOnes]
    apply eq_of_toNat_eq
    simp
    omega

theorem zigzagDecode_zigzagEncode (value : Int64) : zigzagDecode (zigzagEncode value) = value := by
  unfold zigzagDecode zigzagEncode
  rw [ofNat_toNat, setWidth_eq, zigzag_bits]
  rfl

/-- **Numbers of a commit.** What is written is read back and what follows is left. Of any bytes
the number they spell is read if it fits in a word and refused if not, unless they go on behind
the tenth group. Signed numbers are folded without loss. -/
theorem varint_exact_iff (value : UInt64) (suffix bytes : List UInt8) (signed : Int64) :
    decodeVarint (encodeVarint value.toNat ++ suffix) = ok (value.toNat, suffix) ∧
      (ReadsExactly bytes ↔ ¬ OverlongAfter 9 bytes) ∧
      zigzagDecode (zigzagEncode signed) = signed :=
  ⟨decodeVarint_encodeVarint value.toNat_lt suffix, readsExactly_iff bytes,
    zigzagDecode_zigzagEncode signed⟩

/-- A number of eleven groups that is far too large is not refused. -/
theorem eleventh_group_overflows :
    decodeVarint (List.replicate 10 0x80 ++ [1]) = panic ∧
      spelled (List.replicate 10 0x80 ++ [1]) = some (2 ^ 70, []) := by
  decide

end FlureeDb.Codec
