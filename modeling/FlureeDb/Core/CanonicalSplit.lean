import FlureeDb.Lib.PrefixTrie
import FlureeDb.Lib.Utf8
import Mathlib.Data.String.Basic

/-!
How an IRI is cut into a prefix and a suffix. Where the cut is depends on the split mode and the
IRI alone. Offsets are byte offsets, and a cut off a character boundary would panic. It never
does: a cut is next to an ASCII byte, at an end, or behind a built-in prefix, which is ASCII. What
panics is the slice of an opaque IRI between its first colon and its query, if the colon is in
the query.
-/

namespace FlureeDb.Core

open Lib List Nat Utf8

inductive NsSplitMode
  | mostGranular
  | hostPlusN (n : ℕ)
  deriving DecidableEq

def defaultNamespaceCodes : List (ℕ × String) :=
  [(0, ""),
    (1, "@"),
    (2, "http://www.w3.org/2001/XMLSchema#"),
    (3, "http://www.w3.org/1999/02/22-rdf-syntax-ns#"),
    (4, "http://www.w3.org/2000/01/rdf-schema#"),
    (5, "http://www.w3.org/ns/shacl#"),
    (6, "http://www.w3.org/2002/07/owl#"),
    (7, "https://ns.flur.ee/db#"),
    (8, "did:key:"),
    (9, "fluree:commit:sha256:"),
    (10, "_:"),
    (11, "http://www.opengis.net/ont/geosparql#"),
    (12, "urn:fluree:")]

/-- The trie of the prefixes, without the empty one. -/
def fromNamespaceCodes (codes : List (ℕ × String)) : PrefixTrie UInt8 ℕ :=
  .ofEntries ((codes.filter fun entry => entry.2 ≠ "").map fun entry =>
    (bytes entry.2.toList, entry.1))

def builtinTrie : PrefixTrie UInt8 ℕ := fromNamespaceCodes defaultNamespaceCodes

def cutAt (iri : String) (n : ℕ) : Option (String × String) :=
  (splitAt iri.toList n).map fun cut => (String.ofList cut.1, String.ofList cut.2)

section

variable (bytes : List UInt8)

def position (c : Char) : Option ℕ := bytes.findIdx? fun b => b == c.toUInt8

def rposition (p : UInt8 → Bool) : Option ℕ :=
  (bytes.reverse.findIdx? p).map fun i => bytes.length - 1 - i

/-- Where a loop stops that steps over the bytes that satisfy `p`, before `limit`. -/
def scanWhile (p : UInt8 → Bool) (pos limit : ℕ) : ℕ :=
  pos + (((bytes.take limit).drop pos).takeWhile p).length

/-- The offset behind the first `://`. -/
def findAuthorityStart : Option ℕ :=
  ((range (bytes.length - 2)).find? fun i =>
    (bytes.drop i).take 3 = [':'.toUInt8, '/'.toUInt8, '/'.toUInt8]).map (· + 3)

/-- The first `?`, if no `#` comes before it. -/
def queryCut : Option ℕ :=
  match position bytes '?', position bytes '#' with
  | some q, some h => if q < h then some q else none
  | some q, none => some q
  | none, _ => none

/-- Where a prefix ends after up to `n` more nonempty segments of a path. Empty segments are not
counted. -/
def extendByNSegments (limit : ℕ) : ℕ → ℕ → ℕ
  | 0, pos => pos
  | n + 1, pos =>
    if pos < limit then
      let start := scanWhile bytes (· == '/'.toUInt8) pos limit
      if limit ≤ start then start
      else
        let stop := scanWhile bytes (· != '/'.toUInt8) start limit
        let next := if stop < limit ∧ bytes[stop]? = some '/'.toUInt8 then stop + 1 else stop
        extendByNSegments limit n next
    else pos

/-- Where the last of up to so many segments between colons ends. -/
def lastSegEnd : ℕ → ℕ → ℕ → ℕ
  | 0, _, last => last
  | take + 1, pos, _ =>
    let segEnd := scanWhile bytes (· != ':'.toUInt8) pos bytes.length
    if bytes.length ≤ segEnd then segEnd else lastSegEnd take (segEnd + 1) segEnd

end

def splitHierarchical (iri : String) (mode : NsSplitMode) (authorityStart : ℕ) :
    Option (String × String) :=
  let bytes := bytes iri.toList
  let noQueryEnd := (queryCut bytes).getD bytes.length
  let hostEnd := scanWhile bytes (· != '/'.toUInt8) authorityStart noQueryEnd
  let hostRootEnd :=
    if hostEnd < noQueryEnd ∧ bytes[hostEnd]? = some '/'.toUInt8 then hostEnd + 1 else hostEnd
  match mode with
  | .mostGranular =>
    match rposition (bytes.take noQueryEnd) fun b => b == '/'.toUInt8 || b == '#'.toUInt8 with
    | some pos => cutAt iri (pos + 1)
    | none => some ("", iri)
  | .hostPlusN n =>
    let headEnd := (position (bytes.take noQueryEnd) '#').getD noQueryEnd
    if headEnd ≤ hostRootEnd ∨ bytes[hostRootEnd - 1]? ≠ some '/'.toUInt8 then
      cutAt iri hostRootEnd
    else cutAt iri (extendByNSegments bytes headEnd n hostRootEnd)

def splitOpaque (iri : String) (mode : NsSplitMode) : Option (String × String) :=
  let bytes := bytes iri.toList
  let noQueryEnd := (queryCut bytes).getD bytes.length
  match position bytes ':' with
  | none => some ("", iri)
  | some schemeEnd =>
    match mode with
    | .mostGranular =>
      match rposition (bytes.take noQueryEnd) fun b =>
          b == '/'.toUInt8 || b == '#'.toUInt8 || b == ':'.toUInt8 with
      | some pos => cutAt iri (pos + 1)
      | none => some ("", iri)
    | .hostPlusN n =>
      let restStart := schemeEnd + 1
      -- a slice that ends before it starts
      if noQueryEnd < restStart then none
      else
        let rest := (bytes.take noQueryEnd).drop restStart
        -- at least one segment is taken
        let absSegEnd := restStart + lastSegEnd rest (1 + n) 0 0
        let prefixEnd :=
          if absSegEnd < noQueryEnd ∧ bytes[absSegEnd]? = some ':'.toUInt8 then absSegEnd + 1
          else absSegEnd
        cutAt iri prefixEnd

/-- The prefix and the suffix of an IRI; none if the split panics. -/
def canonicalSplit (iri : String) (mode : NsSplitMode) : Option (String × String) :=
  let bytes := bytes iri.toList
  let hierarchicalOrOpaque : Option (String × String) :=
    match findAuthorityStart bytes with
    | some authorityStart => splitHierarchical iri mode authorityStart
    | none => splitOpaque iri mode
  if "_:".toList <+: iri.toList then cutAt iri 2
  else if iri.toList.head? = some '@' ∨ mode ≠ .mostGranular then
    match builtinTrie.longestMatch bytes with
    | some (_, prefixLen) => cutAt iri prefixLen
    | none => hierarchicalOrOpaque
  else hierarchicalOrOpaque

/-! ### Cuts are on boundaries -/

variable {iri : String} {n i limit : ℕ} {c : Char}

theorem exists_cutAt (h : Utf8.Boundary iri.toList n) : ∃ cut, cutAt iri n = some cut := by
  obtain ⟨cut, hcut⟩ := exists_splitAt_iff.mpr h
  exact ⟨_, by rw [cutAt, hcut]; rfl⟩

variable {front back : String} {p : UInt8 → Bool}

theorem append_of_cutAt (h : cutAt iri n = some (front, back)) : front ++ back = iri := by
  obtain ⟨cut, hcut, heq⟩ := Option.map_eq_some_iff.mp h
  obtain ⟨rfl, rfl⟩ := Prod.mk.inj heq
  rw [← String.ofList_append, ← (splitAt_eq_some.mp hcut).1, String.ofList_toList]

section

variable {bytes : List UInt8}

theorem getElem?_of_position (h : position bytes c = some i) : bytes[i]? = some c.toUInt8 := by
  obtain ⟨hlt, hp, -⟩ := findIdx?_eq_some_iff_getElem.mp h
  rw [getElem?_eq_getElem hlt, beq_iff_eq.mp hp]

theorem getElem?_of_rposition (h : rposition bytes p = some i) :
    ∃ b, bytes[i]? = some b ∧ p b = true := by
  obtain ⟨j, hj, rfl⟩ := Option.map_eq_some_iff.mp h
  obtain ⟨hlt, hp, -⟩ := findIdx?_eq_some_iff_getElem.mp hj
  rw [length_reverse] at hlt
  rw [getElem_reverse] at hp
  exact ⟨_, getElem?_eq_getElem (by omega), hp⟩

theorem getElem?_of_queryCut (h : queryCut bytes = some i) : bytes[i]? = some '?'.toUInt8 := by
  unfold queryCut at h
  split at h
  next q h' hq hh =>
    split at h
    · cases h
      exact getElem?_of_position hq
    · cases h
  next q hq hh =>
    cases h
    exact getElem?_of_position hq
  next => cases h

theorem getElem?_of_take {b : UInt8} (h : (bytes.take n)[i]? = some b) : bytes[i]? = some b := by
  rw [getElem?_take] at h
  split at h
  · exact h
  · cases h

/-- A scan stays, or it stops at the limit or at a byte that it does not step over. -/
theorem scanWhile_cases (p : UInt8 → Bool) (pos : ℕ) (hlimit : limit ≤ bytes.length) :
    (limit ≤ pos ∧ scanWhile bytes p pos limit = pos) ∨
      (pos < limit ∧ pos ≤ scanWhile bytes p pos limit ∧
        (scanWhile bytes p pos limit = limit ∨ (scanWhile bytes p pos limit < limit ∧
          ∃ b, bytes[scanWhile bytes p pos limit]? = some b ∧ p b = false))) := by
  unfold scanWhile
  have hlength : ((bytes.take limit).drop pos).length = limit - pos := by
    rw [length_drop, length_take, min_eq_left hlimit]
  rcases lt_or_ge pos limit with hlt | hge
  · refine .inr ⟨hlt, le_add_right _ _, ?_⟩
    have hseg : ∀ i, pos + i < limit → ((bytes.take limit).drop pos)[i]? = bytes[pos + i]? := by
      intro i hi
      rw [getElem?_drop, getElem?_take_of_lt hi]
    generalize (bytes.take limit).drop pos = seg at hlength hseg
    have hsplit := takeWhile_append_dropWhile (p := p) (l := seg)
    cases hrest : seg.dropWhile p with
    | nil =>
      rw [hrest, append_nil] at hsplit
      rw [hsplit]
      exact .inl (by omega)
    | cons b rest =>
      have hp : p b = false := by
        have hhead := head?_dropWhile_not p seg
        rw [hrest] at hhead
        simpa using hhead
      rw [hrest] at hsplit
      have hat : seg[(seg.takeWhile p).length]? = some b := by
        calc seg[(seg.takeWhile p).length]?
            = (seg.takeWhile p ++ b :: rest)[(seg.takeWhile p).length]? := by rw [hsplit]
          _ = some b := by simp
      have hin : (seg.takeWhile p).length < seg.length := (List.getElem?_eq_some_iff.mp hat).1
      exact .inr ⟨by omega, b, by rw [← hseg _ (by omega), hat], hp⟩
  · have hnil : (bytes.take limit).drop pos = [] := eq_nil_of_length_eq_zero (by omega)
    rw [hnil]
    exact .inl ⟨hge, rfl⟩

end

variable {pos : ℕ} {start : ℕ}

section

variable {text : List Char}

theorem boundary_of_char (hascii : c.toUInt8.toNat < 128) (h : (bytes text)[i]? = some c.toUInt8) :
    Utf8.Boundary text i ∧ Utf8.Boundary text (i + 1) :=
  boundary_of_ascii h hascii

theorem boundary_noQueryEnd :
    Utf8.Boundary text ((queryCut (bytes text)).getD (bytes text).length) := by
  cases hcut : queryCut (bytes text) with
  | none => exact boundary_length text
  | some i => exact (boundary_of_char (by decide) (getElem?_of_queryCut hcut)).1

theorem noQueryEnd_le : (queryCut (bytes text)).getD (bytes text).length ≤ (bytes text).length := by
  cases hcut : queryCut (bytes text) with
  | none => exact le_rfl
  | some i => exact (List.getElem?_eq_some_iff.mp (getElem?_of_queryCut hcut)).1.le

theorem boundary_scanWhile (hpos : limit ≤ pos → Utf8.Boundary text pos)
    (hlimit : Utf8.Boundary text limit) (hle : limit ≤ (bytes text).length) :
    Utf8.Boundary text (scanWhile (bytes text) (· != '/'.toUInt8) pos limit) := by
  rcases scanWhile_cases (· != '/'.toUInt8) pos hle with ⟨hge, heq⟩ | ⟨-, -, heq | ⟨-, b, hb, hslash⟩⟩
  · rw [heq]
    exact hpos hge
  · rw [heq]
    exact hlimit
  · rw [show b = '/'.toUInt8 by simpa using hslash] at hb
    exact (boundary_of_char (by decide) hb).1

theorem boundary_behind (hascii : c.toUInt8.toNat < 128) {stop : ℕ}
    (hstop : Utf8.Boundary text stop) :
    Utf8.Boundary text (if stop < limit ∧ (bytes text)[stop]? = some c.toUInt8 then stop + 1
      else stop) := by
  split
  next h => exact (boundary_of_char hascii h.2).2
  next => exact hstop

theorem boundary_extendByNSegments (hlimit : Utf8.Boundary text limit)
    (hle : limit ≤ (bytes text).length) (n : ℕ) (hpos : Utf8.Boundary text pos) :
    Utf8.Boundary text (extendByNSegments (bytes text) limit n pos) := by
  induction n generalizing pos with
  | zero => exact hpos
  | succ n ih =>
    unfold extendByNSegments
    split
    next hlt =>
      dsimp only
      split
      next hge =>
        rcases scanWhile_cases (· == '/'.toUInt8) pos hle with ⟨h, -⟩ | ⟨-, -, heq | ⟨h, -⟩⟩
        · omega
        · rw [heq]
          exact hlimit
        · omega
      next hstart =>
        exact ih (boundary_behind (by decide)
          (boundary_scanWhile (fun h => absurd h hstart) hlimit hle))
    next => exact hpos

theorem boundary_findAuthorityStart (h : findAuthorityStart (bytes text) = some start) :
    Utf8.Boundary text start := by
  obtain ⟨i, hi, rfl⟩ := Option.map_eq_some_iff.mp h
  have hthree : ((bytes text).drop i).take 3 = [':'.toUInt8, '/'.toUInt8, '/'.toUInt8] := by
    simpa using find?_some hi
  have hlast : (bytes text)[i + 2]? = some '/'.toUInt8 := by
    have hat := congrArg (fun l : List UInt8 => l[2]?) hthree
    simpa using hat
  exact (boundary_of_char (by decide) hlast).2

theorem lastSegEnd_cases (rest : List UInt8) (take pos last : ℕ) (hpos : pos ≤ rest.length) :
    lastSegEnd rest (take + 1) pos last = rest.length ∨
      rest[lastSegEnd rest (take + 1) pos last]? = some ':'.toUInt8 := by
  unfold lastSegEnd
  rcases scanWhile_cases (· != ':'.toUInt8) pos le_rfl with
    ⟨hge, heq⟩ | ⟨-, -, heq | ⟨hlt, b, hb, hcolon⟩⟩
  · rw [heq, if_pos hge]
    exact .inl (by omega)
  · rw [heq, if_pos le_rfl]
    exact .inl rfl
  · rw [if_neg (by omega)]
    cases take with
    | zero =>
      rw [lastSegEnd, hb]
      exact .inr (by simpa using hcolon)
    | succ take => exact lastSegEnd_cases rest take _ _ (by omega)

variable {code : ℕ}

theorem mem_builtinTrie {key : List UInt8} :
    builtinTrie.find key = some code ↔
      ∃ entry ∈ defaultNamespaceCodes, entry.2 ≠ "" ∧
        bytes entry.2.toList = key ∧ entry.1 = code := by
  rw [builtinTrie, fromNamespaceCodes, PrefixTrie.find_ofEntries (by decide)]
  simp only [mem_map, mem_filter, decide_eq_true_eq, Prod.mk.injEq, and_assoc]

theorem boundary_longestMatch (h : builtinTrie.longestMatch (bytes text) = some (code, n)) :
    Utf8.Boundary text n := by
  obtain ⟨hpos, hle, hfind, -⟩ := PrefixTrie.longestMatch_eq_some.mp h
  obtain ⟨entry, hentry, -, hbytes, -⟩ := mem_builtinTrie.mp hfind
  have hascii : ∀ entry ∈ defaultNamespaceCodes, ∀ b ∈ bytes entry.2.toList, b.toNat < 128 := by
    decide +kernel
  obtain ⟨n, rfl⟩ := Nat.exists_eq_add_of_lt hpos
  rw [zero_add] at *
  have hlast : (bytes text)[n]? = some ((bytes text)[n]) := getElem?_eq_getElem hle
  refine (boundary_of_ascii hlast (hascii entry hentry _ ?_)).2
  rw [hbytes]
  exact mem_of_getElem? ((getElem?_take_of_lt (by omega)).trans hlast)

end

/-! ### When a split panics -/

/-- With host splitting: no built-in prefix, no authority, and the first colon is in the query. -/
def SplitPanics (iri : String) (mode : NsSplitMode) : Prop :=
  mode ≠ .mostGranular ∧ builtinTrie.longestMatch (bytes iri.toList) = none ∧
    findAuthorityStart (bytes iri.toList) = none ∧
      ∃ query colon, queryCut (bytes iri.toList) = some query ∧
        position (bytes iri.toList) ':' = some colon ∧ query < colon

theorem exists_cutAt_rposition (hp : ∀ b, p b = true → b.toNat < 128)
    (hpos : rposition ((bytes iri.toList).take n) p = some pos) :
    ∃ cut, cutAt iri (pos + 1) = some cut := by
  obtain ⟨b, hb, hdelim⟩ := getElem?_of_rposition hpos
  exact exists_cutAt (boundary_of_ascii (getElem?_of_take hb) (hp b hdelim)).2

variable {cond : Prop} {a b : Option (String × String)}

theorem exists_ite [Decidable cond] (ha : ∃ cut, a = some cut) (hb : ∃ cut, b = some cut) :
    ∃ cut, (if cond then a else b) = some cut := by
  split
  · exact ha
  · exact hb

theorem exists_splitHierarchical (iri : String) (mode : NsSplitMode)
    (hstart : findAuthorityStart (bytes iri.toList) = some start) :
    ∃ cut, splitHierarchical iri mode start = some cut := by
  have hhost : Boundary iri.toList (scanWhile (bytes iri.toList) (· != '/'.toUInt8) start
      ((queryCut (bytes iri.toList)).getD (bytes iri.toList).length)) :=
    boundary_scanWhile (fun _ => boundary_findAuthorityStart hstart) boundary_noQueryEnd noQueryEnd_le
  unfold splitHierarchical
  cases mode with
  | mostGranular =>
    dsimp only
    split
    next pos hpos =>
      refine exists_cutAt_rposition (fun b hb => ?_) hpos
      simp only [Bool.or_eq_true, beq_iff_eq] at hb
      rcases hb with rfl | rfl
      · decide
      · decide
    next => exact ⟨_, rfl⟩
  | hostPlusN n =>
    have hslash : '/'.toUInt8.toNat < 128 := by decide
    refine exists_ite (exists_cutAt (boundary_behind hslash hhost))
      (exists_cutAt ?_)
    cases hhash : position _ '#' with
    | none =>
      exact boundary_extendByNSegments boundary_noQueryEnd noQueryEnd_le n
        (boundary_behind hslash hhost)
    | some i =>
      have hat := getElem?_of_take (getElem?_of_position hhash)
      exact boundary_extendByNSegments (boundary_of_char (by decide) hat).1
        (List.getElem?_eq_some_iff.mp hat).1.le n (boundary_behind hslash hhost)

theorem exists_splitOpaque (iri : String) (mode : NsSplitMode) :
    (∃ cut, splitOpaque iri mode = some cut) ↔
      ¬(mode ≠ .mostGranular ∧ ∃ query colon, queryCut (bytes iri.toList) = some query ∧
        position (bytes iri.toList) ':' = some colon ∧ query < colon) := by
  unfold splitOpaque
  dsimp only
  split
  next hnone =>
    refine iff_of_true ⟨_, rfl⟩ ?_
    rintro ⟨-, query, colon, -, hcolon, -⟩
    rw [hnone] at hcolon
    cases hcolon
  next schemeEnd hscheme =>
    cases mode with
    | mostGranular =>
      refine iff_of_true ?_ fun h => h.1 rfl
      dsimp only
      split
      next pos hpos =>
        refine exists_cutAt_rposition (fun b hb => ?_) hpos
        simp only [Bool.or_eq_true, beq_iff_eq] at hb
        rcases hb with (rfl | rfl) | rfl
        · decide
        · decide
        · decide
      next => exact ⟨_, rfl⟩
    | hostPlusN n =>
      have hcolon := getElem?_of_position hscheme
      dsimp only
      split
      next hlt =>
        refine iff_of_false (by simp) (not_not.mpr ⟨by simp, ?_⟩)
        cases hcut : queryCut (bytes iri.toList) with
        | none =>
          have hin := (List.getElem?_eq_some_iff.mp hcolon).1
          rw [hcut, Option.getD_none] at hlt
          omega
        | some query =>
          rw [hcut, Option.getD_some] at hlt
          have hne : query ≠ schemeEnd := by
            rintro rfl
            have hsame := (getElem?_of_queryCut hcut).symm.trans hcolon
            exact absurd (Option.some.inj hsame) (by decide)
          exact ⟨query, schemeEnd, rfl, hscheme, by omega⟩
      next hge =>
        have hcolonascii : ':'.toUInt8.toNat < 128 := by decide
        refine iff_of_true (exists_cutAt (boundary_behind hcolonascii ?_)) ?_
        · -- the segments end where the query starts, or at a colon
          have hle := @noQueryEnd_le iri.toList
          have hlength : (((bytes iri.toList).take ((queryCut (bytes iri.toList)).getD
              (bytes iri.toList).length)).drop (schemeEnd + 1)).length =
                (queryCut (bytes iri.toList)).getD (bytes iri.toList).length -
                  (schemeEnd + 1) := by
            rw [length_drop, length_take, min_eq_left hle]
          rw [add_comm 1 n]
          rcases lastSegEnd_cases _ n 0 0 (zero_le _) with hend | hat
          · rw [hend, hlength, Nat.add_sub_cancel' (not_lt.mp hge)]
            exact boundary_noQueryEnd
          · rw [getElem?_drop] at hat
            exact (boundary_of_char hcolonascii (getElem?_of_take hat)).1
        · rintro ⟨-, query, colon, hcut, hcolon', hlt⟩
          rw [hcut, Option.getD_some] at hge
          rw [hscheme] at hcolon'
          cases hcolon'
          omega

/-- If it is a cut then one of the IRI. -/
def CutsOf (iri : String) (split : Option (String × String)) : Prop :=
  ∀ cut, split = some cut → cut.1 ++ cut.2 = iri

theorem CutsOf.ite [Decidable cond] (ha : CutsOf iri a) (hb : CutsOf iri b) :
    CutsOf iri (if cond then a else b) := by
  split
  · exact ha
  · exact hb

theorem cutsOf_cutAt (iri : String) (n : ℕ) : CutsOf iri (cutAt iri n) :=
  fun _ h => append_of_cutAt h

theorem cutsOf_whole (iri : String) : CutsOf iri (some ("", iri)) := by
  rintro cut h
  cases h
  exact String.empty_append

theorem cutsOf_splitHierarchical (iri : String) (mode : NsSplitMode) (start : ℕ) :
    CutsOf iri (splitHierarchical iri mode start) := by
  unfold splitHierarchical
  cases mode with
  | mostGranular =>
    dsimp only
    split
    · exact cutsOf_cutAt iri _
    · exact cutsOf_whole iri
  | hostPlusN n => exact (cutsOf_cutAt iri _).ite (cutsOf_cutAt iri _)

theorem cutsOf_splitOpaque (iri : String) (mode : NsSplitMode) :
    CutsOf iri (splitOpaque iri mode) := by
  unfold splitOpaque
  dsimp only
  split
  · exact cutsOf_whole iri
  · cases mode with
    | mostGranular =>
      dsimp only
      split
      · exact cutsOf_cutAt iri _
      · exact cutsOf_whole iri
    | hostPlusN n => exact CutsOf.ite (fun cut h => by cases h) (cutsOf_cutAt iri _)

theorem append_of_canonicalSplit {mode : NsSplitMode}
    (h : canonicalSplit iri mode = some (front, back)) : front ++ back = iri := by
  have hrest : CutsOf iri (match findAuthorityStart (bytes iri.toList) with
      | some authorityStart => splitHierarchical iri mode authorityStart
      | none => splitOpaque iri mode) := by
    split
    · exact cutsOf_splitHierarchical iri mode _
    · exact cutsOf_splitOpaque iri mode
  have hcuts : CutsOf iri (canonicalSplit iri mode) := by
    refine (cutsOf_cutAt iri 2).ite (CutsOf.ite ?_ hrest)
    split
    · exact cutsOf_cutAt iri _
    · exact hrest
  exact hcuts (front, back) h

theorem exists_canonicalSplit (iri : String) (mode : NsSplitMode) :
    (∃ cut, canonicalSplit iri mode = some cut) ↔ ¬SplitPanics iri mode := by
  have hrest : (∃ cut, (match findAuthorityStart (bytes iri.toList) with
      | some authorityStart => splitHierarchical iri mode authorityStart
      | none => splitOpaque iri mode) = some cut) ↔
        ¬(mode ≠ .mostGranular ∧ findAuthorityStart (bytes iri.toList) = none ∧
          ∃ query colon, queryCut (bytes iri.toList) = some query ∧
            position (bytes iri.toList) ':' = some colon ∧ query < colon) := by
    cases hstart : findAuthorityStart (bytes iri.toList) with
    | some start => exact iff_of_true (exists_splitHierarchical iri mode hstart) (by simp)
    | none =>
      rw [exists_splitOpaque]
      simp
  unfold canonicalSplit SplitPanics
  dsimp only
  split
  next hblank =>
    obtain ⟨rest, hrest⟩ := hblank
    have hbytes : bytes iri.toList = '_'.toUInt8 :: ':'.toUInt8 :: bytes rest := by
      rw [← hrest]
      rfl
    refine iff_of_true (exists_cutAt ⟨['_', ':'], rest, hrest.symm, by decide⟩) ?_
    rintro ⟨-, -, -, query, colon, hquery, hcolon, hlt⟩
    have hone : position (bytes iri.toList) ':' = some 1 := by
      rw [hbytes, position]
      rfl
    obtain rfl : 1 = colon := Option.some.inj (hone.symm.trans hcolon)
    obtain rfl : query = 0 := by omega
    have hfirst := getElem?_of_queryCut hquery
    rw [hbytes] at hfirst
    exact absurd (Option.some.inj hfirst) (by decide)
  next =>
    split
    next hcheck =>
      cases hmatch : builtinTrie.longestMatch (bytes iri.toList) with
      | some found =>
        exact iff_of_true (exists_cutAt (boundary_longestMatch hmatch)) (by simp)
      | none =>
        rw [hrest]
        simp
    next hcheck =>
      rw [hrest]
      have hmode : mode = .mostGranular := by simpa using (not_or.mp hcheck).2
      simp [hmode]

example : canonicalSplit "http://ex.org/a/b#c?d" .mostGranular =
    some ("http://ex.org/a/b#", "c?d") := by decide

end FlureeDb.Core
