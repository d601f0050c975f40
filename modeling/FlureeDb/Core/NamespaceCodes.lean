import FlureeDb.Core.CanonicalSplit
import FlureeDb.Core.FlakeValue
import FlureeDb.Lib.HashMap
import Mathlib.Order.Lattice.Nat

/-!
The registry of namespace codes: a two-way map that local allocation and merged deltas extend.
In every run the two directions stay inverse, no mapping changes, and a Sid decodes to the IRI
that was encoded. An IRI may get a second Sid, though. A delta with gaps between its codes can
move the next code to the end. Then IRIs overflow while codes are free, and a later delta may
give their prefix a code.
-/

namespace FlureeDb.Core

open Lib List HashMap

def emptyCode : ℕ := 0

def userStart : ℕ := 13

def overflowCode : ℕ := 0xFFFE

inductive NsAllocError
  | overflow
  | codeConflict (code : ℕ) (newPrefix existingPrefix : String)
  | prefixConflict (text : String) (newCode existingCode : ℕ)
  deriving DecidableEq

/-- `delta` has the allocations that are not persisted yet. -/
structure NamespaceCodes where
  prefixToCode : HashMap String ℕ
  codeToPrefix : HashMap ℕ String
  nextCode : ℕ
  delta : HashMap ℕ String

variable {text : String} {entries : List (ℕ × String)} {code : ℕ}

namespace NamespaceCodes

/-- The first entry whose prefix was seen before. -/
def findConflict : HashMap String ℕ → List (ℕ × String) → Option NsAllocError
  | _, [] => none
  | seen, (code, text) :: entries =>
    match seen.lookup text with
    | some prevCode => some (.prefixConflict text code prevCode)
    | none => findConflict (seen.insert text code) entries

variable (order : HashMap.IterOrder ℕ String)

def fromCodeToPrefix (codeToPrefix : HashMap ℕ String) : Except NsAllocError NamespaceCodes :=
  let entries := order.iter codeToPrefix
  let prefixToCode : HashMap String ℕ := entries.foldl (fun m entry => m.insert entry.2 entry.1) ∅
  let conflict :=
    if prefixToCode.keys.card ≠ codeToPrefix.keys.card then findConflict ∅ entries else none
  match conflict with
  | some err => .error err
  | none =>
    let maxCode := (codeToPrefix.keys.filter (· < overflowCode)).sup id
    .ok ⟨prefixToCode, codeToPrefix, max (maxCode + 1) userStart, ∅⟩

def builtinCodes : HashMap ℕ String :=
  defaultNamespaceCodes.foldl (fun m entry => m.insert entry.1 entry.2) ∅

/-- None if the built-in codes were no two-way map. -/
def new : Option NamespaceCodes :=
  (fromCodeToPrefix order builtinCodes).toOption

variable (codes : NamespaceCodes)

def getCode (text : String) : Option ℕ := codes.prefixToCode.lookup text

def getPrefix (code : ℕ) : Option String := codes.codeToPrefix.lookup code

/-- The Sid of an IRI whose prefix is registered; the outer none is a panic. -/
def encodeIri (iri : String) (mode : NsSplitMode) : Option (Option Sid) :=
  (canonicalSplit iri mode).map fun cut => (codes.getCode cut.1).map fun code => ⟨code, cut.2⟩

def decodeSidStrict (sid : Sid) : Option String :=
  if sid.namespaceCode = emptyCode ∨ sid.namespaceCode = overflowCode then some sid.name
  else (codes.getPrefix sid.namespaceCode).map fun text => text ++ sid.name

def allocatePrefix (text : String) : Except NsAllocError ℕ × NamespaceCodes :=
  match codes.getCode text with
  | some code => (.ok code, codes)
  | none =>
    if overflowCode ≤ codes.nextCode then (.error .overflow, codes)
    else
      let code := codes.nextCode
      (.ok code,
        { prefixToCode := codes.prefixToCode.insert text code
          codeToPrefix := codes.codeToPrefix.insert code text
          nextCode := codes.nextCode + 1
          delta := codes.delta.insert code text })

/-- None is a panic of the split. -/
def encodeIriOrAllocate (iri : String) (mode : NsSplitMode) :
    Option (Except NsAllocError Sid × NamespaceCodes) :=
  (canonicalSplit iri mode).map fun cut =>
    match codes.allocatePrefix cut.1 with
    | (.ok code, codes) => (.ok ⟨code, cut.2⟩, codes)
    | (.error .overflow, codes) => (.ok ⟨overflowCode, iri⟩, codes)
    | (.error err, codes) => (.error err, codes)

/-! ### Deltas of other registries -/

/-- Note an entry that is registered already in the delta, if it is to be persisted and is not
noted yet. -/
def note (persist : Bool) (codes : NamespaceCodes) (code : ℕ) (text : String) : NamespaceCodes :=
  if persist && (codes.delta.lookup code).isNone then
    { codes with delta := codes.delta.insert code text }
  else codes

def mergeEntry (persist : Bool) (codes : NamespaceCodes) (code : ℕ) (text : String) :
    Except NsAllocError NamespaceCodes :=
  match codes.getPrefix code with
  | some existing =>
    if existing ≠ text then .error (.codeConflict code text existing)
    else .ok (codes.note persist code text)
  | none =>
    match codes.getCode text with
    | some existingCode =>
      if existingCode ≠ code then .error (.prefixConflict text code existingCode)
      else .ok (codes.note persist code text)
    | none =>
      .ok
        { prefixToCode := codes.prefixToCode.insert text code
          codeToPrefix := codes.codeToPrefix.insert code text
          nextCode :=
            if codes.nextCode ≤ code ∧ code < overflowCode then code + 1 else codes.nextCode
          delta := if persist then codes.delta.insert code text else codes.delta }

/-- Entry by entry. What was merged before a conflict stays. -/
def mergeEntries (persist : Bool) :
    NamespaceCodes → List (ℕ × String) → Except NsAllocError Unit × NamespaceCodes
  | codes, [] => (.ok (), codes)
  | codes, (code, text) :: entries =>
    match codes.mergeEntry persist code text with
    | .error err => (.error err, codes)
    | .ok codes => mergeEntries persist codes entries

variable (order : HashMap.IterOrder ℕ String)

def mergeDelta (delta : HashMap ℕ String) : Except NsAllocError Unit × NamespaceCodes :=
  codes.mergeEntries false (order.iter delta)

def adoptDeltaForPersistence (delta : HashMap ℕ String) :
    Except NsAllocError Unit × NamespaceCodes :=
  codes.mergeEntries true (order.iter delta)

def takeDelta : HashMap ℕ String × NamespaceCodes :=
  (codes.delta, { codes with delta := ∅ })

/-- Every code is one for users. -/
def UserCodes (delta : HashMap ℕ String) : Prop :=
  ∀ code text, delta.lookup code = some text → userStart ≤ code ∧ code < overflowCode

inductive Step : NamespaceCodes → NamespaceCodes → Prop
  | allocatePrefix (codes : NamespaceCodes) (text : String) : Step codes (codes.allocatePrefix text).2
  | encodeIriOrAllocate {codes codes' : NamespaceCodes} {iri : String} {mode : NsSplitMode}
      {answer : Except NsAllocError Sid}
      (h : codes.encodeIriOrAllocate iri mode = some (answer, codes')) : Step codes codes'
  | mergeDelta {codes codes' : NamespaceCodes} {order : HashMap.IterOrder ℕ String}
      {delta : HashMap ℕ String} (huser : UserCodes delta)
      (h : codes.mergeDelta order delta = (.ok (), codes')) : Step codes codes'
  | adoptDeltaForPersistence {codes codes' : NamespaceCodes} {order : HashMap.IterOrder ℕ String}
      {delta : HashMap ℕ String} (huser : UserCodes delta)
      (h : codes.adoptDeltaForPersistence order delta = (.ok (), codes')) : Step codes codes'
  | takeDelta (codes : NamespaceCodes) : Step codes codes.takeDelta.2

def Reaches : NamespaceCodes → NamespaceCodes → Prop := Relation.ReflTransGen Step

/-- What a step does to the maps: nothing, or one new pair. -/
inductive Grows (codes codes' : NamespaceCodes) : Prop
  | same (hprefixes : codes'.prefixToCode = codes.prefixToCode)
      (hcode : codes'.codeToPrefix = codes.codeToPrefix) (hnext : codes'.nextCode = codes.nextCode)
  | register (code : ℕ) (text : String) (huser : userStart ≤ code) (hoverflow : code < overflowCode)
      (hfree : codes.getPrefix code = none) (hnew : codes.getCode text = none)
      (hprefixes : codes'.prefixToCode = codes.prefixToCode.insert text code)
      (hcode : codes'.codeToPrefix = codes.codeToPrefix.insert code text)
      (hnext : codes'.nextCode = max codes.nextCode (code + 1))

structure WellFormed (codes : NamespaceCodes) : Prop where
  inverse : ∀ text code, codes.getCode text = some code ↔ codes.getPrefix code = some text
  below : ∀ code text, codes.getPrefix code = some text → code < codes.nextCode
  user_le : userStart ≤ codes.nextCode
  le_overflow : codes.nextCode ≤ overflowCode
  builtin : ∀ entry ∈ defaultNamespaceCodes, codes.getPrefix entry.1 = some entry.2

/-- No mapping is lost or changed. -/
def Extends (codes codes' : NamespaceCodes) : Prop :=
  ∀ code text, codes.getPrefix code = some text → codes'.getPrefix code = some text

theorem allocatePrefix_cases (codes : NamespaceCodes) (text : String) :
    (∃ code, codes.getCode text = some code ∧ codes.allocatePrefix text = (.ok code, codes)) ∨
      (codes.getCode text = none ∧ overflowCode ≤ codes.nextCode ∧
        codes.allocatePrefix text = (.error .overflow, codes)) ∨
      (codes.getCode text = none ∧ codes.nextCode < overflowCode ∧
        ∃ codes', codes'.getCode text = some codes.nextCode ∧
          codes.allocatePrefix text = (.ok codes.nextCode, codes')) := by
  unfold allocatePrefix
  split
  next code hcode => exact .inl ⟨code, hcode, rfl⟩
  next hnone =>
    refine .inr ?_
    split
    next hfull => exact .inl ⟨hnone, hfull, rfl⟩
    next hroom => exact .inr ⟨hnone, not_le.mp hroom, _, by simp [getCode], rfl⟩

variable {name : String} {answer : Except NsAllocError Sid}

section

variable {codes} {codes' : NamespaceCodes}

theorem WellFormed.grows (h : codes.WellFormed) (hgrows : Grows codes codes') :
    codes'.WellFormed ∧ Extends codes codes' := by
  cases hgrows with
  | same hprefixes hcode hnext =>
    obtain ⟨prefixes, codeMap, next, delta⟩ := codes'
    obtain rfl : prefixes = codes.prefixToCode := hprefixes
    obtain rfl : codeMap = codes.codeToPrefix := hcode
    obtain rfl : next = codes.nextCode := hnext
    exact ⟨⟨h.inverse, h.below, h.user_le, h.le_overflow, h.builtin⟩, fun _ _ hin => hin⟩
  | register code text huser hoverflow hfree hnew hprefixes hcode hnext =>
    have hget : ∀ text', codes'.getCode text' =
        if text' = text then some code else codes.getCode text' := fun text' => by
      rw [getCode, hprefixes, lookup_insert_eq]
      rfl
    have hgetPrefix : ∀ code', codes'.getPrefix code' =
        if code' = code then some text else codes.getPrefix code' := fun code' => by
      rw [getPrefix, hcode, lookup_insert_eq]
      rfl
    have hkept : Extends codes codes' := by
      intro code' text' hin
      rw [hgetPrefix, if_neg]
      · exact hin
      · rintro rfl
        rw [hfree] at hin
        cases hin
    refine ⟨⟨?_, ?_, ?_, ?_, ?_⟩, hkept⟩
    · intro text' code'
      rw [hget, hgetPrefix]
      by_cases htext : text' = text
      · subst htext
        by_cases hc : code' = code
        · simp [hc]
        · rw [if_neg hc]
          refine iff_of_false (by simpa using Ne.symm hc) fun hin => ?_
          rw [(h.inverse text' code').mpr hin] at hnew
          cases hnew
      · rw [if_neg htext]
        by_cases hc : code' = code
        · subst hc
          refine iff_of_false (fun hin => ?_) (by simpa using Ne.symm htext)
          rw [(h.inverse text' code').mp hin] at hfree
          cases hfree
        · rw [if_neg hc]
          exact h.inverse text' code'
    · intro code' text' hin
      rw [hgetPrefix] at hin
      rw [hnext]
      split at hin
      · omega
      · exact lt_of_lt_of_le (h.below code' text' hin) (le_max_left _ _)
    · rw [hnext]
      exact h.user_le.trans (le_max_left _ _)
    · rw [hnext]
      exact max_le h.le_overflow hoverflow
    · intro entry hentry
      exact hkept _ _ (h.builtin entry hentry)

theorem WellFormed.free_nextCode (h : codes.WellFormed) : codes.getPrefix codes.nextCode = none := by
  cases hget : codes.getPrefix codes.nextCode with
  | none => rfl
  | some text => exact absurd (h.below _ _ hget) (lt_irrefl _)

theorem WellFormed.grows_allocatePrefix (h : codes.WellFormed) (text : String) :
    Grows codes (codes.allocatePrefix text).2 := by
  unfold allocatePrefix
  split
  · exact .same rfl rfl rfl
  next hnone =>
    split
    · exact .same rfl rfl rfl
    next hroom =>
      exact .register codes.nextCode text h.user_le (not_le.mp hroom) h.free_nextCode hnone rfl rfl
        (max_eq_right (Nat.le_succ _)).symm

theorem grows_note (persist : Bool) (code : ℕ) (text : String) :
    Grows codes (codes.note persist code text) := by
  unfold note
  split
  · exact .same rfl rfl rfl
  · exact .same rfl rfl rfl

variable {persist : Bool}

theorem mergeEntry_ok (h : codes.mergeEntry persist code text = .ok codes') :
    ((codes.getPrefix code = some text ∨ codes.getCode text = some code) ∧
        codes' = codes.note persist code text) ∨
      (codes.getPrefix code = none ∧ codes.getCode text = none ∧
        codes' =
          { prefixToCode := codes.prefixToCode.insert text code
            codeToPrefix := codes.codeToPrefix.insert code text
            nextCode :=
              if codes.nextCode ≤ code ∧ code < overflowCode then code + 1 else codes.nextCode
            delta := if persist then codes.delta.insert code text else codes.delta }) := by
  unfold mergeEntry at h
  split at h
  next existing hexisting =>
    split at h
    · cases h
    next hsame =>
      cases h
      exact .inl ⟨.inl (by rw [hexisting, not_not.mp hsame]), rfl⟩
  next hfree =>
    split at h
    next existing hexisting =>
      split at h
      · cases h
      next hsame =>
        cases h
        exact .inl ⟨.inr (by rw [hexisting, not_not.mp hsame]), rfl⟩
    next hnew =>
      cases h
      exact .inr ⟨hfree, hnew, rfl⟩

theorem grows_mergeEntry (huser : userStart ≤ code ∧ code < overflowCode)
    (h : codes.mergeEntry persist code text = .ok codes') : Grows codes codes' := by
  rcases mergeEntry_ok h with ⟨-, rfl⟩ | ⟨hfree, hnew, rfl⟩
  · exact grows_note persist code text
  · refine .register code text huser.1 huser.2 hfree hnew rfl rfl ?_
    by_cases hle : codes.nextCode ≤ code
    · rw [if_pos ⟨hle, huser.2⟩, max_eq_right (by omega)]
    · rw [if_neg (fun h => hle h.1), max_eq_left (by omega)]

theorem grows_mergeEntries {answer : Except NsAllocError Unit}
    (huser : ∀ entry ∈ entries, userStart ≤ entry.1 ∧ entry.1 < overflowCode)
    (h : codes.mergeEntries persist entries = (answer, codes')) :
    Relation.ReflTransGen Grows codes codes' := by
  induction entries generalizing codes with
  | nil =>
    cases h
    exact .refl
  | cons entry entries ih =>
    obtain ⟨hfirst, hrest⟩ := forall_mem_cons.mp huser
    unfold mergeEntries at h
    split at h
    next => cases h; exact .refl
    next codes₁ hmerge => exact .head (grows_mergeEntry hfirst hmerge) (ih hrest h)

theorem userCodes_iter {delta : HashMap ℕ String} (huser : UserCodes delta)
    (order : HashMap.IterOrder ℕ String) :
    ∀ entry ∈ order.iter delta, userStart ≤ entry.1 ∧ entry.1 < overflowCode :=
  fun entry hentry => huser entry.1 entry.2 (order.mem_iter.mp hentry)

/-- The Sid of an IRI by the outcome of the allocation. -/
def sidOf (iri name : String) : Except NsAllocError ℕ → Sid
  | .ok code => ⟨code, name⟩
  | .error _ => ⟨overflowCode, iri⟩

variable {iri : String} {mode : NsSplitMode}

theorem encodeIriOrAllocate_eq_some :
    codes.encodeIriOrAllocate iri mode = some (answer, codes') ↔
      ∃ text name, canonicalSplit iri mode = some (text, name) ∧
        codes' = (codes.allocatePrefix text).2 ∧
          answer = .ok (sidOf iri name (codes.allocatePrefix text).1) := by
  have hanswer : ∀ text name, (match codes.allocatePrefix text with
      | (.ok code, codes) => (.ok ⟨code, name⟩, codes)
      | (.error .overflow, codes) => (.ok ⟨overflowCode, iri⟩, codes)
      | (.error err, codes) => (.error err, codes) : Except NsAllocError Sid × NamespaceCodes) =
        (.ok (sidOf iri name (codes.allocatePrefix text).1), (codes.allocatePrefix text).2) := by
    intro text name
    rcases allocatePrefix_cases codes text with ⟨code, -, h⟩ | ⟨-, -, h⟩ | ⟨-, -, codes', -, h⟩ <;>
      rw [h] <;> rfl
  simp only [encodeIriOrAllocate, hanswer, Option.map_eq_some_iff, Prod.exists, Prod.mk.injEq]
  refine exists₂_congr fun text name => and_congr_right fun _ => ?_
  rw [and_comm, eq_comm, eq_comm (b := answer)]

theorem encode_of_allocate (hsplit : canonicalSplit iri mode = some (text, name))
    {outcome : Except NsAllocError ℕ} (h : codes.allocatePrefix text = (outcome, codes')) :
    codes.encodeIriOrAllocate iri mode = some (.ok (sidOf iri name outcome), codes') :=
  encodeIriOrAllocate_eq_some.mpr ⟨text, name, hsplit, by rw [h], by rw [h]⟩

theorem WellFormed.step (h : codes.WellFormed) (hstep : Step codes codes') :
    Relation.ReflTransGen Grows codes codes' := by
  cases hstep with
  | allocatePrefix text => exact .single (h.grows_allocatePrefix text)
  | encodeIriOrAllocate hencode =>
    obtain ⟨text, name, -, rfl, -⟩ := encodeIriOrAllocate_eq_some.mp hencode
    exact .single (h.grows_allocatePrefix text)
  | mergeDelta huser hmerge | adoptDeltaForPersistence huser hmerge =>
    exact grows_mergeEntries (userCodes_iter huser _) hmerge
  | takeDelta => exact .single (.same rfl rfl rfl)

theorem WellFormed.grows_star (h : codes.WellFormed)
    (hgrows : Relation.ReflTransGen Grows codes codes') :
    codes'.WellFormed ∧ Extends codes codes' := by
  induction hgrows with
  | refl => exact ⟨h, fun _ _ hin => hin⟩
  | tail _ hlast ih =>
    obtain ⟨hwf, hext⟩ := ih.1.grows hlast
    exact ⟨hwf, fun code text hin => hext code text (ih.2 code text hin)⟩

theorem WellFormed.reaches (h : codes.WellFormed) (hreach : Reaches codes codes') :
    codes'.WellFormed ∧ Extends codes codes' := by
  refine h.grows_star ?_
  induction hreach with
  | refl => exact .refl
  | tail _ hlast ih => exact ih.trans ((h.grows_star ih).1.step hlast)

end

/-! ### The first registry -/

theorem findConflict_eq_none (hnodup : (entries.map Prod.snd).Nodup) {seen : HashMap String ℕ}
    (hseen : ∀ entry ∈ entries, seen.lookup entry.2 = none) : findConflict seen entries = none := by
  induction entries generalizing seen with
  | nil => rfl
  | cons entry entries ih =>
    obtain ⟨hfresh, hnodup⟩ := nodup_cons.mp hnodup
    obtain ⟨hfirst, hrest⟩ := forall_mem_cons.mp hseen
    unfold findConflict
    rw [hfirst]
    refine ih hnodup fun entry' hentry' => ?_
    rw [lookup_insert_eq, if_neg]
    · exact hrest entry' hentry'
    · exact fun heq => hfresh (heq ▸ mem_map_of_mem hentry')

theorem lookup_builtinCodes (code : ℕ) (text : String) :
    builtinCodes.lookup code = some text ↔ (code, text) ∈ defaultNamespaceCodes := by
  have hnodup : (defaultNamespaceCodes.map Prod.fst).Nodup := by decide
  rw [builtinCodes, lookup_foldl_insert hnodup]
  simp

/-- The built-in codes are a two-way map, in whatever order they are visited. -/
theorem new_spec (order : HashMap.IterOrder ℕ String) :
    ∃ codes, new order = some codes ∧ codes.WellFormed ∧ codes.codeToPrefix = builtinCodes ∧
      codes.nextCode = userStart ∧ codes.delta = ∅ := by
  have hmem : ∀ entry, entry ∈ order.iter builtinCodes ↔ entry ∈ defaultNamespaceCodes := fun entry =>
    order.mem_iter.trans (lookup_builtinCodes entry.1 entry.2)
  have hinj : ∀ a ∈ defaultNamespaceCodes, ∀ b ∈ defaultNamespaceCodes, a.2 = b.2 → a = b := by decide
  have hnodup : ((order.iter builtinCodes).map Prod.snd).Nodup := by
    refine Nodup.map_on ?_ (order.nodup_keys builtinCodes).of_map
    exact fun a ha b hb => hinj a ((hmem a).mp ha) b ((hmem b).mp hb)
  have hnone : findConflict ∅ (order.iter builtinCodes) = none :=
    findConflict_eq_none hnodup fun entry _ => Finmap.lookup_empty entry.2
  have hmax : (builtinCodes.keys.filter (· < overflowCode)).sup id ≤ 12 := by
    refine Finset.sup_le fun code hcode => ?_
    obtain ⟨text, htext⟩ := Finmap.mem_iff.mp (Finmap.mem_keys.mp (Finset.mem_filter.mp hcode).1)
    have hle : ∀ entry ∈ defaultNamespaceCodes, entry.1 ≤ 12 := by decide
    exact hle _ ((lookup_builtinCodes code text).mp htext)
  have hnext : max ((builtinCodes.keys.filter (· < overflowCode)).sup id + 1) userStart = userStart :=
    max_eq_right (Nat.succ_le_succ hmax)
  refine ⟨⟨(order.iter builtinCodes).foldl (fun m entry => m.insert entry.2 entry.1) ∅, builtinCodes,
    userStart, ∅⟩, ?_, ⟨?_, ?_, le_rfl, show userStart ≤ overflowCode by decide, ?_⟩, rfl, rfl, rfl⟩
  · simp only [new, fromCodeToPrefix, hnone, ite_self]
    rfl
  · intro text code
    rw [getCode, getPrefix, lookup_foldl_insert hnodup, lookup_builtinCodes, ← hmem]
    simp
  · intro code text hin
    have hlt : ∀ entry ∈ defaultNamespaceCodes, entry.1 < userStart := by decide
    exact hlt _ ((lookup_builtinCodes code text).mp hin)
  · exact fun entry hentry => (lookup_builtinCodes _ _).mpr hentry

section

variable {codes} {codes' : NamespaceCodes} {iri : String} {mode : NsSplitMode}

theorem WellFormed.decode_of_getPrefix (h : codes.WellFormed)
    (hget : codes.getPrefix code = some text) (name : String) :
    codes.decodeSidStrict ⟨code, name⟩ = some (text ++ name) := by
  unfold decodeSidStrict
  split
  next hspecial =>
    have hlt := lt_of_lt_of_le (h.below code text hget) h.le_overflow
    rcases hspecial with hempty | hfull
    · have hbuiltin := h.builtin (0, "") (by decide)
      change code = 0 at hempty
      rw [hempty, hbuiltin] at hget
      rw [← Option.some.inj hget, String.empty_append]
    · exact absurd hfull hlt.ne
  next =>
    change (codes.getPrefix code).map _ = _
    rw [hget]
    rfl

theorem Extends.decode (hext : Extends codes codes') {sid : Sid}
    (h : codes.decodeSidStrict sid = some iri) : codes'.decodeSidStrict sid = some iri := by
  unfold decodeSidStrict at h ⊢
  split at h
  next hspecial =>
    rw [if_pos hspecial]
    exact h
  next hspecial =>
    obtain ⟨text, hget, rfl⟩ := Option.map_eq_some_iff.mp h
    rw [if_neg hspecial, hext _ _ hget]
    rfl

theorem WellFormed.code_lt (h : codes.WellFormed) (hcode : codes.getCode text = some code) :
    code < overflowCode :=
  lt_of_lt_of_le (h.below code text ((h.inverse text code).mp hcode)) h.le_overflow

theorem WellFormed.encode_cases (h : codes.WellFormed)
    (hsplit : canonicalSplit iri mode = some (text, name)) :
    (∃ code codes', codes'.WellFormed ∧ codes'.getCode text = some code ∧
        codes.encodeIriOrAllocate iri mode = some (.ok ⟨code, name⟩, codes')) ∨
      (codes.getCode text = none ∧ overflowCode ≤ codes.nextCode ∧
        codes.encodeIriOrAllocate iri mode = some (.ok ⟨overflowCode, iri⟩, codes)) := by
  have hwf := (h.grows (h.grows_allocatePrefix text)).1
  rcases allocatePrefix_cases codes text with ⟨code, hcode, heq⟩ | ⟨hnone, hfull, heq⟩ |
    ⟨-, -, codes', hcode, heq⟩
  · exact .inl ⟨code, codes, h, hcode, encode_of_allocate hsplit heq⟩
  · exact .inr ⟨hnone, hfull, encode_of_allocate hsplit heq⟩
  · rw [heq] at hwf
    exact .inl ⟨codes.nextCode, codes', hwf, hcode, encode_of_allocate hsplit heq⟩

theorem WellFormed.decode_encode (h : codes.WellFormed)
    (hencode : codes.encodeIriOrAllocate iri mode = some (answer, codes')) :
    ∃ sid, answer = .ok sid ∧ codes'.decodeSidStrict sid = some iri := by
  obtain ⟨text, name, hsplit, -⟩ := encodeIriOrAllocate_eq_some.mp hencode
  rcases h.encode_cases hsplit with ⟨code, codes₁, hwf, hcode, heq⟩ | ⟨-, -, heq⟩
  · rw [hencode] at heq
    cases heq
    refine ⟨_, rfl, ?_⟩
    rw [hwf.decode_of_getPrefix ((hwf.inverse text code).mp hcode) name,
      append_of_canonicalSplit hsplit]
  · rw [hencode] at heq
    cases heq
    exact ⟨_, rfl, if_pos (.inr rfl)⟩

/-- The user codes are free in a first registry, and only the built-in prefixes have a code. -/
theorem new_fresh {order : HashMap.IterOrder ℕ String} {start : NamespaceCodes}
    (hstart : new order = some start) :
    (∀ code, userStart ≤ code → start.getPrefix code = none) ∧
      ∀ text, (∀ entry ∈ defaultNamespaceCodes, entry.2 ≠ text) → start.getCode text = none := by
  obtain ⟨first, hfirst, hwf, hcodes, hnext, -⟩ := new_spec order
  obtain rfl : first = start := Option.some.inj (hfirst.symm.trans hstart)
  refine ⟨fun code huser => ?_, fun text hother => ?_⟩
  · refine Option.eq_none_iff_forall_ne_some.mpr fun text htext => ?_
    have hlt := hwf.below code text htext
    omega
  · refine Option.eq_none_iff_forall_ne_some.mpr fun code hcode => ?_
    rw [hwf.inverse, getPrefix, hcodes, lookup_builtinCodes] at hcode
    exact hother _ hcode rfl

/-- Whenever the IRI is encoded again, the Sid is the same. -/
def Stable (iri : String) (mode : NsSplitMode) : Prop :=
  ∃ sid codes', codes.encodeIriOrAllocate iri mode = some (.ok sid, codes') ∧
    ∀ later, Reaches codes' later →
      ∃ after, later.encodeIriOrAllocate iri mode = some (.ok sid, after)

section

variable (hsplit : canonicalSplit iri mode = some (text, name))

include hsplit

theorem encode_of_getCode (hcode : codes.getCode text = some code) :
    codes.encodeIriOrAllocate iri mode = some (.ok ⟨code, name⟩, codes) := by
  have hallocate : codes.allocatePrefix text = (.ok code, codes) := by
    rw [allocatePrefix, hcode]
  exact encode_of_allocate hsplit hallocate

theorem encode_of_full (hnone : codes.getCode text = none) (hfull : overflowCode ≤ codes.nextCode) :
    codes.encodeIriOrAllocate iri mode = some (.ok ⟨overflowCode, iri⟩, codes) := by
  have hallocate : codes.allocatePrefix text = (.error .overflow, codes) := by
    rw [allocatePrefix, hnone]
    exact if_pos hfull
  exact encode_of_allocate hsplit hallocate

end

theorem mergeEntry_fresh (hfree : codes.getPrefix code = none) (hnew : codes.getCode text = none) :
    ∃ codes', codes.mergeEntry false code text = .ok codes' ∧
      (∀ text', codes'.getCode text' = if text' = text then some code else codes.getCode text') ∧
      (∀ code', codes'.getPrefix code' = if code' = code then some text else codes.getPrefix code') ∧
      codes'.nextCode =
        if codes.nextCode ≤ code ∧ code < overflowCode then code + 1 else codes.nextCode := by
  rw [mergeEntry, hfree, hnew]
  exact ⟨_, rfl, fun _ => lookup_insert_eq .., fun _ => lookup_insert_eq .., rfl⟩

theorem mergeDelta_singleton (order : HashMap.IterOrder ℕ String)
    (h : codes.mergeEntry false code text = .ok codes') :
    codes.mergeDelta order (Finmap.singleton code text) = (.ok (), codes') := by
  rw [mergeDelta, order.iter_singleton, mergeEntries, h]
  rfl

/-- Stable unless the prefix overflows while a code is free. -/
theorem WellFormed.stable_iff (h : codes.WellFormed)
    (hsplit : canonicalSplit iri mode = some (text, name)) :
    codes.Stable iri mode ↔
      (codes.getCode text).isSome ∨ codes.nextCode < overflowCode ∨
        ∀ code, userStart ≤ code → code < overflowCode → (codes.getPrefix code).isSome := by
  constructor
  · rintro ⟨sid, codes', hencode, hlater⟩
    by_contra hgap
    simp only [not_or, not_forall, not_lt, Option.not_isSome_iff_eq_none] at hgap
    obtain ⟨hnone, hfull, code, huser, hoverflow, hfree⟩ := hgap
    rw [encode_of_full hsplit hnone hfull] at hencode
    cases hencode
    obtain ⟨merged, hmerge, hgets, -⟩ := mergeEntry_fresh hfree hnone
    have hcode : merged.getCode text = some code := (hgets text).trans (if_pos rfl)
    have hstep : Step codes merged := .mergeDelta (by
      intro code' text' hin
      rw [HashMap.lookup_singleton] at hin
      split at hin
      next hsame => exact hsame ▸ ⟨huser, hoverflow⟩
      next => cases hin) (mergeDelta_singleton (IterOrder.listed ℕ String) hmerge)
    obtain ⟨after, hagain⟩ := hlater merged (.single hstep)
    rw [encode_of_getCode hsplit hcode] at hagain
    simp at hagain
    exact absurd hagain.1.1 hoverflow.ne
  · intro hcase
    by_cases hknown : (codes.getCode text).isSome ∨ codes.nextCode < overflowCode
    · rcases h.encode_cases hsplit with ⟨code, codes', hwf, hcode, hencode⟩ | ⟨hnone, hfull, -⟩
      · refine ⟨_, codes', hencode, fun later hreach => ⟨later, encode_of_getCode hsplit ?_⟩⟩
        obtain ⟨hlater, hext⟩ := hwf.reaches hreach
        exact (hlater.inverse text code).mpr (hext _ _ ((hwf.inverse text code).mp hcode))
      · rcases hknown with hsome | hroom
        · rw [hnone] at hsome
          cases hsome
        · omega
    · have hall := (or_assoc.mpr hcase).resolve_left hknown
      simp only [not_or, not_lt, Option.not_isSome_iff_eq_none] at hknown
      obtain ⟨hnone, hfull⟩ := hknown
      refine ⟨_, codes, encode_of_full hsplit hnone hfull, fun later hreach =>
        ⟨later, ?_⟩⟩
      obtain ⟨hlater, hext⟩ := h.reaches hreach
      -- every code has its prefix already
      have htaken : ∀ code, code < overflowCode → ∃ taken, codes.getPrefix code = some taken := by
        intro code hlt
        rcases lt_or_ge code userStart with hbuiltin | huser
        · have hlisted : ∀ code < userStart,
            ∃ entry ∈ defaultNamespaceCodes, entry.1 = code := by decide
          obtain ⟨entry, hentry, rfl⟩ := hlisted code hbuiltin
          exact ⟨_, h.builtin entry hentry⟩
        · exact Option.isSome_iff_exists.mp (hall code huser hlt)
      refine encode_of_full hsplit ?_ ?_
      · refine Option.eq_none_iff_forall_ne_some.mpr fun code hcode => ?_
        obtain ⟨taken, htaken⟩ := htaken code (hlater.code_lt hcode)
        have hsame := (hext _ _ htaken).symm.trans ((hlater.inverse text code).mp hcode)
        rw [Option.some.inj hsame, ← h.inverse, hnone] at htaken
        cases htaken
      · by_contra hroom
        obtain ⟨taken, htaken⟩ := htaken later.nextCode (not_le.mp hroom)
        have hfree := hlater.free_nextCode
        rw [hext _ _ htaken] at hfree
        cases hfree

end

/-! ### Failed merges -/

section

variable {codes} {codes' : NamespaceCodes} {persist : Bool}

/-- Merging the entry changes nothing. -/
def Known (persist : Bool) (codes : NamespaceCodes) (entry : ℕ × String) : Prop :=
  codes.getPrefix entry.1 = some entry.2 ∧ (persist = true → (codes.delta.lookup entry.1).isSome)

theorem mergeEntry_of_known (h : codes.Known persist (code, text)) :
    codes.mergeEntry persist code text = .ok codes := by
  obtain ⟨hprefixes, hdelta⟩ := h
  have hnote : codes.note persist code text = codes := by
    refine if_neg fun hnew => ?_
    obtain ⟨hpersist, hnone⟩ := Bool.and_eq_true_iff.mp hnew
    rw [Option.isNone_iff_eq_none.mp hnone] at hdelta
    cases hdelta hpersist
  unfold mergeEntry
  rw [hprefixes, hnote]
  exact if_neg (not_not.mpr rfl)

theorem known_of_mergeEntry (hwf : codes.WellFormed)
    (h : codes.mergeEntry persist code text = .ok codes') :
    codes'.Known persist (code, text) ∧
      ∀ entry, codes.Known persist entry → codes'.Known persist entry := by
  have hinsert : ∀ entry : ℕ × String, (codes.delta.lookup entry.1).isSome →
      ((codes.delta.insert code text).lookup entry.1).isSome := by
    intro entry hsome
    rw [lookup_insert_eq]
    split
    · rfl
    · exact hsome
  rcases mergeEntry_ok h with ⟨hknown, rfl⟩ | ⟨hfree, hnew, rfl⟩
  · have hprefixes : codes.getPrefix code = some text := hknown.elim id (hwf.inverse text code).mp
    unfold note
    split
    next hnote =>
      refine ⟨⟨hprefixes, fun _ => by simp⟩, fun entry hentry => ⟨hentry.1, fun hpersist => ?_⟩⟩
      exact hinsert entry (hentry.2 hpersist)
    next hnote =>
      refine ⟨⟨hprefixes, fun hpersist => ?_⟩, fun entry hentry => hentry⟩
      rw [hpersist, Bool.true_and, Option.isNone_iff_eq_none] at hnote
      exact Option.isSome_iff_ne_none.mpr hnote
  · refine ⟨⟨by simp [getPrefix], fun hpersist => ?_⟩, fun entry hentry => ⟨?_, fun hpersist => ?_⟩⟩
    · simp [hpersist]
    · have hother : entry.1 ≠ code := by
        intro heq
        rw [← heq, hentry.1] at hfree
        cases hfree
      change (Finmap.insert code text codes.codeToPrefix).lookup entry.1 = _
      rw [lookup_insert_eq, if_neg hother]
      exact hentry.1
    · rw [if_pos hpersist]
      exact hinsert entry (hentry.2 hpersist)

variable (hwf : codes.WellFormed) (huser : ∀ entry ∈ entries, userStart ≤ entry.1 ∧ entry.1 <
  overflowCode) {err : NsAllocError} (h : codes.mergeEntries persist entries = (.error err, codes'))

include hwf huser h

/-- A merge stops at the first conflict. It leaves the registry as it was exactly if all entries
visited before were known. -/
theorem mergeEntries_error :
    ∃ before entry after, entries = before ++ entry :: after ∧
      codes'.mergeEntry persist entry.1 entry.2 = .error err ∧
        (∀ entry ∈ before, codes'.Known persist entry) ∧
          (∀ entry, codes.Known persist entry → codes'.Known persist entry) ∧
            ((∀ entry ∈ before, codes.Known persist entry) → codes' = codes) := by
  induction entries generalizing codes with
  | nil => cases h
  | cons entry entries ih =>
    obtain ⟨hfirst, hrest⟩ := forall_mem_cons.mp huser
    unfold mergeEntries at h
    split at h
    next err' hconflict =>
      cases h
      exact ⟨[], entry, entries, rfl, hconflict, by simp, fun _ hknown => hknown, fun _ => rfl⟩
    next codes₁ hmerge =>
      obtain ⟨hnow, hkept⟩ := known_of_mergeEntry hwf hmerge
      obtain ⟨before, entry', after, rfl, hconflict, hbefore, hkept₁, hsame⟩ :=
        ih (hwf.grows (grows_mergeEntry hfirst hmerge)).1 hrest h
      refine ⟨entry :: before, entry', after, rfl, hconflict,
        forall_mem_cons.mpr ⟨hkept₁ _ hnow, hbefore⟩,
        fun _ hknown => hkept₁ _ (hkept _ hknown), fun hall => ?_⟩
      obtain ⟨hknown, hall⟩ := forall_mem_cons.mp hall
      rw [mergeEntry_of_known hknown] at hmerge
      cases hmerge
      exact hsame hall

theorem unchanged_iff :
    ∃ before entry after, entries = before ++ entry :: after ∧
      codes'.mergeEntry persist entry.1 entry.2 = .error err ∧
        (codes' = codes ↔ ∀ entry ∈ before, codes.Known persist entry) := by
  obtain ⟨before, entry, after, heq, hconflict, hbefore, -, hsame⟩ := mergeEntries_error hwf huser h
  exact ⟨before, entry, after, heq, hconflict, fun hunchanged => hunchanged ▸ hbefore, hsame⟩

end

/-! ### A stable bijection -/

/-- From the first registry, in every run. The maps stay inverse and only grow, and the next code
is above all others. An IRI whose split does not panic is what its Sid decodes to, so different
IRIs never have one Sid. It keeps its Sid unless it overflows while a code is free. A failed merge
leaves the registry as it was if everything visited before the conflict was known. -/
theorem encoding_stable_iff {order : HashMap.IterOrder ℕ String} {start codes : NamespaceCodes}
    (hstart : new order = some start) (hreach : Reaches start codes) :
    (∀ text code, codes.getCode text = some code ↔ codes.getPrefix code = some text) ∧
      (∀ code text, codes.getPrefix code = some text → code < codes.nextCode) ∧
      (∀ later, Reaches codes later → Extends codes later) ∧
      (∀ iri mode, (∃ sid codes', codes.encodeIriOrAllocate iri mode = some (.ok sid, codes') ∧
          codes'.decodeSidStrict sid = some iri) ↔ ¬SplitPanics iri mode) ∧
      (∀ iri mode sid, codes.encodeIri iri mode = some (some sid) →
        codes.encodeIriOrAllocate iri mode = some (.ok sid, codes)) ∧
      (∀ iri iri' mode mode' sid codes' later after,
        codes.encodeIriOrAllocate iri mode = some (.ok sid, codes') → Reaches codes' later →
          later.encodeIriOrAllocate iri' mode' = some (.ok sid, after) → iri = iri') ∧
      (∀ iri mode, codes.Stable iri mode ↔ ∃ text name, canonicalSplit iri mode = some (text, name) ∧
        ((codes.getCode text).isSome ∨ codes.nextCode < overflowCode ∨
          ∀ code, userStart ≤ code → code < overflowCode → (codes.getPrefix code).isSome)) ∧
      (∀ (order : HashMap.IterOrder ℕ String) delta err codes', UserCodes delta →
        codes.mergeDelta order delta = (.error err, codes') →
          ∃ before entry after, order.iter delta = before ++ entry :: after ∧
            codes'.mergeEntry false entry.1 entry.2 = .error err ∧
              (codes' = codes ↔ ∀ entry ∈ before, codes.Known false entry)) ∧
      (∀ (order : HashMap.IterOrder ℕ String) delta err codes', UserCodes delta →
        codes.adoptDeltaForPersistence order delta = (.error err, codes') →
          ∃ before entry after, order.iter delta = before ++ entry :: after ∧
            codes'.mergeEntry true entry.1 entry.2 = .error err ∧
              (codes' = codes ↔ ∀ entry ∈ before, codes.Known true entry)) := by
  obtain ⟨first, hfirst, hfirstwf, -⟩ := new_spec order
  obtain rfl : first = start := Option.some.inj (hfirst.symm.trans hstart)
  have hwf : codes.WellFormed := (hfirstwf.reaches hreach).1
  refine ⟨hwf.inverse, hwf.below, fun later hlater => (hwf.reaches hlater).2, ?_, ?_, ?_, ?_,
    fun order delta err codes' huser => unchanged_iff hwf (userCodes_iter huser order),
    fun order delta err codes' huser => unchanged_iff hwf (userCodes_iter huser order)⟩
  · intro iri mode
    rw [← exists_canonicalSplit]
    constructor
    · rintro ⟨sid, codes', hencode, -⟩
      obtain ⟨text, name, hsplit, -⟩ := encodeIriOrAllocate_eq_some.mp hencode
      exact ⟨_, hsplit⟩
    · rintro ⟨⟨text, name⟩, hsplit⟩
      have hencode := encode_of_allocate hsplit (Prod.eta (codes.allocatePrefix text)).symm
      obtain ⟨sid, hsid, hdecode⟩ := hwf.decode_encode hencode
      exact ⟨sid, _, hsid ▸ hencode, hdecode⟩
  · intro iri mode sid hencode
    obtain ⟨⟨text, name⟩, hsplit, hcode⟩ := Option.map_eq_some_iff.mp hencode
    obtain ⟨code, hget, rfl⟩ := Option.map_eq_some_iff.mp hcode
    exact encode_of_getCode hsplit hget
  · intro iri iri' mode mode' sid codes' later after hencode hlater hencode'
    -- the last registry decodes the Sid to both
    obtain ⟨_, hsid, hdecode⟩ := hwf.decode_encode hencode
    cases hsid
    have hwf' : codes'.WellFormed := (hwf.reaches (.single (.encodeIriOrAllocate hencode))).1
    have hwflater := (hwf'.reaches hlater).1
    obtain ⟨_, hsid, hdecode'⟩ := hwflater.decode_encode hencode'
    cases hsid
    have hafter := (hwf'.reaches (hlater.tail (.encodeIriOrAllocate hencode'))).2.decode hdecode
    exact Option.some.inj (hafter.symm.trans hdecode')
  · intro iri mode
    constructor
    · intro hstable
      obtain ⟨sid, codes', hencode, -⟩ := id hstable
      obtain ⟨text, name, hsplit, -⟩ := encodeIriOrAllocate_eq_some.mp hencode
      exact ⟨text, name, hsplit, (hwf.stable_iff hsplit).mp hstable⟩
    · rintro ⟨text, name, hsplit, hcase⟩
      exact (hwf.stable_iff hsplit).mpr hcase

theorem grown_registry_stable :
    ∃ (order : HashMap.IterOrder ℕ String) (start merged codes : NamespaceCodes),
      new order = some start ∧
        start.mergeDelta order (Finmap.singleton 13 "y:") = (.ok (), merged) ∧
          merged.encodeIriOrAllocate "http://ex.org/a" .mostGranular =
            some (.ok ⟨14, "a"⟩, codes) ∧ codes.Stable "http://ex.org/b" .mostGranular := by
  obtain ⟨start, hstart, -, -, hnext, -⟩ := new_spec (IterOrder.listed ℕ String)
  obtain ⟨hfree, hnew⟩ := new_fresh hstart
  obtain ⟨merged, hmerged, hcode, -, hmergednext⟩ :=
    mergeEntry_fresh (hfree 13 le_rfl) (hnew "y:" (by decide))
  rw [hnext, if_pos (by decide)] at hmergednext
  have hnone : merged.getCode "http://ex.org/" = none :=
    (hcode _).trans ((if_neg (by decide)).trans (hnew _ (by decide)))
  have hmerge := mergeDelta_singleton (IterOrder.listed ℕ String) hmerged
  rcases allocatePrefix_cases merged "http://ex.org/" with
    ⟨code, hsome, -⟩ | ⟨-, hfull, -⟩ | ⟨-, -, codes, hget, hallocate⟩
  · cases hnone.symm.trans hsome
  · rw [hmergednext] at hfull
    exact absurd hfull (by decide)
  have hencode : merged.encodeIriOrAllocate "http://ex.org/a" .mostGranular =
      some (.ok ⟨14, "a"⟩, codes) := by
    rw [hmergednext] at hallocate
    exact encode_of_allocate (by decide) hallocate
  have huser : UserCodes (Finmap.singleton 13 "y:") := by
    intro code text hlookup
    obtain rfl : code = 13 := (Finmap.mem_singleton ..).mp (Finmap.mem_of_lookup_eq_some hlookup)
    decide
  have hreach : Reaches start codes :=
    (Relation.ReflTransGen.single (.mergeDelta huser hmerge)).tail (.encodeIriOrAllocate hencode)
  refine ⟨_, start, merged, codes, hstart, hmerge, hencode, ?_⟩
  refine ((encoding_stable_iff hstart hreach).2.2.2.2.2.2.1 _ _).mpr
    ⟨"http://ex.org/", "b", by decide, .inl ?_⟩
  rw [hget]
  rfl

/-- A query with a colon panics. A delta at the last code makes an IRI overflow, and after another
delta it gets a code. A failed merge keeps what it visited before the conflict. -/
theorem encoding_unstable_behind_gap :
    canonicalSplit "a?b:c" (.hostPlusN 0) = none ∧
    ∃ (order : HashMap.IterOrder ℕ String) (start : NamespaceCodes), new order = some start ∧
      (∃ gap merged, start.mergeDelta order (Finmap.singleton 65533 "x:") = (.ok (), gap) ∧
        gap.encodeIriOrAllocate "y:1" .mostGranular = some (.ok ⟨overflowCode, "y:1"⟩, gap) ∧
          gap.mergeDelta order (Finmap.singleton 13 "y:") = (.ok (), merged) ∧
            merged.encodeIriOrAllocate "y:1" .mostGranular = some (.ok ⟨13, "1"⟩, merged)) ∧
      ∃ after, start.mergeDelta order ((Finmap.singleton 14 "_:").insert 13 "a:") =
          (.error (.prefixConflict "_:" 14 10), after) ∧
        start.getPrefix 13 = none ∧ after.getPrefix 13 = some "a:" := by
  refine ⟨by decide +kernel, ?_⟩
  have hvisited : ∃ order : IterOrder ℕ String,
      order.iter ((Finmap.singleton 14 "_:").insert 13 "a:") = [(13, "a:"), (14, "_:")] :=
    IterOrder.exists_iter (by decide)
  obtain ⟨order, horder⟩ := hvisited
  obtain ⟨start, hstart, hwf, hcodes, hnext, -⟩ := new_spec order
  obtain ⟨hfree, hnew⟩ := new_fresh hstart
  refine ⟨order, start, hstart, ?_, ?_⟩
  · have hsplit : canonicalSplit "y:1" .mostGranular = some ("y:", "1") := by decide
    obtain ⟨gap, hgap, hcode, hprefixes, hgapnext⟩ :=
      mergeEntry_fresh (hfree 65533 (by decide)) (hnew "x:" (by decide))
    have hnone : gap.getCode "y:" = none :=
      (hcode "y:").trans ((if_neg (by decide)).trans (hnew "y:" (by decide)))
    have hfree' : gap.getPrefix 13 = none :=
      (hprefixes 13).trans ((if_neg (by decide)).trans (hfree 13 (by decide)))
    obtain ⟨merged, hmerged, hcodes₂, -⟩ := mergeEntry_fresh hfree' hnone
    refine ⟨gap, merged, mergeDelta_singleton order hgap, encode_of_full hsplit hnone ?_,
      mergeDelta_singleton order hmerged,
      encode_of_getCode hsplit ((hcodes₂ "y:").trans (if_pos rfl))⟩
    rw [hgapnext, hnext]
    decide
  · obtain ⟨after, hafter, hcode, hprefixes, -⟩ :=
      mergeEntry_fresh (hfree 13 (by decide)) (hnew "a:" (by decide))
    have hblank : after.getCode "_:" = some 10 := by
      rw [hcode, if_neg (by decide), hwf.inverse, getPrefix, hcodes]
      decide
    have hfree' : after.getPrefix 14 = none :=
      (hprefixes 14).trans ((if_neg (by decide)).trans (hfree 14 (by decide)))
    have hconflict : after.mergeEntry false 14 "_:" = .error (.prefixConflict "_:" 14 10) := by
      rw [mergeEntry, hfree', hblank]
      exact if_pos (by decide)
    refine ⟨after, ?_, hfree 13 (by decide), (hprefixes 13).trans (if_pos rfl)⟩
    simp only [mergeDelta, horder, mergeEntries, hafter, hconflict]

end NamespaceCodes

end FlureeDb.Core
