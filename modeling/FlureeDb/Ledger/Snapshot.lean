import FlureeDb.Core.NamespaceCodes
import FlureeDb.Lib.Checked
import FlureeDb.Novelty.FactState

/-!
The part of a ledger that names things: the table of namespaces and the registry of
graphs. Both grow with the deltas that commits carry. A delta that gives a known code
another prefix, or a known prefix another code, is refused. New graphs get the next
numbers in the order of their IRIs. The reverse graph sends the Sid of every registered
graph to its number, and no two graphs have one Sid.

Numbers of graphs have 16 bits, and counting beyond them is a panic.
-/

namespace FlureeDb.Ledger

open FlureeDb.Core Lib Novelty List

def txnMetaGraphIri (ledgerId : String) : String := "urn:fluree:" ++ ledgerId ++ "#txn-meta"

def configGraphIri (ledgerId : String) : String := "urn:fluree:" ++ ledgerId ++ "#config"

def defaultGraphId : GraphId := 0

def txnMetaGraphId : GraphId := 1

/-- The IRIs by the numbers of their graphs; the default graph has none. -/
structure GraphRegistry where
  idToIri : List (Option String)
  distinct : ∀ {i j : ℕ} {iri : String}, idToIri[i]? = some (some iri) →
    idToIri[j]? = some (some iri) → i = j
  default_free : idToIri[0]? = some none
  fits : idToIri.length < 2 ^ 16

variable {iri : String} {iris : List String}

namespace GraphRegistry

variable (registry : GraphRegistry)

/-- A registry with the system graphs of a ledger. -/
def newForLedger (ledgerId : String) : GraphRegistry where
  idToIri := [none, some (txnMetaGraphIri ledgerId), some (configGraphIri ledgerId)]
  distinct := by
    intro i j iri hi hj
    have hne : txnMetaGraphIri ledgerId ≠ configGraphIri ledgerId := by
      intro h
      have htail : "#txn-meta".toList = "#config".toList := by
        have hlists := congrArg String.toList h
        unfold txnMetaGraphIri configGraphIri at hlists
        simp only [String.toList_append] at hlists
        exact append_cancel_left hlists
      exact absurd htail (by decide)
    match i, j with
    | 0, _ => cases hi
    | _, 0 => cases hj
    | 1, 1 => rfl
    | 2, 2 => rfl
    | 1, 2 => exact absurd (Option.some.inj (Option.some.inj (hi.trans hj.symm))) hne
    | 2, 1 => exact absurd (Option.some.inj (Option.some.inj (hi.trans hj.symm))).symm hne
    | i + 3, _ => cases hi
    | _, j + 3 => cases hj
  default_free := rfl
  fits := show 3 < 2 ^ 16 by decide

def graphIdForIri (iri : String) : Option ℕ := registry.idToIri.findIdx? fun slot => slot == some iri

def iterEntries : List (ℕ × String) :=
  registry.idToIri.zipIdx.filterMap fun slot => slot.1.map fun iri => (slot.2, iri)

variable {g : ℕ}

theorem mem_iterEntries :
    (g, iri) ∈ registry.iterEntries ↔ registry.idToIri[g]? = some (some iri) := by
  unfold iterEntries
  rw [mem_filterMap]
  constructor
  · rintro ⟨⟨slot, i⟩, hslot, heq⟩
    obtain ⟨iri', rfl, hpair⟩ := Option.map_eq_some_iff.mp heq
    cases hpair
    exact mk_mem_zipIdx_iff_getElem?.mp hslot
  · intro h
    exact ⟨(some iri, g), mk_mem_zipIdx_iff_getElem?.mpr h, rfl⟩

theorem graphIdForIri_eq_some :
    registry.graphIdForIri iri = some g ↔ registry.idToIri[g]? = some (some iri) := by
  unfold graphIdForIri
  rw [findIdx?_eq_some_iff_getElem]
  constructor
  · rintro ⟨hlt, hslot, -⟩
    rw [getElem?_eq_getElem hlt, beq_iff_eq.mp hslot]
  · intro h
    obtain ⟨hlt, hslot⟩ := List.getElem?_eq_some_iff.mp h
    refine ⟨hlt, beq_iff_eq.mpr hslot, fun j hj hsame => ?_⟩
    have hslot' : registry.idToIri[j]? = some (some iri) := by
      rw [getElem?_eq_getElem (hj.trans hlt)]
      exact congrArg some (beq_iff_eq.mp hsame)
    exact hj.ne (registry.distinct hslot' h)

def Has (iri : String) : Prop := some iri ∈ registry.idToIri

theorem has_iff : registry.Has iri ↔ ∃ g, registry.graphIdForIri iri = some g := by
  unfold Has
  rw [mem_iff_getElem?]
  exact exists_congr fun g => (registry.graphIdForIri_eq_some).symm

/-- The IRIs of a delta that are not registered, each once, in order. -/
def newIris (iris : List String) : List String :=
  ((iris.filter fun iri => (registry.graphIdForIri iri).isNone).dedup).mergeSort
    fun a b => decide (a ≤ b)

theorem mem_newIris : iri ∈ registry.newIris iris ↔ iri ∈ iris ∧ ¬ registry.Has iri := by
  unfold newIris
  rw [(mergeSort_perm _ _).mem_iff, mem_dedup, mem_filter, has_iff,
    Option.isNone_iff_eq_none, Option.eq_none_iff_forall_ne_some]
  simp

theorem newIris_nodup (iris : List String) : (registry.newIris iris).Nodup :=
  (mergeSort_perm _ _).nodup_iff.mpr (nodup_dedup _)

theorem distinct_append {new : List String} (hnodup : new.Nodup)
    (hfresh : ∀ iri ∈ new, ¬ registry.Has iri) {i j : ℕ}
    (hi : (registry.idToIri ++ new.map some)[i]? = some (some iri))
    (hj : (registry.idToIri ++ new.map some)[j]? = some (some iri)) : i = j := by
  have hnew : ∀ {k : ℕ}, (new.map some)[k]? = some (some iri) → new[k]? = some iri := by
    intro k h
    rw [getElem?_map] at h
    obtain ⟨iri', hk, heq⟩ := Option.map_eq_some_iff.mp h
    rwa [← Option.some.inj heq]
  have hapart : ∀ {k l : ℕ}, registry.idToIri[k]? = some (some iri) →
      (new.map some)[l]? ≠ some (some iri) := fun hk hl =>
    hfresh iri (mem_of_getElem? (hnew hl)) (mem_of_getElem? hk)
  rw [getElem?_append] at hi hj
  split at hi
  · split at hj
    · exact registry.distinct hi hj
    · exact absurd hj (hapart hi)
  next hlen =>
    split at hj
    · exact absurd hi (hapart hj)
    next hlen' =>
      have hlt := (List.getElem?_eq_some_iff.mp (hnew hi)).1
      have hsame := (getElem?_inj hlt hnodup).mp ((hnew hi).trans (hnew hj).symm)
      omega

/-- Registers the new IRIs of a delta; none is a panic. -/
def applyDelta (iris : List String) : Option GraphRegistry :=
  if hfits : (registry.idToIri ++ (registry.newIris iris).map some).length < 2 ^ 16 then
    some
      { idToIri := registry.idToIri ++ (registry.newIris iris).map some
        distinct := registry.distinct_append (registry.newIris_nodup iris) fun _ h =>
          (registry.mem_newIris.mp h).2
        default_free := by
          rw [List.getElem?_append_left (List.getElem?_eq_some_iff.mp registry.default_free).1]
          exact registry.default_free
        fits := hfits }
  else none

variable {registry}

variable {registry' : GraphRegistry} (h : registry.applyDelta iris = some registry')

include h

theorem idToIri_applyDelta :
    registry'.idToIri = registry.idToIri ++ (registry.newIris iris).map some := by
  unfold applyDelta at h
  split at h
  · cases h
    rfl
  · cases h

theorem getElem?_applyDelta (hg : registry.idToIri[g]? = some (some iri)) :
    registry'.idToIri[g]? = some (some iri) := by
  rw [idToIri_applyDelta h, getElem?_append_left (List.getElem?_eq_some_iff.mp hg).1, hg]

end GraphRegistry

/-! ### Snapshots -/

/-- Why a snapshot refuses a delta or has no reverse graph: a code that maps to another
prefix than the delta says, a prefix that has another code, two graphs with one Sid. -/
inductive SnapshotError
  | codeConflict (code : ℕ) (existing text : String)
  | prefixConflict (text : String) (existingCode code : ℕ)
  | sidCollision (prev g : ℕ) (sid : Sid)
  | panic
  deriving DecidableEq

/-- The two maps of the namespaces are inverse, and the graph of the transaction
metadata is the first one registered. -/
structure LedgerSnapshot where
  ledgerId : String
  namespaceCodes : HashMap ℕ String
  namespaceReverse : HashMap String ℕ
  nsSplitMode : NsSplitMode
  graphRegistry : GraphRegistry
  inverse : ∀ {code : ℕ} {text : String},
    namespaceCodes.lookup code = some text ↔ namespaceReverse.lookup text = some code
  seeded : graphRegistry.idToIri[1]? = some (some (txnMetaGraphIri ledgerId))

variable {map : HashMap Sid GraphId} {snapshot' : LedgerSnapshot} {sid : Sid}

namespace LedgerSnapshot

def genesis (ledgerId : String) : LedgerSnapshot where
  ledgerId := ledgerId
  namespaceCodes := NamespaceCodes.builtinCodes
  namespaceReverse := defaultNamespaceCodes.foldl (fun m entry => m.insert entry.2 entry.1) ∅
  nsSplitMode := .mostGranular
  graphRegistry := .newForLedger ledgerId
  inverse := by
    intro code text
    have hnodup : (defaultNamespaceCodes.map Prod.snd).Nodup := by decide
    rw [NamespaceCodes.lookup_builtinCodes, HashMap.lookup_foldl_insert hnodup]
    simp
  seeded := rfl

variable (snapshot : LedgerSnapshot)

/-- The Sid of an IRI; an IRI of an unknown namespace is its own name. None is a panic
of the split. -/
def encodeIri (iri : String) : Option Sid :=
  (canonicalSplit iri snapshot.nsSplitMode).map fun cut =>
    match snapshot.namespaceReverse.lookup cut.1 with
    | some code => ⟨code, cut.2⟩
    | none => ⟨emptyCode, iri⟩

def decodeSid (sid : Sid) : Option String :=
  if sid.namespaceCode = emptyCode ∨ sid.namespaceCode = overflowCode then some sid.name
  else (snapshot.namespaceCodes.lookup sid.namespaceCode).map fun text => text ++ sid.name

/-- One entry of a delta of namespaces. -/
def applyNamespace (entry : ℕ × String) : Except SnapshotError LedgerSnapshot :=
  match hcode : snapshot.namespaceCodes.lookup entry.1 with
  | some existing =>
    if existing ≠ entry.2 then .error (.codeConflict entry.1 existing entry.2) else .ok snapshot
  | none =>
    match htext : snapshot.namespaceReverse.lookup entry.2 with
    | some existingCode =>
      if existingCode ≠ entry.1 then .error (.prefixConflict entry.2 existingCode entry.1)
      else .ok snapshot
    | none =>
      .ok
        { snapshot with
          namespaceCodes := snapshot.namespaceCodes.insert entry.1 entry.2
          namespaceReverse := snapshot.namespaceReverse.insert entry.2 entry.1
          inverse := by
            intro code text
            rw [HashMap.lookup_insert_eq, HashMap.lookup_insert_eq]
            split
            next hsame =>
              split
              next hsame' => simp [hsame, hsame']
              next hother =>
                rw [← snapshot.inverse, hsame, hcode]
                simp [Ne.symm hother]
            next hother =>
              split
              next hsame =>
                rw [snapshot.inverse, hsame, htext]
                simp [Ne.symm hother]
              next => exact snapshot.inverse }

def applyEnvelopeDeltas (order : HashMap.IterOrder ℕ String) (nsDelta : HashMap ℕ String)
    (graphIris : List String) : Except SnapshotError LedgerSnapshot := do
  let snapshot ← (order.iter nsDelta).foldlM applyNamespace snapshot
  match hdelta : snapshot.graphRegistry.applyDelta graphIris with
  | none => .error .panic
  | some registry =>
    .ok
      { snapshot with
        graphRegistry := registry
        seeded := GraphRegistry.getElem?_applyDelta hdelta snapshot.seeded }

/-- The number of the graph of every Sid. -/
def addReverse (map : HashMap Sid GraphId) (entry : ℕ × String) :
    Except SnapshotError (HashMap Sid GraphId) :=
  if entry.1 = 0 then .ok map
  else
    match snapshot.encodeIri entry.2 with
    | none => .error .panic
    | some sid =>
      match map.lookup sid with
      | some prev => .error (.sidCollision prev entry.1 sid)
      | none => .ok (map.insert sid (Fin.ofNat (2 ^ 16) entry.1))

def buildReverseGraph : Except SnapshotError (HashMap Sid GraphId) :=
  snapshot.graphRegistry.iterEntries.foldlM snapshot.addReverse ∅

/-- The reverse graph for the flakes of commits, which go to the graph of the
transaction metadata whatever the registry says. -/
def commitRouting : Except SnapshotError (HashMap Sid GraphId × Sid) := do
  let reverseGraph ← snapshot.buildReverseGraph
  match snapshot.encodeIri (txnMetaGraphIri snapshot.ledgerId) with
  | none => .error .panic
  | some sid =>
    match reverseGraph.lookup sid with
    | some _ => .ok (reverseGraph, sid)
    | none => .ok (reverseGraph.insert sid txnMetaGraphId, sid)

variable {snapshot} {map' : HashMap Sid GraphId} {entry : ℕ × String} {entries : List (ℕ × String)}

theorem addReverse_eq_ok :
    snapshot.addReverse map entry = .ok map' ↔ entry.1 = 0 ∧ map' = map ∨
      entry.1 ≠ 0 ∧ ∃ sid, snapshot.encodeIri entry.2 = some sid ∧
        map.lookup sid = none ∧ map' = map.insert sid (Fin.ofNat (2 ^ 16) entry.1) := by
  unfold addReverse
  split
  next hzero => simp [hzero, eq_comm]
  next hnamed =>
    split
    next hsid => simp [hnamed, hsid]
    next sid hsid =>
      simp only [hnamed, hsid]
      split
      next hprev => simp [hprev]
      next hfree => simp [hnamed, hfree, eq_comm]

theorem lookup_addReverse (h : entries.foldlM snapshot.addReverse map = .ok map') {g : GraphId} :
    map'.lookup sid = some g ↔
      map.lookup sid = some g ∨ ∃ entry ∈ entries, entry.1 ≠ 0 ∧
        snapshot.encodeIri entry.2 = some sid ∧ Fin.ofNat (2 ^ 16) entry.1 = g := by
  induction entries generalizing map with
  | nil =>
    cases h
    simp
  | cons entry entries ih =>
    obtain ⟨next, hstep, h⟩ := Checked.bind_eq_ok.mp h
    rw [ih h, exists_mem_cons_iff, ← or_assoc]
    refine or_congr_left ?_
    rcases addReverse_eq_ok.mp hstep with ⟨hzero, rfl⟩ | ⟨hnamed, sid', hsid, hfree, rfl⟩
    · simp [hzero]
    · rw [HashMap.lookup_insert_eq, hsid]
      split
      next hsame =>
        rw [hsame, hfree]
        simp [hnamed]
      next hother => simp [Ne.symm hother]

/-- The reverse graph has the registered graphs, by the Sids of their IRIs. -/
theorem lookup_buildReverseGraph (h : snapshot.buildReverseGraph = .ok map) {g : GraphId} :
    map.lookup sid = some g ↔ g ≠ 0 ∧ ∃ iri,
      snapshot.graphRegistry.idToIri[(g : ℕ)]? = some (some iri) ∧
        snapshot.encodeIri iri = some sid := by
  rw [lookup_addReverse h, Finmap.lookup_empty]
  simp only [reduceCtorEq, false_or]
  constructor
  · rintro ⟨⟨i, iri⟩, hin, hnamed, hsid, rfl⟩
    have hslot := snapshot.graphRegistry.mem_iterEntries.mp hin
    have hlt : i < 2 ^ 16 :=
      (List.getElem?_eq_some_iff.mp hslot).1.trans snapshot.graphRegistry.fits
    have hval : ((Fin.ofNat (2 ^ 16) i : GraphId) : ℕ) = i := Nat.mod_eq_of_lt hlt
    refine ⟨fun hzero => hnamed ?_, iri, by rwa [hval], hsid⟩
    rw [← hval, hzero]
    rfl
  · rintro ⟨hnamed, iri, hslot, hsid⟩
    exact ⟨(g, iri), snapshot.graphRegistry.mem_iterEntries.mpr hslot,
      fun hzero => hnamed (Fin.ext hzero), hsid, Fin.ext (Nat.mod_eq_of_lt g.isLt)⟩

/-- Every graph has one Sid, and the default graph none. -/
structure Routing (reverseGraph : Sid → Option GraphId) : Prop where
  injective : ∀ {sid sid' : Sid} {g : GraphId}, reverseGraph sid = some g →
    reverseGraph sid' = some g → sid = sid'
  named : ∀ {sid : Sid}, reverseGraph sid ≠ some 0

theorem routing_of_buildReverseGraph (h : snapshot.buildReverseGraph = .ok map) :
    Routing map.lookup where
  injective := by
    intro sid sid' g hsid hsid'
    obtain ⟨-, iri, hslot, hiri⟩ := (lookup_buildReverseGraph h).mp hsid
    obtain ⟨-, iri', hslot', hiri'⟩ := (lookup_buildReverseGraph h).mp hsid'
    have hsame : iri = iri' := Option.some.inj (Option.some.inj (hslot.symm.trans hslot'))
    rw [hsame] at hiri
    exact Option.some.inj (hiri.symm.trans hiri')
  named := fun hzero => ((lookup_buildReverseGraph h).mp hzero).1 rfl

theorem lookup_txnMeta (h : snapshot.buildReverseGraph = .ok map)
    (hsid : snapshot.encodeIri (txnMetaGraphIri snapshot.ledgerId) = some sid) :
    map.lookup sid = some txnMetaGraphId :=
  (lookup_buildReverseGraph h).mpr ⟨by decide, _, snapshot.seeded, hsid⟩

/-- The graph of the metadata is registered, so that nothing is added for it. -/
theorem commitRouting_ok (h : snapshot.commitRouting = .ok (map, sid)) :
    snapshot.buildReverseGraph = .ok map ∧ map.lookup sid = some txnMetaGraphId ∧
      snapshot.encodeIri (txnMetaGraphIri snapshot.ledgerId) = some sid := by
  obtain ⟨built, hbuild, h⟩ := Checked.bind_eq_ok.mp h
  split at h
  · cases h
  next sid' hsid =>
    have hin := lookup_txnMeta hbuild hsid
    rw [hin] at h
    cases h
    exact ⟨hbuild, hin, hsid⟩

/-! ### Tables of allocated codes -/

/-- No prefix has the code of full IRIs, and only the empty prefix has its own. -/
def Plain (snapshot : LedgerSnapshot) : Prop :=
  ∀ code text, snapshot.namespaceCodes.lookup code = some text →
    code ≠ overflowCode ∧ (code = emptyCode → text = "")

theorem plain_genesis (ledgerId : String) : (genesis ledgerId).Plain := by
  intro code text h
  have hmem := (NamespaceCodes.lookup_builtinCodes code text).mp h
  have hall : ∀ entry ∈ defaultNamespaceCodes,
      entry.1 ≠ overflowCode ∧ (entry.1 = emptyCode → entry.2 = "") := by decide
  exact hall _ hmem

theorem Plain.decode_encode (h : snapshot.Plain) (hsid : snapshot.encodeIri iri = some sid) :
    snapshot.decodeSid sid = some iri := by
  obtain ⟨⟨front, back⟩, hcut, rfl⟩ := Option.map_eq_some_iff.mp hsid
  have happend := append_of_canonicalSplit hcut
  cases hcode : snapshot.namespaceReverse.lookup front with
  | none => exact if_pos (.inl rfl)
  | some code =>
    obtain ⟨hfull, hempty⟩ := h code front (snapshot.inverse.mpr hcode)
    change snapshot.decodeSid ⟨code, back⟩ = some iri
    unfold decodeSid
    split
    next hspecial =>
      obtain hzero | hoverflow := hspecial
      · rw [← happend, hempty hzero, String.empty_append]
      · exact absurd hoverflow hfull
    next =>
      rw [snapshot.inverse.mpr hcode, ← happend]
      rfl

theorem applyNamespace_ok (h : snapshot.applyNamespace entry = .ok snapshot') :
    (∀ code text, snapshot'.namespaceCodes.lookup code = some text ↔
      snapshot.namespaceCodes.lookup code = some text ∨ (code, text) = entry) ∧
      snapshot'.ledgerId = snapshot.ledgerId ∧ snapshot'.nsSplitMode = snapshot.nsSplitMode ∧
        snapshot'.graphRegistry = snapshot.graphRegistry := by
  obtain ⟨code, text⟩ := entry
  unfold applyNamespace at h
  split at h
  next existing hcode =>
    split at h
    · cases h
    next hsame =>
      cases h
      refine ⟨fun code' text' => ?_, rfl, rfl, rfl⟩
      rw [not_not.mp hsame] at hcode
      refine ⟨.inl, fun h => h.elim id fun heq => ?_⟩
      cases heq
      exact hcode
  next hcode =>
    split at h
    next existingCode htext =>
      split at h
      · cases h
      next hsame =>
        -- the two maps are inverse, so that the code is known
        rw [not_not.mp hsame, ← snapshot.inverse, hcode] at htext
        cases htext
    next htext =>
      cases h
      refine ⟨fun code' => ?_, rfl, rfl, rfl⟩
      rw [HashMap.lookup_insert_eq]
      split
      next hsame =>
        rw [hsame, hcode]
        simp [eq_comm]
      next hother => simp [hother]

theorem foldlM_applyNamespace_ok (h : entries.foldlM applyNamespace snapshot = .ok snapshot') :
    (∀ code text, snapshot'.namespaceCodes.lookup code = some text ↔
      snapshot.namespaceCodes.lookup code = some text ∨ (code, text) ∈ entries) ∧
      snapshot'.ledgerId = snapshot.ledgerId ∧ snapshot'.nsSplitMode = snapshot.nsSplitMode ∧
        snapshot'.graphRegistry = snapshot.graphRegistry := by
  induction entries generalizing snapshot with
  | nil =>
    cases h
    simp
  | cons entry entries ih =>
    obtain ⟨next, hstep, h⟩ := Checked.bind_eq_ok.mp h
    obtain ⟨htable, hledger, hmode, hregistry⟩ := ih h
    obtain ⟨htable', hledger', hmode', hregistry'⟩ := applyNamespace_ok hstep
    refine ⟨fun code text => ?_, hledger.trans hledger', hmode.trans hmode',
      hregistry.trans hregistry'⟩
    rw [htable, htable', mem_cons, or_assoc]

/-- What deltas that are accepted leave: the table with their entries, and the registry
with their IRIs. -/
structure Extended (snapshot snapshot' : LedgerSnapshot) (nsDelta : HashMap ℕ String)
    (graphIris : List String) : Prop where
  codes : ∀ code text, snapshot'.namespaceCodes.lookup code = some text ↔
    snapshot.namespaceCodes.lookup code = some text ∨ nsDelta.lookup code = some text
  graphs : snapshot.graphRegistry.applyDelta graphIris = some snapshot'.graphRegistry
  ledgerId : snapshot'.ledgerId = snapshot.ledgerId
  nsSplitMode : snapshot'.nsSplitMode = snapshot.nsSplitMode

variable {nsDelta : HashMap ℕ String} {graphIris : List String}

theorem applyEnvelopeDeltas_ok {order : HashMap.IterOrder ℕ String}
    (h : snapshot.applyEnvelopeDeltas order nsDelta graphIris = .ok snapshot') :
    Extended snapshot snapshot' nsDelta graphIris := by
  obtain ⟨next, hfold, h⟩ := Checked.bind_eq_ok.mp h
  obtain ⟨htable, hledger, hmode, hregistry⟩ := foldlM_applyNamespace_ok hfold
  split at h
  · cases h
  next registry hdelta =>
    cases h
    refine ⟨fun code text => ?_, ?_, hledger, hmode⟩
    · exact (htable code text).trans (or_congr_right order.mem_iter)
    · rw [← hregistry]
      exact hdelta

theorem applyEnvelopeDeltas_empty (snapshot : LedgerSnapshot) (order : HashMap.IterOrder ℕ String) :
    snapshot.applyEnvelopeDeltas order ∅ [] = .ok snapshot := by
  have hdelta : snapshot.graphRegistry.applyDelta [] = some snapshot.graphRegistry := by
    simpa [GraphRegistry.applyDelta, GraphRegistry.newIris] using snapshot.graphRegistry.fits
  unfold applyEnvelopeDeltas
  rw [order.iter_empty, foldlM_nil, pure_bind]
  split
  next hnone =>
    rw [hdelta] at hnone
    cases hnone
  next registry hsome =>
    rw [hdelta] at hsome
    cases hsome
    rfl

theorem Extended.plain (h : Extended snapshot snapshot' nsDelta graphIris) (hplain : snapshot.Plain)
    (huser : NamespaceCodes.UserCodes nsDelta) : snapshot'.Plain := by
  intro code text hlookup
  obtain hold | hnew := (h.codes code text).mp hlookup
  · exact hplain code text hold
  · obtain ⟨hlow, hhigh⟩ := huser code text hnew
    refine ⟨hhigh.ne, fun hzero => absurd hlow ?_⟩
    rw [hzero]
    decide

end LedgerSnapshot

end FlureeDb.Ledger
