import Mathlib.Data.List.GetD
import FlureeDb.Novelty.FactState
import FlureeDb.Novelty.Segment

/-!
Novelty: the flakes of recent commits, held in memory as segments of graphs, with
the latest operation known for every fact. Commits append a segment to each graph
they touch; a bulk load replaces the segments of a graph by new ones over everything
in it; a tiered compaction merges segments of a similar size; and clearing drops what
an index has taken over.

A graph without segments and an absent graph are the same here, and the slots are as
many as the code's vector has. Left out are the attachment overlay, the stamps of the
content, schema and shape caches: nothing that is modelled reads them.
-/

namespace FlureeDb.Novelty

open FlureeDb.Core Lib List

inductive NoveltyError
  | overflow (message : String)
  | invalidGraph (message : String)
  deriving DecidableEq

/-- How a call ends without a result: with an error, or with a panic. -/
inductive Failure
  | error (e : NoveltyError)
  | panic
  deriving DecidableEq

section

variable (V : Type) [ObjectValue V]

structure Graphs where
  slots : List (List (Segment V))
  fits : slots.length ≤ 2 ^ 16

end

namespace Graphs

variable {V : Type} [ObjectValue V]

def empty : Graphs V := ⟨[], Nat.zero_le _⟩

variable (gs : Graphs V)

def get (g : ℕ) : List (Segment V) := gs.slots.getD g []

/-- Replaces the segments of a graph; the vector grows as far as needed. -/
def set (gs : Graphs V) (g : GraphId) (segs : List (Segment V)) : Graphs V where
  slots := (gs.slots ++ List.replicate (g + 1 - gs.slots.length) []).set g segs
  fits := by
    have hg := g.isLt
    have hfits := gs.fits
    rw [length_set, length_append, length_replicate]
    omega

def map (f : List (Segment V) → List (Segment V)) (gs : Graphs V) : Graphs V where
  slots := gs.slots.map f
  fits := by
    rw [length_map]
    exact gs.fits

theorem get_set_self (g : GraphId) (segs : List (Segment V)) : (gs.set g segs).get g = segs := by
  unfold get set
  rw [getD_eq_getElem?_getD, getElem?_set_self, Option.getD_some]
  rw [length_append, length_replicate]
  omega

/-- An absent graph is one without segments. -/
theorem getD_padded (slots : List (List (Segment V))) (n h : ℕ) :
    (slots ++ List.replicate n []).getD h [] = slots.getD h [] := by
  by_cases hlt : h < slots.length
  · rw [getD_append _ _ _ _ hlt]
  · rw [getD_append_right _ _ _ _ (by omega), getD_eq_default slots _ (by omega),
      getD_eq_getElem?_getD, getElem?_replicate]
    split <;> rfl

theorem get_set_of_ne {g : GraphId} {h : ℕ} (hne : h ≠ g)
    (segs : List (Segment V)) : (gs.set g segs).get h = gs.get h := by
  unfold get set
  rw [getD_eq_getElem?_getD, getElem?_set_ne hne.symm, ← getD_eq_getElem?_getD, getD_padded]

theorem get_map {f : List (Segment V) → List (Segment V)} (hf : f [] = [])
    (g : ℕ) : (gs.map f).get g = f (gs.get g) := by
  have h : (gs.slots.map f).getD g (f []) = f (gs.slots.getD g []) := getD_map ..
  rwa [hf] at h

def sum (w : Segment V → ℕ) (gs : Graphs V) : ℕ := (gs.slots.flatten.map w).sum

end Graphs

/-- The graph that holds the configuration of a ledger. -/
def configGraphId : GraphId := 2

end FlureeDb.Novelty

namespace FlureeDb

open FlureeDb.Core

structure Novelty (V : Type) [ObjectValue V] where
  graphs : Novelty.Graphs V
  size : ℕ
  flakeCount : ℕ
  t : ℤ
  epoch : ℕ
  configWriteT : ℤ
  factState : Novelty.FactState V

end FlureeDb

/-! ### Novelty -/

namespace FlureeDb.Novelty

open FlureeDb.Core Lib

variable {V : Type} [ObjectValue V]

def new (t : ℤ) : Novelty V := ⟨Graphs.empty, 0, 0, t, 0, 0, FactState.new⟩

variable (n : Novelty V)

/-- The flakes that are stored for a graph, segment after segment. -/
def stored (g : ℕ) : List (Flake V) := (n.graphs.get g).flatMap Segment.flakes

variable (reverseGraph : Sid → Option GraphId)

/-- The graph a flake belongs to; the default one if it names none. -/
def resolveFlakeGId (f : Flake V) : Except NoveltyError GraphId :=
  match f.g with
  | none => .ok 0
  | some sid =>
    match reverseGraph sid with
    | some g => .ok g
    | none => .error (.invalidGraph ("flake references unknown graph Sid: " ++ sid.display))

/-- Every flake with its graph, or the error of the first flake without one. -/
def route (flakes : List (Flake V)) : Except NoveltyError (List (Flake V × GraphId)) :=
  flakes.mapM fun f => (resolveFlakeGId reverseGraph f).map fun g => (f, g)

variable (routed : List (Flake V × GraphId))

def batchOf (g : GraphId) : List (Flake V) :=
  (routed.filter fun e => e.2 == g).map Prod.fst

def touched : List GraphId := (routed.map Prod.snd).dedup

def pushSegment (g : GraphId) (seg : Segment V) : Novelty V :=
  { n with
    graphs := n.graphs.set g (n.graphs.get g ++ [seg])
    size := n.size + seg.size
    flakeCount := n.flakeCount + seg.flakes.length }

/-- One more segment for a graph has to be within the width of a handle. -/
def checkSegmentCapacity (g : GraphId) : Except NoveltyError Unit :=
  if maxSegments < (n.graphs.get g).length + 1 then
    .error (.overflow "novelty segment count exceeds capacity, trigger reindex")
  else .ok ()

def recomputeTotals : Novelty V :=
  { n with
    size := n.graphs.sum Segment.size
    flakeCount := n.graphs.sum fun seg => seg.flakes.length }

variable (sort : Bool → UnstableSort)

/-- Segments of at most the addressable number of flakes, the last one with what is
left. -/
def chunkSegments (parallel : Bool) : ℕ → List (Flake V) → List (Segment V)
  | 0, flakes => [Segment.build sort flakes parallel]
  | n + 1, flakes =>
    if maxSegmentFlakes < flakes.length then
      Segment.build sort (flakes.take maxSegmentFlakes) parallel ::
        chunkSegments parallel n (flakes.drop maxSegmentFlakes)
    else [Segment.build sort flakes parallel]

/-- As many rounds as there are flakes are more than enough. -/
def chunks (parallel : Bool) (flakes : List (Flake V)) : List (Segment V) :=
  chunkSegments sort parallel flakes.length flakes

def setGraphSegments (gs : Graphs V) (g : GraphId) (flakes : List (Flake V)) (parallel : Bool) :
    Graphs V :=
  if flakes.isEmpty then gs.set g [] else gs.set g (chunks sort parallel flakes)

/-- Asserts of facts that are asserted already are dropped; retracts never are. -/
def keptOf (routed : List (Flake V × GraphId)) : List (Flake V × GraphId) :=
  routed.filter fun e => !(e.1.op && n.factState.isAsserted e.2 e.1)

/-- What cannot fail of a commit: what is kept is recorded and becomes one segment for
each graph. -/
def accept (n : Novelty V) (routed : List (Flake V × GraphId)) (commitT : ℤ) : Novelty V :=
  let kept := n.keptOf routed
  let factState := (touched kept).foldl (fun fs g => fs.recordAll g (batchOf kept g)) n.factState
  let config := if configGraphId ∈ touched routed then max n.configWriteT commitT
    else n.configWriteT
  (touched kept).foldl
    (fun n g => n.pushSegment g (Segment.build sort (batchOf kept g) false))
    { n with
      t := max n.t commitT, epoch := n.epoch + 1, configWriteT := config, factState := factState }

def applyCommit (n : Novelty V) (reverseGraph : Sid → Option GraphId)
    (flakes : List (Flake V)) (commitT : ℤ) : Except NoveltyError (Novelty V) :=
  if flakes.isEmpty then .ok n
  else if maxSegmentFlakes < flakes.length then
    .error (.overflow "commit batch exceeds max segment flakes, trigger reindex")
  else do
    let routed ← route reverseGraph flakes
    (touched routed).forM n.checkSegmentCapacity
    return n.accept sort routed commitT

/-- The order of the bulk load: identity, then time, then operation. -/
def bulkCmp (a b : Flake V) : Ordering :=
  (((((a.s.cmp b.s).then (a.p.cmp b.p)).then (a.cmpObject b)).then (a.cmpMeta b)).then
    (compare a.t b.t)).then (compare a.op b.op)

/-- The walk over the sorted flakes. The state is the last flake kept of the current
identity and whether the fact counts as asserted: the first flake of an identity is
kept, then every retract, and an assert if the fact is not asserted. -/
def dedupWalk : Option (Flake V × Bool) → List (Flake V) → List (Flake V)
  | _, [] => []
  | none, f :: flakes => f :: dedupWalk (some (f, f.op)) flakes
  | some (last, asserted), f :: flakes =>
    if sameIdentity last f then
      if !f.op then f :: dedupWalk (some (f, false)) flakes
      else if !asserted then f :: dedupWalk (some (f, true)) flakes
      else dedupWalk (some (last, asserted)) flakes
    else f :: dedupWalk (some (f, f.op)) flakes

/-- Sorts what a graph holds together with the new flakes, walks over it and builds
the graph anew. -/
def bulkGraph (maxT : ℤ) (n : Novelty V) (g : GraphId) (newFlakes : List (Flake V)) : Novelty V :=
  let combined := n.stored g ++ newFlakes
  let kept := dedupWalk none ((sort true).sort bulkCmp combined)
  { n with
    graphs := setGraphSegments sort n.graphs g kept true
    factState := n.factState.recordAll g kept
    configWriteT := if g = configGraphId then max n.configWriteT maxT else n.configWriteT }

/-- All batches at once; a commit is its flakes and its time. -/
def bulkApplyCommits (n : Novelty V) (reverseGraph : Sid → Option GraphId)
    (batches : List (List (Flake V) × ℤ)) : Except NoveltyError (Novelty V) := do
  let routed ← route reverseGraph (batches.flatMap Prod.fst)
  let maxT := batches.foldl (fun t batch => max t batch.2) n.t
  if routed.isEmpty then return { n with t := maxT, epoch := n.epoch + 1 }
  else
    let n' := (touched routed).foldl (fun n g => n.bulkGraph sort maxT g (batchOf routed g)) n
    return { n' with t := maxT, epoch := n'.epoch + 1 }.recomputeTotals

/-! ### Compaction -/

/-- Counts how often the bound fits under the count; it stops before the bound leaves
the machine word. -/
def sizeClassLoop (count width : ℕ) : ℕ → ℕ → ℕ → ℕ
  | 0, _, cls => cls
  | fuel + 1, bound, cls =>
    if bound ≤ count then
      if bound * width < 2 ^ 64 then sizeClassLoop count width fuel (bound * width) (cls + 1)
      else cls + 1
    else cls

/-- The size tier of a segment. The bound at least doubles in every round. -/
def sizeClass (count width : ℕ) : ℕ :=
  if count ≤ 1 ∨ width < 2 then 0 else sizeClassLoop count width 64 width 0

def segmentClass (width : ℕ) (seg : Segment V) : ℕ := sizeClass seg.flakes.length width

/-- The lowest class from `minClass` on with a full group of segments. -/
def targetClass (width minClass : ℕ) (segs : List (Segment V)) : Option ℕ :=
  let classes := segs.map (segmentClass width)
  (classes.filter fun c => decide (minClass ≤ c) && decide (width ≤ classes.count c)).min?

/-- The flakes of the first so many segments of a class, and the other segments. -/
def takeClass (width cls : ℕ) : ℕ → List (Segment V) → List (Flake V) × List (Segment V)
  | _, [] => ([], [])
  | 0, seg :: segs =>
    let rest := takeClass width cls 0 segs
    (rest.1, seg :: rest.2)
  | k + 1, seg :: segs =>
    if segmentClass width seg = cls then
      let rest := takeClass width cls k segs
      (seg.flakes ++ rest.1, rest.2)
    else
      let rest := takeClass width cls (k + 1) segs
      (rest.1, seg :: rest.2)

/-- One cascade over the classes of a graph, and how many merges it made. No class is
above 64, so the rounds suffice. -/
def tierCompactLoop (width : ℕ) : ℕ → ℕ → List (Segment V) → List (Segment V) × ℕ
  | 0, _, segs => (segs, 0)
  | fuel + 1, minClass, segs =>
    if segs.length < width then (segs, 0)
    else
      match targetClass width minClass segs with
      | none => (segs, 0)
      | some target =>
        let taken := takeClass width target width segs
        let rest := tierCompactLoop width fuel (target + 1)
          (taken.2 ++ chunks sort true taken.1)
        (rest.1, rest.2 + 1)

def tierCompactGraph (width : ℕ) (segs : List (Segment V)) : List (Segment V) × ℕ :=
  tierCompactLoop sort width 65 0 segs

/-- Compacts every graph; the number of merges is returned. -/
def tierCompact (n : Novelty V) (width : ℕ) : Novelty V × ℕ :=
  if width < 2 then (n, 0)
  else
    let merges := (n.graphs.slots.map fun segs => (tierCompactGraph sort width segs).2).sum
    let n' := { n with graphs := n.graphs.map fun segs => (tierCompactGraph sort width segs).1 }
    if 0 < merges then ({ n' with epoch := n.epoch + 1 }.recomputeTotals, merges)
    else (n', 0)

end FlureeDb.Novelty
