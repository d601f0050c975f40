import FlureeDb.Core.Identifiers
import FlureeDb.Lib.Float64
import FlureeDb.Lib.HashMap

/-!
The data of the replicated nameservice: what the state machine stores, the
commands it accepts and the responses it gives. Unsigned machine integers are
natural numbers and logical times are integers; where the code can wrap or
saturate, the operation says so. A `HashMap` is a finite map without an order,
a `HashSet` or `BTreeSet` a finite set, a `VecDeque` a list with its front at
the head.
-/

namespace FlureeDb.Consensus

open FlureeDb.Core Lib

abbrev NodeId := ℕ

structure RefKey where
  ledgerName : String
  branch : String
  deriving DecidableEq, Repr

def RefKey.ledgerId (key : RefKey) : String :=
  formatLedgerId key.ledgerName key.branch

structure IndexState where
  head : ContentId
  t : ℤ
  deriving DecidableEq

structure RefEntry where
  head : ContentId
  t : ℤ
  lastAdvancedAtMillis : ℕ
  lastAdvancedIndex : ℕ
  index : Option IndexState
  sourceBranch : Option String
  branches : ℕ
  deriving DecidableEq

structure LedgerRecord where
  createdAtMillis : ℕ
  createdIndex : ℕ
  branches : List String
  deriving DecidableEq

inductive RefKind
  | commitHead
  | indexHead
  deriving DecidableEq

structure RefValue where
  id : Option ContentId
  t : ℤ
  deriving DecidableEq

/-- JSON value tree. An object is listed in the order of its keys, which is
how a `BTreeMap` is compared. -/
inductive CanonicalValue
  | null
  | bool (b : Bool)
  | int (i : ℤ)
  | uInt (u : ℕ)
  | float (f : F64)
  | string (s : String)
  | array (items : List CanonicalValue)
  | object (fields : List (String × CanonicalValue))

mutual

/-- The derived `PartialEq` of a value tree. -/
def CanonicalValue.eq : CanonicalValue → CanonicalValue → Bool
  | .null, .null => true
  | .bool a, .bool b => a == b
  | .int a, .int b => a == b
  | .uInt a, .uInt b => a == b
  | .float a, .float b => a.eq b
  | .string a, .string b => a == b
  | .array a, .array b => CanonicalValue.eqItems a b
  | .object a, .object b => CanonicalValue.eqFields a b
  | _, _ => false

def CanonicalValue.eqItems : List CanonicalValue → List CanonicalValue → Bool
  | [], [] => true
  | a :: as, b :: bs => CanonicalValue.eq a b && CanonicalValue.eqItems as bs
  | _, _ => false

def CanonicalValue.eqFields :
    List (String × CanonicalValue) → List (String × CanonicalValue) → Bool
  | [], [] => true
  | (k, a) :: as, (l, b) :: bs =>
    k == l && CanonicalValue.eq a b && CanonicalValue.eqFields as bs
  | _, _ => false

end

structure StoredStatus where
  v : ℤ
  state : String
  extra : List (String × CanonicalValue)

instance : BEq StoredStatus where
  beq a b := a.v == b.v && a.state == b.state && CanonicalValue.eqFields a.extra b.extra

/-- The fallback the apply path compares an initial status push against:
version 1, state `ready`. -/
def StoredStatus.initial : StoredStatus := ⟨1, "ready", []⟩

structure StoredConfigPayload where
  defaultContext : Option ContentId
  configId : Option ContentId
  extra : List (String × CanonicalValue)

instance : BEq StoredConfigPayload where
  beq a b := a.defaultContext == b.defaultContext && a.configId == b.configId &&
    CanonicalValue.eqFields a.extra b.extra

structure StoredConfig where
  v : ℤ
  payload : Option StoredConfigPayload

instance : BEq StoredConfig where
  beq a b := a.v == b.v && a.payload == b.payload

/-- The fallback the apply path compares an initial config push against. -/
def StoredConfig.unborn : StoredConfig := ⟨0, none⟩

/-! ### Graph sources -/

inductive GraphSourceType
  | bm25
  | vector
  | geo
  | r2rml
  | iceberg
  | unknown (name : String)
  deriving DecidableEq

structure GraphSourceRecord where
  graphSourceId : String
  name : String
  branch : String
  sourceType : GraphSourceType
  config : String
  dependencies : List String
  indexId : Option ContentId
  indexT : ℤ
  retracted : Bool
  deriving DecidableEq

def GraphSourceRecord.new (name branch : String) (sourceType : GraphSourceType)
    (config : String) (dependencies : List String) : GraphSourceRecord where
  graphSourceId := formatLedgerId name branch
  name := name
  branch := branch
  sourceType := sourceType
  config := config
  dependencies := dependencies
  indexId := none
  indexT := 0
  retracted := false

/-- Caller-provided identifier of a submission. The bounds on its length are
checked by the type's only constructor. -/
structure IdempotencyKey where
  value : String
  ne_empty : 0 < value.utf8ByteSize
  length_le : value.utf8ByteSize ≤ 128
  deriving DecidableEq

structure IdempotencyCacheKey where
  ledgerId : String
  key : IdempotencyKey
  deriving DecidableEq

inductive BodyKind
  | jsonLdInsert
  | jsonLdUpsert
  | jsonLdUpdate
  | turtleInsert
  | turtleUpsert
  | trigUpsert
  | sparql
  | cypher
  | pushed
  | revert
  | merge
  | rebase
  deriving DecidableEq

structure PolicyStats where
  executed : ℕ
  allowed : ℕ

structure RecordedReasoningTally where
  capped : Bool
  cappedReason : Option String
  derivedFacts : ℕ
  iterations : ℕ
  durationMs : ℕ

structure RecordedTally where
  time : Option String
  fuel : Option F64
  policy : Option (HashMap String PolicyStats)
  reasoning : Option RecordedReasoningTally

structure ApplyRecord where
  requestCid : ContentId
  bodyCid : ContentId
  bodyKind : BodyKind
  recordedAtMillis : ℕ
  head : ContentId
  t : ℤ
  recordedIndex : ℕ
  tally : Option RecordedTally
  flakeCount : ℕ

inductive PoisonReason
  | stagingFailed (error : String) (attempts : ℕ)
  | bodyMalformed (error : String)
  | policyViolation (error : String)
  | ledgerNotFound (ledgerId : String)
  | pushCasFailed (headAtWorker expectedByChain : Option ContentId)
  | workerPanic (message : String)
  deriving DecidableEq

structure PoisonRecord where
  requestCid : ContentId
  bodyCid : ContentId
  reason : PoisonReason
  recordedIndex : ℕ
  recordedAtMillis : ℕ

inductive ApplyOutcome
  | applied (record : ApplyRecord)
  | failed (record : PoisonRecord)

def ApplyOutcome.requestCid : ApplyOutcome → ContentId
  | .applied r => r.requestCid
  | .failed r => r.requestCid

/-- Canonical-body CID that a retry is compared with. -/
def ApplyOutcome.bodyCid : ApplyOutcome → ContentId
  | .applied r => r.bodyCid
  | .failed r => r.bodyCid

def ApplyOutcome.recordedAtMillis : ApplyOutcome → ℕ
  | .applied r => r.recordedAtMillis
  | .failed r => r.recordedAtMillis

def ApplyOutcome.recordedIndex : ApplyOutcome → ℕ
  | .applied r => r.recordedIndex
  | .failed r => r.recordedIndex

structure QueueEntry where
  queueId : ℕ
  enqueuedIndex : ℕ
  enqueuedAtMillis : ℕ
  idempotency : Option IdempotencyCacheKey
  requestCid : ContentId
  bodyCid : ContentId
  bodyKind : BodyKind

inductive ClearReason
  | branchDropped
  | branchPurged
  | branchHeadReset
  | branchRetracted
  deriving DecidableEq

structure ClearMarker where
  reason : ClearReason
  appliedAtMillis : ℕ
  deriving DecidableEq

structure QueueConfig where
  perBranchCap : ℕ
  globalCap : ℕ
  deriving DecidableEq

/-- The bounds every node uses. -/
def QueueConfig.default : QueueConfig := ⟨1024, 16384⟩

structure NameServiceState where
  refs : HashMap RefKey RefEntry
  ledgers : HashMap String LedgerRecord
  retracted : Finset RefKey
  idempotency : HashMap IdempotencyCacheKey ApplyOutcome
  queues : HashMap RefKey (List QueueEntry)
  nextQueueId : ℕ
  recentlyCleared : HashMap RefKey ClearMarker
  evictedIdempotencyCount : ℕ
  queueConfig : QueueConfig
  status : HashMap String StoredStatus
  config : HashMap String StoredConfig
  graphSources : HashMap String GraphSourceRecord
  workerEligibleVoters : Finset NodeId
  configuredVoters : Finset NodeId

def NameServiceState.new : NameServiceState where
  refs := ∅
  ledgers := ∅
  retracted := ∅
  idempotency := ∅
  queues := ∅
  nextQueueId := 0
  recentlyCleared := ∅
  evictedIdempotencyCount := 0
  queueConfig := QueueConfig.default
  status := ∅
  config := ∅
  graphSources := ∅
  workerEligibleVoters := ∅
  configuredVoters := ∅

end FlureeDb.Consensus
