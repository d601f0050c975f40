import FlureeDb.Consensus.Lineage
import FlureeDb.Consensus.Reuse
import FlureeDb.Consensus.Release
import FlureeDb.Consensus.Watermark
import FlureeDb.Consensus.Delivery
import FlureeDb.Consensus.Eviction
import FlureeDb.Consensus.Retraction
import FlureeDb.Index.Incremental
import FlureeDb.Index.LatestScan
import FlureeDb.Index.Lifecycle
import FlureeDb.Index.RebuildTravel
import FlureeDb.Core.ObjKey
import FlureeDb.Core.DayTimeExact
import FlureeDb.Branch.Revert
import FlureeDb.Policy.Evaluate
import FlureeDb.Consensus.LogStore
import FlureeDb.Ledger.TimeResolve
import FlureeDb.Codec.Varint
import FlureeDb.Index.ColumnBatch
import FlureeDb.Branch.NetChange
import FlureeDb.Query.Minus
import FlureeDb.Branch.PendingCommits
import FlureeDb.Shacl.Targets
import FlureeDb.Iceberg.Pruning
