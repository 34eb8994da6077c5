import Heurema.Data.Cycle
import Heurema.Data.CycleGraph
import Heurema.Rrf
import Heurema.Fts.History
import Heurema.Fts.Snapshot
import Heurema.Fts.Decoder
import Heurema.Fts.Query
import Heurema.Hnsw.Query
import Heurema.Hnsw.Safety
import Heurema.Hnsw.Codec
import Heurema.Hnsw.Decoder
import Heurema.Hnsw.Contract
import Heurema.Hnsw.NewNode
import Heurema.Lifecycle.Depth
import Heurema.Lifecycle.Distinct
import Heurema.Lifecycle.Order
import Heurema.Lifecycle.Total
import Heurema.Lifecycle.Vectors
import Heurema.Lifecycle.Writer
import Heurema.Adapters.Agreement
import Heurema.Adapters.Blame
import Heurema.Adapters.Destroyed
import Heurema.Adapters.Drained
import Heurema.Adapters.Exclusive
import Heurema.Adapters.Foreign
import Heurema.Adapters.Grounded
import Heurema.Adapters.Holdings
import Heurema.Adapters.Rebuilt
import Heurema.Adapters.Searches
import Heurema.Adapters.Snapshots
import Heurema.Adapters.Unblock
