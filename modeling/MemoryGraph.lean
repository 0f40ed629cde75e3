import MemoryGraph.Conc.Proc
import MemoryGraph.Conc.Interleave
import MemoryGraph.Conc.Linearize
import MemoryGraph.Conc.Between
import MemoryGraph.Conc.Readers
import MemoryGraph.Conc.Acquire
import MemoryGraph.Conc.RwLock
import MemoryGraph.Conc.LockMachine
import MemoryGraph.Conc.Deadlock
import MemoryGraph.Conc.Progress
import MemoryGraph.Refine.Spec
import MemoryGraph.Refine.Table
import MemoryGraph.Refine.Unwinding
import MemoryGraph.Refine.Feeding
import MemoryGraph.Petgraph.SwapRemove
import MemoryGraph.Petgraph.Interface
import MemoryGraph.Petgraph.Named
import MemoryGraph.Petgraph.ListGraph
import MemoryGraph.Petgraph.Walks
import MemoryGraph.Petgraph.ListSearch
import MemoryGraph.Graph.Basic
import MemoryGraph.Graph.Alone
import MemoryGraph.Graph.Caches
import MemoryGraph.Graph.Index
import MemoryGraph.Graph.Concurrent
import MemoryGraph.Graph.Lookup
import MemoryGraph.Graph.ByName
import MemoryGraph.Graph.Catalog
import MemoryGraph.Graph.NodeMap
import MemoryGraph.Graph.EdgeMap
import MemoryGraph.Graph.Removal
import MemoryGraph.Graph.Displaced
import MemoryGraph.Graph.Keys
import MemoryGraph.Graph.AllOrNothing
import MemoryGraph.Graph.NodeTraffic
import MemoryGraph.Graph.Updates
import MemoryGraph.Graph.Known
import MemoryGraph.Graph.Outcome
import MemoryGraph.Graph.Undirected
import MemoryGraph.Graph.Rebuild
import MemoryGraph.Graph.Prebuilt
import MemoryGraph.Graph.Arrival
import MemoryGraph.Graph.Content
import MemoryGraph.Binlog.Watch
import MemoryGraph.Binlog.Dispatch
import MemoryGraph.Binlog.Rebinding
import MemoryGraph.Binlog.Session
import MemoryGraph.Examples.Rows
import MemoryGraph.Examples.ReadData
import MemoryGraph.Examples.Follow
import MemoryGraph.Examples.Tasks
import MemoryGraph.Examples.Mirror
import MemoryGraph.Examples.Find
import MemoryGraph.Examples.Sample
