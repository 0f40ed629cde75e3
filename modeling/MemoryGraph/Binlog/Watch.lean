import Mathlib.Data.Finmap

/-!
# MemoryGraph — watching the binlog (`src/controller/mysql_binlog.rs`)

`WatchMysqlBinlog` reads binlog events and hands the rows of two tables, one for nodes and one
for edges, to callbacks of its user. A row event names its table by a number only; the table
map events before it say which table the number stands for, and the ones that may concern a
watched table are kept in `table_map_cache`.

* The callbacks (`tidy_func`, `func`) do anything, so they are computations in a monad `m`,
  and what the watcher does is a computation in `m` too.
* The rows are a type `Row`; of the event types of the connector library only the four that are
  looked at are told apart.
* The events come as a list, in the order in which `run` reads them; `run` itself is in
  `Binlog.Session`.
-/

namespace MemoryGraph

/-- `TableMapEvent`, as far as it is read. -/
structure TableMapEvent where
  tableId : UInt64
  databaseName : String
  tableName : String
  deriving DecidableEq, Repr

inductive EventData (Row : Type) where
  | writeRows (tableId : UInt64) (rows : List Row)
  | deleteRows (tableId : UInt64) (rows : List Row)
  | updateRows (tableId : UInt64) (rows : List (Row × Row))
  | tableMap (event : TableMapEvent)
  /-- Any other event. -/
  | other

/-- `Item<T>`: a watched table, and the two callbacks its rows go through. -/
structure Item (m : Type → Type) (Row T : Type) where
  dbName : String
  table : String
  tidyFunc : Int8 → List Row → m (Option T)
  func : Int8 → Option T → m Unit

structure WatchMysqlBinlog (m : Type → Type) (Row T R : Type) where
  node : Item m Row T
  edge : Item m Row R
  url : String
  heartbeatIntervalSecs : UInt64
  timeoutSecs : UInt64
  serverId : UInt64
  tableMapCache : Finmap fun _ : UInt64 => TableMapEvent

/-- `HashMap::entry(..).or_insert(..)`: an entry that is there stays. -/
def orInsert (cache : Finmap fun _ : UInt64 => TableMapEvent) (event : TableMapEvent) :
    Finmap fun _ : UInt64 => TableMapEvent :=
  if event.tableId ∈ cache then cache else cache.insert event.tableId event

namespace WatchMysqlBinlog

variable {m : Type → Type} {Row T R : Type}

def new (node : Item m Row T) (edge : Item m Row R) (url : String)
    (heartbeatIntervalSecs timeoutSecs serverId : UInt64) : WatchMysqlBinlog m Row T R where
  node := node
  edge := edge
  url := url
  heartbeatIntervalSecs := heartbeatIntervalSecs
  timeoutSecs := timeoutSecs
  serverId := serverId
  tableMapCache := ∅

variable [Monad m]

def tidyFunc (self : WatchMysqlBinlog m Row T R) (tableId : UInt64) (tag : Int8)
    (data : List Row) : m Unit :=
  match self.tableMapCache.lookup tableId with
  | none => pure ()
  | some table =>
    if table.databaseName = self.node.dbName ∧ table.tableName = self.node.table then do
      let res ← self.node.tidyFunc tag data
      self.node.func tag res
    else if table.databaseName = self.edge.dbName ∧ table.tableName = self.edge.table then do
      let res ← self.edge.tidyFunc tag data
      self.edge.func tag res
    else
      pure ()

/-- `WatchMysqlBinlog::parse_json_columns`, with the watcher it leaves. -/
def parseJsonColumns (self : WatchMysqlBinlog m Row T R) :
    EventData Row → m (WatchMysqlBinlog m Row T R)
  | .writeRows tableId rows => do
    self.tidyFunc tableId 1 rows
    pure self
  | .deleteRows tableId rows => do
    self.tidyFunc tableId 3 rows
    pure self
  | .updateRows tableId rows => do
    forM rows fun (before, after) => self.tidyFunc tableId 2 [before, after]
    pure self
  | .tableMap event =>
    if event.databaseName ≠ self.node.dbName ∧ event.databaseName ≠ self.edge.dbName then
      pure self
    else if event.tableName ≠ self.node.table ∧ event.tableName ≠ self.edge.table then
      pure self
    else
      pure { self with tableMapCache := orInsert self.tableMapCache event }
  | .other => pure self

/-- The events of a stream, one after another. -/
def feed (self : WatchMysqlBinlog m Row T R) (stream : List (EventData Row)) :
    m (WatchMysqlBinlog m Row T R) :=
  stream.foldlM parseJsonColumns self

end WatchMysqlBinlog

end MemoryGraph
