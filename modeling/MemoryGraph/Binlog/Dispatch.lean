import MemoryGraph.Binlog.Watch

/-!
# MemoryGraph — what the watcher calls back

The specification looks at the stream alone: a row event goes to the item whose table an
earlier table map bound its number to (`watched`), and a whole stream gives one list of
callbacks (`expected`). The watcher decides with `table_map_cache`, which keeps a table map
when its database is that of either item and its table is that of either item.

* **`parseJsonColumns_eq`** — one event performs a list of callbacks and updates the cache;
* **`Cached`** — what the cache knows of the events so far;
* **`feed_performs_expected`** — the watcher performs exactly the expected callbacks, in order.
-/

namespace MemoryGraph

variable {m : Type → Type} {Row T R : Type}

/-! ## The specification -/

inductive Target where
  | node
  | edge
  deriving DecidableEq, Repr

/-- One callback: whose, with which tag and on which rows. -/
structure Callback (Row : Type) where
  target : Target
  tag : Int8
  rows : List Row
  deriving DecidableEq, Repr

/-- The result of the item's `tidy_func` goes to its `func`, with the same tag. -/
def Callback.perform [Monad m] (node : Item m Row T) (edge : Item m Row R) (c : Callback Row) :
    m Unit :=
  match c.target with
  | .node => do
    let res ← node.tidyFunc c.tag c.rows
    node.func c.tag res
  | .edge => do
    let res ← edge.tidyFunc c.tag c.rows
    edge.func c.tag res

namespace EventData

/-- The event binds the table number to the table. -/
def binds (tableId : UInt64) (dbName table : String) : EventData Row → Bool
  | .tableMap event =>
    event.tableId = tableId ∧ event.databaseName = dbName ∧ event.tableName = table
  | _ => false

/-- The table number a row event names, with a tag and rows for each callback it gives. -/
def payloads : EventData Row → List (UInt64 × Int8 × List Row)
  | .writeRows tableId rows => [(tableId, 1, rows)]
  | .deleteRows tableId rows => [(tableId, 3, rows)]
  | .updateRows tableId rows => rows.map fun (before, after) => (tableId, 2, [before, after])
  | _ => []

/-- The callbacks of an event, when `target` says whose table a number stands for. -/
def callbacks (target : UInt64 → Option Target) (ev : EventData Row) : List (Callback Row) :=
  ev.payloads.flatMap fun (tableId, tag, rows) => ((target tableId).map (⟨·, tag, rows⟩)).toList

end EventData

/-- Whose table a number stands for after the events `seen`: the node item's, if one of them
bound it to that, else the edge item's, if one of them bound it to that. -/
def watched (node : Item m Row T) (edge : Item m Row R) (seen : List (EventData Row))
    (tableId : UInt64) : Option Target :=
  if seen.any (EventData.binds tableId node.dbName node.table) then some .node
  else if seen.any (EventData.binds tableId edge.dbName edge.table) then some .edge
  else none

/-- The callbacks a stream gives, after the events `seen`. -/
def expected (node : Item m Row T) (edge : Item m Row R) :
    List (EventData Row) → List (EventData Row) → List (Callback Row)
  | _, [] => []
  | seen, ev :: rest =>
    ev.callbacks (watched node edge seen) ++ expected node edge (seen ++ [ev]) rest

/-- Every table number is bound to a single table. -/
def BoundOnce (stream : List (EventData Row)) : Prop :=
  ∀ e e', .tableMap e ∈ stream → .tableMap e' ∈ stream → e.tableId = e'.tableId →
    e.databaseName = e'.databaseName ∧ e.tableName = e'.tableName

/-- The binding that an event makes, if it makes one. -/
def EventData.tableMap? : EventData Row → Option TableMapEvent
  | .tableMap event => some event
  | _ => none

theorem EventData.tableMap?_eq_some {ev : EventData Row} {event : TableMapEvent} :
    ev.tableMap? = some event ↔ ev = .tableMap event := by
  cases ev <;> simp [EventData.tableMap?]

/-- Whether a stream binds numbers once can be decided on its table maps. -/
theorem boundOnce_iff {stream : List (EventData Row)} : BoundOnce stream ↔
    ∀ e ∈ stream.filterMap EventData.tableMap?, ∀ e' ∈ stream.filterMap EventData.tableMap?,
      e.tableId = e'.tableId → e.databaseName = e'.databaseName ∧ e.tableName = e'.tableName := by
  simp only [List.mem_filterMap, EventData.tableMap?_eq_some, exists_eq_right]
  exact ⟨fun h e he e' he' => h e e' he he', fun h e e' he he' => h e he e' he'⟩

instance (stream : List (EventData Row)) : Decidable (BoundOnce stream) :=
  decidable_of_iff' _ boundOnce_iff

/-! ## One event -/

namespace WatchMysqlBinlog

/-- Whose table a number stands for, by the cache. -/
def target (self : WatchMysqlBinlog m Row T R) (tableId : UInt64) : Option Target :=
  match self.tableMapCache.lookup tableId with
  | none => none
  | some table =>
    if table.databaseName = self.node.dbName ∧ table.tableName = self.node.table then some .node
    else if table.databaseName = self.edge.dbName ∧ table.tableName = self.edge.table then
      some .edge
    else none

/-- The table map may concern a watched table. -/
def Concerns (self : WatchMysqlBinlog m Row T R) (event : TableMapEvent) : Prop :=
  (event.databaseName = self.node.dbName ∨ event.databaseName = self.edge.dbName) ∧
    (event.tableName = self.node.table ∨ event.tableName = self.edge.table)

instance (self : WatchMysqlBinlog m Row T R) (event : TableMapEvent) :
    Decidable (self.Concerns event) := by
  unfold Concerns
  infer_instance

def absorb (self : WatchMysqlBinlog m Row T R) : EventData Row → WatchMysqlBinlog m Row T R
  | .tableMap event =>
    if self.Concerns event then
      { self with tableMapCache := orInsert self.tableMapCache event }
    else self
  | _ => self

/-- The callbacks of a stream, event by event. -/
def performed (self : WatchMysqlBinlog m Row T R) : List (EventData Row) → List (Callback Row)
  | [] => []
  | ev :: rest => ev.callbacks self.target ++ (self.absorb ev).performed rest

@[simp] theorem absorb_node (self : WatchMysqlBinlog m Row T R) (ev : EventData Row) :
    (self.absorb ev).node = self.node := by
  unfold absorb
  split
  · split <;> rfl
  · rfl

@[simp] theorem absorb_edge (self : WatchMysqlBinlog m Row T R) (ev : EventData Row) :
    (self.absorb ev).edge = self.edge := by
  unfold absorb
  split
  · split <;> rfl
  · rfl

variable [Monad m] [LawfulMonad m]

theorem forM_flatMap {α β : Type} (l : List α) (f : α → List β) (g : β → m Unit) :
    forM (l.flatMap f) g = forM l fun a => forM (f a) g := by
  induction l with
  | nil => rfl
  | cons a l ih => rw [List.flatMap_cons, List.forM_append, List.forM_cons, ih]

/-- `tidy_func` gives the rows to the item whose table the number stands for, if there is one. -/
theorem tidyFunc_eq (self : WatchMysqlBinlog m Row T R) (tableId : UInt64) (tag : Int8)
    (data : List Row) :
    self.tidyFunc tableId tag data =
      forM ((self.target tableId).map (⟨·, tag, data⟩)).toList
        (Callback.perform self.node self.edge) := by
  unfold tidyFunc target
  cases self.tableMapCache.lookup tableId with
  | none => rfl
  | some table =>
    simp only
    split
    · simp [Callback.perform]
    · split
      · simp [Callback.perform]
      · rfl

/-- The calls of `tidy_func` for an event perform its callbacks. -/
theorem forM_payloads (self : WatchMysqlBinlog m Row T R) (ev : EventData Row) :
    forM ev.payloads (fun p => self.tidyFunc p.1 p.2.1 p.2.2) =
      forM (ev.callbacks self.target) (Callback.perform self.node self.edge) := by
  simp only [tidyFunc_eq, EventData.callbacks, forM_flatMap]

/-- One event performs its callbacks and goes on with the watcher after it. -/
theorem parseJsonColumns_eq (self : WatchMysqlBinlog m Row T R) (ev : EventData Row) :
    self.parseJsonColumns ev =
      forM (ev.callbacks self.target) (Callback.perform self.node self.edge)
        >>= fun _ => pure (self.absorb ev) := by
  rw [← forM_payloads]
  cases ev with
  | writeRows tableId rows => simp [parseJsonColumns, EventData.payloads, absorb]
  | deleteRows tableId rows => simp [parseJsonColumns, EventData.payloads, absorb]
  | updateRows tableId rows => simp [parseJsonColumns, EventData.payloads, absorb]
  | tableMap event =>
    -- the two early returns together are the negation of `Concerns`
    simp only [parseJsonColumns, EventData.payloads, absorb, List.forM_nil, pure_bind]
    by_cases hdb : event.databaseName = self.node.dbName ∨ event.databaseName = self.edge.dbName
    · by_cases htable : event.tableName = self.node.table ∨ event.tableName = self.edge.table
      · rw [if_neg (not_and_or.mpr ?_), if_neg (not_and_or.mpr ?_), if_pos ⟨hdb, htable⟩]
        all_goals simpa
      · rw [if_neg (not_and_or.mpr ?_), if_pos (not_or.mp htable), if_neg fun h => htable h.2]
        simpa
    · rw [if_pos (not_or.mp hdb), if_neg fun h => hdb h.1]
  | other => simp [parseJsonColumns, EventData.payloads, absorb]

end WatchMysqlBinlog

/-! ## What the cache knows -/

theorem EventData.any_binds {seen : List (EventData Row)} {tableId : UInt64}
    {dbName table : String} :
    seen.any (EventData.binds tableId dbName table) = true ↔
      ∃ event, .tableMap event ∈ seen ∧ event.tableId = tableId ∧ event.databaseName = dbName ∧
        event.tableName = table := by
  rw [List.any_eq_true]
  constructor
  · rintro ⟨ev, hmem, hbinds⟩
    cases ev with
    | tableMap event => exact ⟨event, hmem, by simpa [EventData.binds] using hbinds⟩
    | _ => simp [EventData.binds] at hbinds
  · rintro ⟨event, hmem, hbinds⟩
    exact ⟨_, hmem, by simpa [EventData.binds] using hbinds⟩

/-- An entry that is there stays, and another number keeps what it has. -/
theorem lookup_orInsert_eq (cache : Finmap fun _ : UInt64 => TableMapEvent) (event : TableMapEvent)
    (tableId : UInt64) :
    (orInsert cache event).lookup tableId =
      (cache.lookup tableId).or (if event.tableId = tableId then some event else none) := by
  unfold orInsert
  rcases eq_or_ne event.tableId tableId with rfl | hne
  · split
    · rename_i hmem
      obtain ⟨old, hold⟩ := Finmap.mem_iff.mp hmem
      rw [hold, Option.some_or]
    · rename_i hmem
      rw [Finmap.lookup_insert, Finmap.lookup_eq_none.mpr hmem, if_pos rfl, Option.none_or]
  · rw [if_neg hne, Option.or_none]
    split
    · rfl
    · rw [Finmap.lookup_insert_of_ne _ (Ne.symm hne)]

theorem mem_orInsert {cache : Finmap fun _ : UInt64 => TableMapEvent} {event : TableMapEvent}
    {tableId : UInt64} :
    tableId ∈ orInsert cache event ↔ tableId ∈ cache ∨ tableId = event.tableId := by
  rw [← Finmap.lookup_isSome, ← Finmap.lookup_isSome, lookup_orInsert_eq, Option.isSome_or]
  rcases eq_or_ne tableId event.tableId with rfl | hne
  · simp
  · simp [hne, Ne.symm hne]

/-- What is cached afterwards was there, or is the new entry. -/
theorem lookup_orInsert {cache : Finmap fun _ : UInt64 => TableMapEvent}
    {event event' : TableMapEvent} {tableId : UInt64}
    (h : (orInsert cache event).lookup tableId = some event') :
    cache.lookup tableId = some event' ∨ (event' = event ∧ tableId = event.tableId) := by
  rw [lookup_orInsert_eq] at h
  rcases Option.or_eq_some_iff.mp h with hold | ⟨-, hnew⟩
  · exact Or.inl hold
  · obtain ⟨hid, heq⟩ : event.tableId = tableId ∧ event = event' := by simpa using hnew
    exact Or.inr ⟨heq.symm, hid.symm⟩

/-- The cache holds table maps of the stream, and one for every number that a table map of the
stream which may concern a watched table has bound. -/
structure Cached (seen : List (EventData Row)) (w : WatchMysqlBinlog m Row T R) : Prop where
  sound : ∀ {tableId event}, w.tableMapCache.lookup tableId = some event →
    .tableMap event ∈ seen ∧ event.tableId = tableId
  complete : ∀ {event}, .tableMap event ∈ seen → w.Concerns event →
    event.tableId ∈ w.tableMapCache

namespace Cached

variable {seen : List (EventData Row)} {w : WatchMysqlBinlog m Row T R}

theorem new (node : Item m Row T) (edge : Item m Row R) (url : String)
    (heartbeatIntervalSecs timeoutSecs serverId : UInt64) :
    Cached [] (WatchMysqlBinlog.new node edge url heartbeatIntervalSecs timeoutSecs serverId) where
  sound h := by simp [WatchMysqlBinlog.new] at h
  complete h := by simp at h

/-- Events that the cache does not keep can be seen without a change of it. -/
theorem append (h : Cached seen w) {ev : EventData Row}
    (hsilent : ∀ event, ev = .tableMap event → ¬ w.Concerns event) : Cached (seen ++ [ev]) w where
  sound hlookup := by
    obtain ⟨hmem, hid⟩ := h.sound hlookup
    exact ⟨List.mem_append_left _ hmem, hid⟩
  complete {event} hmem hconcerns := by
    rcases List.mem_append.mp hmem with hold | hnew
    · exact h.complete hold hconcerns
    · exact absurd hconcerns (hsilent event (List.mem_singleton.mp hnew).symm)

theorem absorb (h : Cached seen w) (ev : EventData Row) :
    Cached (seen ++ [ev]) (w.absorb ev) := by
  cases ev with
  | tableMap event =>
    by_cases hconcerns : w.Concerns event
    · rw [WatchMysqlBinlog.absorb, if_pos hconcerns]
      -- the entry is the old one or the new event, and both have been seen
      constructor
      · intro tableId event' hlookup
        rcases lookup_orInsert hlookup with hold | ⟨rfl, rfl⟩
        · obtain ⟨hmem, hid⟩ := h.sound hold
          exact ⟨List.mem_append_left _ hmem, hid⟩
        · exact ⟨by simp, rfl⟩
      · intro event' hmem hconcerns'
        rw [mem_orInsert]
        rcases List.mem_append.mp hmem with hold | hnew
        · exact Or.inl (h.complete hold hconcerns')
        · obtain rfl : event' = event := by simpa using hnew
          exact Or.inr rfl
    -- a table map of nobody's table is seen and not kept
    · rw [WatchMysqlBinlog.absorb, if_neg hconcerns]
      refine h.append fun event' heq => ?_
      cases heq
      exact hconcerns
  | _ => exact h.append fun event heq => by cases heq

/-- For the table of either item, the cache decides as the stream does: the loose filter lets
every table map of that table in, and a number is never bound to two tables. -/
theorem lookup_iff_any (h : Cached seen w) (hbound : BoundOnce seen) (tableId : UInt64)
    {dbName table : String} (hwatched : ∀ event : TableMapEvent, event.databaseName = dbName →
      event.tableName = table → w.Concerns event) :
    (∃ event, w.tableMapCache.lookup tableId = some event ∧ event.databaseName = dbName ∧
      event.tableName = table) ↔ seen.any (EventData.binds tableId dbName table) = true := by
  rw [EventData.any_binds]
  constructor
  · rintro ⟨event, hlookup, hdb, htable⟩
    obtain ⟨hmem, hid⟩ := h.sound hlookup
    exact ⟨event, hmem, hid, hdb, htable⟩
  · rintro ⟨event, hmem, rfl, hdb, htable⟩
    obtain ⟨event', hlookup⟩ := Finmap.mem_iff.mp (h.complete hmem (hwatched event hdb htable))
    obtain ⟨hmem', hid⟩ := h.sound hlookup
    obtain ⟨hdb', htable'⟩ := hbound event event' hmem hmem' hid.symm
    exact ⟨event', hlookup, hdb' ▸ hdb, htable' ▸ htable⟩

/-- With every number bound once, the cache decides as the specification does. -/
theorem target_eq (h : Cached seen w) (hbound : BoundOnce seen) :
    w.target = watched w.node w.edge seen := by
  funext tableId
  have hnode := h.lookup_iff_any hbound tableId
    fun event (hdb : _ = w.node.dbName) (ht : _ = w.node.table) => ⟨Or.inl hdb, Or.inl ht⟩
  have hedge := h.lookup_iff_any hbound tableId
    fun event (hdb : _ = w.edge.dbName) (ht : _ = w.edge.table) => ⟨Or.inr hdb, Or.inr ht⟩
  unfold WatchMysqlBinlog.target watched
  simp only [← hnode, ← hedge]
  cases w.tableMapCache.lookup tableId <;> simp

end Cached

/-! ## The whole stream -/

variable [Monad m] [LawfulMonad m]

/-- What a watcher does with a stream: its callbacks, and the watcher after the last event. -/
theorem WatchMysqlBinlog.feed_eq_performed (w : WatchMysqlBinlog m Row T R)
    (stream : List (EventData Row)) :
    w.feed stream = forM (w.performed stream) (Callback.perform w.node w.edge)
      >>= fun _ => pure (stream.foldl .absorb w) := by
  induction stream generalizing w with
  | nil => simp [feed, performed]
  | cons ev rest ih =>
    have hrest := ih (w.absorb ev)
    rw [feed] at hrest ⊢
    rw [List.foldlM_cons, parseJsonColumns_eq, bind_assoc]
    simp only [pure_bind, hrest, performed, List.forM_append, bind_assoc, absorb_node, absorb_edge,
      List.foldl_cons]

omit [Monad m] [LawfulMonad m] in
/-- While every number is bound to a single table, the cache decides as the stream does. -/
theorem Cached.performed_eq {seen stream : List (EventData Row)} {w : WatchMysqlBinlog m Row T R}
    (h : Cached seen w) (hbound : BoundOnce (seen ++ stream)) :
    w.performed stream = expected w.node w.edge seen stream := by
  induction stream generalizing seen w with
  | nil => rfl
  | cons ev rest ih =>
    have hseen : BoundOnce seen := fun e e' he he' =>
      hbound e e' (List.mem_append_left _ he) (List.mem_append_left _ he')
    -- the rest of the stream is read by the watcher after `ev`, which knows one event more
    have hrest := ih (h.absorb ev) (by simpa using hbound)
    rw [WatchMysqlBinlog.performed, hrest, h.target_eq hseen, WatchMysqlBinlog.absorb_node,
      WatchMysqlBinlog.absorb_edge, expected]

/-- **Nothing lost, duplicated, reordered or misrouted.** For any two items and any stream in
which every table number is bound to a single table, feeding the stream to a new watcher
performs exactly the expected callbacks, in order. -/
theorem feed_performs_expected (node : Item m Row T) (edge : Item m Row R) (url : String)
    (heartbeatIntervalSecs timeoutSecs serverId : UInt64) {stream : List (EventData Row)}
    (hbound : BoundOnce stream) :
    (do
      let _ ← (WatchMysqlBinlog.new node edge url heartbeatIntervalSecs timeoutSecs serverId).feed
        stream
      pure ()) = forM (expected node edge [] stream) (Callback.perform node edge) := by
  have hnew : Cached ([] : List (EventData Row)) _ :=
    .new node edge url heartbeatIntervalSecs timeoutSecs serverId
  rw [WatchMysqlBinlog.feed_eq_performed, hnew.performed_eq hbound]
  simp [WatchMysqlBinlog.new]

def loggingItem (target : Target) (dbName table : String) :
    Item (StateM (List (Target × Int8 × Option Nat))) String Nat where
  dbName := dbName
  table := table
  tidyFunc _ rows := pure (some rows.length)
  func tag res := modify (· ++ [(target, tag, res)])

/-- Rows of the node table, of the edge table, and of a third one that has the database of the
edge table and the name of the node table: it is cached and belongs to neither item. -/
def sampleStream : List (EventData String) :=
  [.tableMap ⟨1, "db", "nodes"⟩, .writeRows 1 ["a", "b"], .tableMap ⟨2, "db2", "edges"⟩,
    .tableMap ⟨3, "db2", "nodes"⟩, .updateRows 2 [("a", "b"), ("c", "d")], .writeRows 3 ["a"],
    .deleteRows 1 ["b"]]

/-- Table 3 is in the database of the one item and has the name of the table of the other. It is
nobody's. -/
theorem sampleStream_performs_expected :
    (do
      let _ ← (WatchMysqlBinlog.new (loggingItem .node "db" "nodes")
        (loggingItem .edge "db2" "edges") "" 0 0 0).feed sampleStream
      pure ()) = forM (expected (loggingItem .node "db" "nodes")
        (loggingItem .edge "db2" "edges") [] sampleStream)
        (Callback.perform (loggingItem .node "db" "nodes") (loggingItem .edge "db2" "edges")) ∧
    expected (loggingItem .node "db" "nodes") (loggingItem .edge "db2" "edges") [] sampleStream =
      [⟨.node, 1, ["a", "b"]⟩, ⟨.edge, 2, ["a", "b"]⟩, ⟨.edge, 2, ["c", "d"]⟩, ⟨.node, 3, ["b"]⟩] :=
  ⟨feed_performs_expected _ _ "" 0 0 0 (by decide), by decide⟩

end MemoryGraph
