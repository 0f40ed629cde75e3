import MemoryGraph.Binlog.Dispatch

/-!
# MemoryGraph — a table number that is bound again

A table map event says which table a number stands for from then on. The watcher keeps the
first table map of a number that passes its two filters, and no later one replaces it or takes
it out. So the rows after a table map go where that table map says only when the kept one, if
there is one, stands for the same item.

* **`firstKept`** — the table map of a number that a stream leaves in `table_map_cache`;
* **`RoutesTo`** — an event after a stream makes the callbacks of one item and no others,
  whatever the callbacks are;
* **`rows_follow_table_map_iff`** — the exact condition on the stream before the table map.
-/

namespace MemoryGraph

variable {m : Type → Type} {Row T R : Type}

/-- The item that a table belongs to, when the items watch the tables `node` and `edge`, each
given by its database and its name. -/
def itemOf (node edge : String × String) (event : TableMapEvent) : Option Target :=
  if (event.databaseName, event.tableName) = node then some .node
  else if (event.databaseName, event.tableName) = edge then some .edge
  else none

/-- The two filters of `parse_json_columns`: the database is one of the two, and so is the name. -/
def PassesFilters (node edge : String × String) (event : TableMapEvent) : Prop :=
  (event.databaseName = node.1 ∨ event.databaseName = edge.1) ∧
    (event.tableName = node.2 ∨ event.tableName = edge.2)

instance (node edge : String × String) (event : TableMapEvent) :
    Decidable (PassesFilters node edge event) := by
  unfold PassesFilters
  infer_instance

/-- The table map that an event is, if it is one of the number that passes the filters. -/
def EventData.kept? (node edge : String × String) (tableId : UInt64) :
    EventData Row → Option TableMapEvent
  | .tableMap event =>
    if event.tableId = tableId ∧ PassesFilters node edge event then some event else none
  | _ => none

/-- The first table map of the number in the stream that passes the filters. -/
def firstKept (node edge : String × String) (stream : List (EventData Row)) (tableId : UInt64) :
    Option TableMapEvent :=
  stream.findSome? (EventData.kept? node edge tableId)

/-- The table number of a row event. -/
def EventData.rowTable? : EventData Row → Option UInt64
  | .writeRows tableId _ | .deleteRows tableId _ | .updateRows tableId _ => some tableId
  | _ => none

/-- After the stream `before`, the event `ev` makes the callbacks of the item `target` and no
others, and leaves the watcher as it is: for any two items on the tables `node` and `edge`. -/
def RoutesTo (node edge : String × String) (before : List (EventData Row)) (ev : EventData Row)
    (target : Option Target) : Prop :=
  ∀ (m : Type → Type) [Monad m] [LawfulMonad m] (T R : Type) (nodeItem : Item m Row T)
    (edgeItem : Item m Row R) (url : String) (heartbeatIntervalSecs timeoutSecs serverId : UInt64),
    (nodeItem.dbName, nodeItem.table) = node → (edgeItem.dbName, edgeItem.table) = edge →
    (WatchMysqlBinlog.new nodeItem edgeItem url heartbeatIntervalSecs timeoutSecs serverId).feed
      (before ++ [ev]) = (do
        let w ← (WatchMysqlBinlog.new nodeItem edgeItem url heartbeatIntervalSecs timeoutSecs
          serverId).feed before
        forM (ev.callbacks fun _ => target) (Callback.perform nodeItem edgeItem)
        pure w)

/-! ## What a stream leaves in the cache -/

namespace WatchMysqlBinlog

/-- The tables of the two items. -/
def nodePair (w : WatchMysqlBinlog m Row T R) : String × String := (w.node.dbName, w.node.table)

def edgePair (w : WatchMysqlBinlog m Row T R) : String × String := (w.edge.dbName, w.edge.table)

theorem target_eq_itemOf (w : WatchMysqlBinlog m Row T R) (tableId : UInt64) :
    w.target tableId = (w.tableMapCache.lookup tableId).bind (itemOf w.nodePair w.edgePair) := by
  unfold target
  cases w.tableMapCache.lookup tableId with
  | none => rfl
  | some table => simp [itemOf, nodePair, edgePair]

@[simp] theorem nodePair_absorb (w : WatchMysqlBinlog m Row T R) (ev : EventData Row) :
    (w.absorb ev).nodePair = w.nodePair := by simp [nodePair]

@[simp] theorem edgePair_absorb (w : WatchMysqlBinlog m Row T R) (ev : EventData Row) :
    (w.absorb ev).edgePair = w.edgePair := by simp [edgePair]

theorem pairs_foldl_absorb (w : WatchMysqlBinlog m Row T R) (stream : List (EventData Row)) :
    (stream.foldl absorb w).nodePair = w.nodePair ∧
      (stream.foldl absorb w).edgePair = w.edgePair := by
  induction stream generalizing w with
  | nil => exact ⟨rfl, rfl⟩
  | cons ev rest ih => simpa using ih (w.absorb ev)

/-- One event adds its table map where the number has none yet. -/
theorem lookup_absorb (w : WatchMysqlBinlog m Row T R) (ev : EventData Row) (tableId : UInt64) :
    (w.absorb ev).tableMapCache.lookup tableId =
      (w.tableMapCache.lookup tableId).or (ev.kept? w.nodePair w.edgePair tableId) := by
  cases ev with
  | tableMap event =>
    have hconcerns : w.Concerns event ↔ PassesFilters w.nodePair w.edgePair event := Iff.rfl
    rw [absorb, EventData.kept?]
    by_cases hpass : w.Concerns event
    · rw [if_pos hpass, lookup_orInsert_eq]
      simp [← hconcerns, hpass]
    · rw [if_neg hpass]
      simp [← hconcerns, hpass]
  | _ => simp [absorb, EventData.kept?]

/-- A stream adds its first table map of the number where there is none yet. -/
theorem lookup_foldl_absorb (w : WatchMysqlBinlog m Row T R) (stream : List (EventData Row))
    (tableId : UInt64) :
    (stream.foldl absorb w).tableMapCache.lookup tableId =
      (w.tableMapCache.lookup tableId).or (firstKept w.nodePair w.edgePair stream tableId) := by
  induction stream generalizing w with
  | nil => simp [firstKept]
  | cons ev rest ih =>
    rw [List.foldl_cons, ih, lookup_absorb, nodePair_absorb, edgePair_absorb, Option.or_assoc,
      firstKept, firstKept, List.findSome?_cons]
    cases ev.kept? w.nodePair w.edgePair tableId <;> rfl

/-- With an empty cache, a stream leaves the decision to its first table map of the number. -/
theorem target_foldl_absorb (w : WatchMysqlBinlog m Row T R) (hempty : w.tableMapCache = ∅)
    (stream : List (EventData Row)) (tableId : UInt64) :
    (stream.foldl absorb w).target tableId =
      (firstKept w.nodePair w.edgePair stream tableId).bind (itemOf w.nodePair w.edgePair) := by
  obtain ⟨hnode, hedge⟩ := w.pairs_foldl_absorb stream
  rw [target_eq_itemOf, lookup_foldl_absorb, hempty, Finmap.lookup_empty, Option.none_or, hnode,
    hedge]

end WatchMysqlBinlog

/-- Row events leave the cache alone. -/
theorem EventData.absorb_row {ev : EventData Row} {tableId : UInt64}
    (hrow : ev.rowTable? = some tableId) (w : WatchMysqlBinlog m Row T R) : w.absorb ev = w := by
  cases ev with
  | tableMap event => simp [rowTable?] at hrow
  | _ => rfl

/-- A row event names one number in all its callbacks. -/
theorem EventData.callbacks_row {ev : EventData Row} {tableId : UInt64}
    (hrow : ev.rowTable? = some tableId) (target : UInt64 → Option Target) :
    ev.callbacks target = ev.callbacks fun _ => target tableId := by
  unfold callbacks
  cases ev with
  | writeRows tableId' rows | deleteRows tableId' rows =>
    obtain rfl : tableId' = tableId := by simpa [rowTable?] using hrow
    rfl
  | updateRows tableId' rows =>
    obtain rfl : tableId' = tableId := by simpa [rowTable?] using hrow
    simp [payloads, List.flatMap_map]
  | _ => simp [rowTable?] at hrow

/-- The callbacks of an insertion say whose table it was decided to be. -/
theorem EventData.callbacks_writeRows_inj {tableId : UInt64} {rows : List Row}
    {target target' : Option Target}
    (h : ((EventData.writeRows tableId rows).callbacks fun _ => target) =
      (EventData.writeRows tableId rows).callbacks fun _ => target') : target = target' := by
  cases target <;> cases target' <;> simp_all [callbacks, payloads]

/-- What is performed after a stream depends on the cache that it leaves. -/
theorem WatchMysqlBinlog.performed_append (w : WatchMysqlBinlog m Row T R)
    (before after : List (EventData Row)) :
    w.performed (before ++ after) =
      w.performed before ++ (before.foldl absorb w).performed after := by
  induction before generalizing w with
  | nil => rfl
  | cons ev rest ih => simp [performed, ih]

/-! ## Watching the callbacks -/

/-- An item that writes its calls down, with the rows they are about. -/
def recorder (target : Target) (table : String × String) :
    Item (StateM (List (Callback Row))) Row (List Row) where
  dbName := table.1
  table := table.2
  tidyFunc _ rows := pure (some rows)
  func tag rows := modify (· ++ [⟨target, tag, rows.getD []⟩])

/-- Recording callbacks writes them down in order. -/
theorem run_recorded (node edge : String × String) (calls log : List (Callback Row)) :
    (forM calls (Callback.perform (recorder .node node) (recorder .edge edge))).run log
      = pure ((), log ++ calls) := by
  induction calls generalizing log with
  | nil => simp
  | cons c calls ih =>
    rw [List.forM_cons, StateT.run_bind]
    have hone : (Callback.perform (recorder .node node) (recorder .edge edge) c).run log
        = pure ((), log ++ [c]) := by
      obtain ⟨target, tag, rows⟩ := c
      cases target <;> rfl
    rw [hone, pure_bind, ih]
    simp

/-- After a stream, a row event makes the callbacks of the item that the first kept table map of
its number belongs to. -/
theorem WatchMysqlBinlog.feed_row [Monad m] [LawfulMonad m] (w : WatchMysqlBinlog m Row T R)
    (hempty : w.tableMapCache = ∅) (before : List (EventData Row)) {ev : EventData Row}
    {tableId : UInt64} (hrow : ev.rowTable? = some tableId) :
    w.feed (before ++ [ev]) = w.feed before >>= fun w' =>
      forM (ev.callbacks fun _ => (firstKept w.nodePair w.edgePair before tableId).bind
        (itemOf w.nodePair w.edgePair)) (Callback.perform w.node w.edge) >>= fun _ => pure w' := by
  have hlast : (before.foldl absorb w).performed [ev] =
      ev.callbacks fun _ => (firstKept w.nodePair w.edgePair before tableId).bind
        (itemOf w.nodePair w.edgePair) := by
    rw [performed, performed, List.append_nil, EventData.callbacks_row hrow,
      w.target_foldl_absorb hempty]
  rw [feed_eq_performed, feed_eq_performed, performed_append, hlast, List.foldl_append,
    List.foldl_cons, List.foldl_nil, EventData.absorb_row hrow]
  simp only [List.forM_append, bind_assoc, pure_bind]

/-- Two recorders tell two lists of callbacks apart. -/
theorem eq_of_recorded {node edge : String × String} {before calls calls' : List (Callback Row)}
    {A : Type} (a : A)
    (h : (forM before (Callback.perform (recorder .node node) (recorder .edge edge)) >>= fun _ =>
        forM calls (Callback.perform (recorder .node node) (recorder .edge edge)) >>= fun _ =>
          (pure a : StateM (List (Callback Row)) A)) =
      forM before (Callback.perform (recorder .node node) (recorder .edge edge)) >>= fun _ =>
        forM calls' (Callback.perform (recorder .node node) (recorder .edge edge)) >>= fun _ =>
          pure a) : calls = calls' := by
  have hrun := congrArg (fun x => (x.run []).run.2) h
  simpa [run_recorded] using hrun

/-- What decides about a row event is the first kept table map of its number. -/
theorem routesTo_iff {node edge : String × String} {before : List (EventData Row)}
    {ev : EventData Row} {tableId : UInt64} (hrow : ev.rowTable? = some tableId)
    (target : Option Target) :
    RoutesTo node edge before ev target ↔
      (ev.callbacks fun _ => (firstKept node edge before tableId).bind (itemOf node edge)) =
        ev.callbacks fun _ => target := by
  constructor
  · intro hroutes
    have hrun := hroutes (StateM (List (Callback Row))) (List Row) (List Row) (recorder .node node)
      (recorder .edge edge) "" 0 0 0 rfl rfl
    rw [WatchMysqlBinlog.feed_row _ rfl before hrow, WatchMysqlBinlog.feed_eq_performed] at hrun
    simp only [bind_assoc, pure_bind] at hrun
    exact eq_of_recorded _ hrun
  · rintro hcalls m _ _ T R nodeItem edgeItem url heartbeat timeout server rfl rfl
    rw [WatchMysqlBinlog.feed_row _ rfl before hrow, ← hcalls]
    rfl

/-! ## The condition -/

/-- A table map that does not pass the filters names the table of no item. -/
theorem itemOf_eq_none {node edge : String × String} {event : TableMapEvent}
    (h : ¬ PassesFilters node edge event) : itemOf node edge event = none := by
  unfold itemOf
  rw [if_neg, if_neg]
  · rintro rfl
    exact h ⟨Or.inr rfl, Or.inr rfl⟩
  · rintro rfl
    exact h ⟨Or.inl rfl, Or.inl rfl⟩

/-- After a table map and events without another one of the number, the decision is that of the
table map kept before it, if there is one, and else its own. -/
theorem bind_firstKept (node edge : String × String) (seen : List (EventData Row))
    {between : List (EventData Row)} {event : TableMapEvent}
    (hbetween : ∀ event', .tableMap event' ∈ between → event'.tableId ≠ event.tableId) :
    (firstKept node edge (seen ++ .tableMap event :: between) event.tableId).bind
        (itemOf node edge) =
      match firstKept node edge seen event.tableId with
      | some old => itemOf node edge old
      | none => itemOf node edge event := by
  have hsilent : firstKept node edge between event.tableId = none := by
    refine List.findSome?_eq_none_iff.mpr fun ev hev => ?_
    cases ev with
    | tableMap event' => exact if_neg fun hboth => hbetween event' hev hboth.1
    | _ => rfl
  have hlast : firstKept node edge (.tableMap event :: between) event.tableId =
      if PassesFilters node edge event then some event else none := by
    rw [firstKept, List.findSome?_cons, ← firstKept, hsilent, EventData.kept?]
    by_cases hpass : PassesFilters node edge event <;> simp [hpass]
  -- an entry that is kept from before wins
  rw [firstKept, List.findSome?_append, ← firstKept, ← firstKept, hlast]
  cases firstKept node edge seen event.tableId with
  | some old => rfl
  | none =>
    rw [Option.none_or]
    split
    · rfl
    · exact (itemOf_eq_none ‹_›).symm

/-- **Rows follow the latest table map unless an older one was kept.** After any stream, a table
map and events without another one of its number, every row event with the number reaches
exactly the item whose table the table map names, if and only if the first table map of the
number before it that passed the filters, if there is one, belongs to the same item. -/
theorem rows_follow_table_map_iff (node edge : String × String) (seen : List (EventData Row))
    (event : TableMapEvent) {between : List (EventData Row)}
    (hbetween : ∀ event', .tableMap event' ∈ between → event'.tableId ≠ event.tableId) :
    (∀ ev : EventData Row, ev.rowTable? = some event.tableId →
      RoutesTo node edge (seen ++ .tableMap event :: between) ev (itemOf node edge event)) ↔
    ∀ old, firstKept node edge seen event.tableId = some old →
      itemOf node edge old = itemOf node edge event := by
  have hdecided := bind_firstKept node edge seen hbetween
  constructor
  · intro hroutes old hold
    have hcalls := (routesTo_iff rfl _).mp (hroutes (.writeRows event.tableId []) rfl)
    rw [hdecided, hold] at hcalls
    -- an insertion makes one callback if it has an item and none otherwise
    exact EventData.callbacks_writeRows_inj hcalls
  · intro hsame ev hrow
    rw [routesTo_iff hrow, hdecided]
    cases hkept : firstKept node edge seen event.tableId with
    | none => rfl
    | some old => simp only [hsame old hkept]

/-- A number that was bound to a table of another database, and then to the node table. -/
theorem rows_follow_table_map_unwatched :
    RoutesTo ("db", "nodes") ("db", "edges")
      [.tableMap ⟨7, "other", "nodes"⟩, .tableMap ⟨7, "db", "nodes"⟩, .writeRows 7 ["a"]]
      (.updateRows 7 [("a", "b")]) (some .node) :=
  (rows_follow_table_map_iff ("db", "nodes") ("db", "edges") [.tableMap ⟨7, "other", "nodes"⟩]
    ⟨7, "db", "nodes"⟩ (by simp)).mpr (by decide) _ rfl

/-- A number that was bound to the node table, and then to the edge table: the rows of the edge
table go to the node item. -/
theorem rows_follow_older_table_map :
    ¬ ∀ ev : EventData String, ev.rowTable? = some 7 →
      RoutesTo ("db", "nodes") ("db", "edges")
        [.tableMap ⟨7, "db", "nodes"⟩, .tableMap ⟨7, "db", "edges"⟩] ev (some .edge) := by
  intro hroutes
  have hcalls := (routesTo_iff rfl (some .edge)).mp (hroutes (.writeRows 7 ["a"]) rfl)
  revert hcalls
  decide

end MemoryGraph
