import MemoryGraph.Examples.ReadData

/-!
# MemoryGraph — following the binlog (`binlog` of `examples/graph.rs`)

After `read_data` the graph has the vids and the joined pairs of the tables, and the watcher makes a
call for each callback to keep it so. Where the calls run one at a time, in the order of the
callbacks, the question is what a callback leaves out: a `tidy_func` decodes one row of an
insertion, it may decode a text that is not the one in the table, or panic and take the watcher
with it, and an update changes neither vids nor ends. Weights are not compared: `edge` gives an
edge the weight 0, where `read_data` gives it the id of its row.

* **`Tables.follow`** — the tables after the change that a callback reports;
* **`copied_step_iff`** — a callback keeps the copy exactly when it is `Benign`: it inserts one row
  at most, which the watcher is there to decode and a graph can take, or its update leaves the
  vids and the ends as they are;
* **`binlog_keeps_copy`** — from sound tables and for any stream without deletions, the graph is a
  copy after every callback exactly when every callback is benign where it comes.
-/

namespace MemoryGraph.Examples

open MemoryGraph Petgraph Refine

/-! ## The tables, and what the watcher makes of them -/

section Reading

variable (textOf : List UInt8 → String)

/-- The text in column `k`. `textOf` reads the bytes as the database does, by the character set of
the table. -/
def RowEvent.textAt (row : RowEvent) (k : Nat) : String :=
  match row.columnValues[k]? with
  | some (.string bytes) => textOf bytes
  | _ => ""

/-- The row of the node table that an image shows. The images have all columns. -/
def nodeRow (row : RowEvent) : NodeY := ⟨row.longAt 0, row.textAt textOf 1⟩

def edgeRow (row : RowEvent) : EdgeY := ⟨row.longAt 0, row.textAt textOf 1, row.textAt textOf 2⟩

@[simp] theorem nodeRow_id (row : RowEvent) : (nodeRow textOf row).id = row.longAt 0 := rfl

@[simp] theorem edgeRow_id (row : RowEvent) : (edgeRow textOf row).id = row.longAt 0 := rfl

/-- The row of the watched table that an image shows. -/
def tableRow : Target → RowEvent → TableRow
  | .node, row => .node (nodeRow textOf row)
  | .edge, row => .edge (edgeRow textOf row)

/-- The tables after the change that a callback reports. Rows are told apart by their ids. -/
def Tables.follow (T : Tables) (c : Callback RowEvent) : Tables :=
  if c.tag = 1 then (c.rows.map (tableRow textOf c.target)).foldl Tables.insert T
  else if c.tag = 2 then
    match c.target, c.rows with
    | .node, [before, after] =>
      { T with
        nodes := Table.update NodeY.id T.nodes (before.longAt 0) fun _ => nodeRow textOf after }
    | .edge, [before, after] =>
      { T with
        edges := Table.update EdgeY.id T.edges (before.longAt 0) fun _ => edgeRow textOf after }
    | _, _ => T
  else
    match c.target with
    | .node =>
      { T with
        nodes := Table.delete NodeY.id T.nodes (c.rows.map fun row => row.longAt 0) }
    | .edge =>
      { T with
        edges := Table.delete EdgeY.id T.edges (c.rows.map fun row => row.longAt 0) }

end Reading

variable (parseAsString : List UInt8 → Parsed) (textOf : List UInt8 → String)

/-- The row that a `tidy_func` decodes an image to; `none` is a panic. -/
def decodedRow : Target → RowEvent → Option TableRow
  | .node, row => (nodeOf parseAsString row).map .node
  | .edge, row => (edgeOf parseAsString row).map .edge

/-- The change leaves nothing out that the callback's call would have to do. The watcher is
`running` as long as no callback has panicked. -/
def Benign (running : Bool) (T : Tables) (c : Callback RowEvent) : Prop :=
  (c.tag = 1 → c.rows.length ≤ 1 ∧ ∀ row ∈ c.rows, running = true ∧
    decodedRow parseAsString c.target row = some (tableRow textOf c.target row) ∧
    T.refusal (tableRow textOf c.target row) = none) ∧
  (c.tag = 2 → (T.follow textOf c).vids = T.vids ∧ (T.follow textOf c).ends = T.ends)

variable {G : Type} [Graph G NodeM EdgeM]

/-- The caches are exact, and the graph has the vids of the node table, without data, and edges
between the vids that the edge table names, each at the place of its row. -/
structure Copied (s : Store G) (T : Tables) : Prop where
  indexed : Indexed "_" s
  nodes : s.catalog.nodes = T.nodes.map NodeY.toNode
  ends : s.catalog.edges.map (fun l => (l.source, l.target)) = T.ends

namespace Copied

variable {s : Store G} {T : Tables}

/-- After loading, the graph is a copy. -/
theorem of_loaded (h : Loaded s T) : Copied s T where
  indexed := h.1
  nodes := by rw [h.2]; rfl
  ends := by rw [h.2]; simp [Tables.catalog, Tables.ends]

theorem vids (h : Copied s T) : s.catalog.vids = T.vids := by
  simp [Catalog.vids, h.nodes, Tables.vids, NodeY.toNode]

theorem keys (h : Copied s T) : s.catalog.keys "_" = T.keys := by
  have hkeys := congrArg (List.map fun p : String × String => edgeKey "_" p.1 p.2) h.ends
  rwa [List.map_map, Tables.ends, List.map_map] at hkeys

/-- A copy has as many nodes and edges as the tables have rows. -/
theorem size (h : Copied s T) :
    s.catalog.nodes.length + s.catalog.edges.length = T.nodes.length + T.edges.length := by
  have hends := congrArg List.length h.ends
  simp only [List.length_map, Tables.ends] at hends
  rw [h.nodes, List.length_map, hends]

/-- One graph is a copy of the tables with one row more and with another only if the two rows
name the same vids. -/
theorem insert_inj {row : RowEvent} {target : Target} {v : TableRow}
    (hv : decodedRow parseAsString target row = some v) (h : Copied s (T.insert v))
    (h' : Copied s (T.insert (tableRow textOf target row))) : v = tableRow textOf target row := by
  cases target with
  | node =>
    -- the id is read from the same column, so the vid is all there is to compare
    rw [decodedRow, nodeOf_eq, Option.map_map] at hv
    obtain ⟨vid, -, rfl⟩ := Option.map_eq_some_iff.mp hv
    have hvids := h.vids.symm.trans h'.vids
    have hlast : vid = row.textAt textOf 1 := by
      simpa [Tables.insert, Tables.vids, tableRow, nodeRow] using hvids
    simp [tableRow, nodeRow, hlast]
  | edge =>
    rw [decodedRow, edgeOf_eq] at hv
    obtain ⟨edge, hedge, rfl⟩ := Option.map_eq_some_iff.mp hv
    obtain ⟨srcVid, -, hdst⟩ := Option.bind_eq_some_iff.mp hedge
    obtain ⟨dstVid, -, rfl⟩ := Option.map_eq_some_iff.mp hdst
    have hends := h.ends.symm.trans h'.ends
    obtain ⟨hsrc, hdst⟩ : srcVid = row.textAt textOf 1 ∧ dstVid = row.textAt textOf 2 := by
      simpa [Tables.insert, Tables.ends, tableRow, edgeRow] using hends
    simp [tableRow, edgeRow, hsrc, hdst]

end Copied

theorem size_foldl_insert (T : Tables) (rows : List TableRow) :
    (rows.foldl Tables.insert T).nodes.length + (rows.foldl Tables.insert T).edges.length
      = T.nodes.length + T.edges.length + rows.length := by
  induction rows generalizing T with
  | nil => rfl
  | cons row rows ih =>
    rw [List.foldl_cons, ih]
    cases row <;> simp [Tables.insert] <;> omega

/-- A list of one element, which has the property. -/
theorem single_iff {α : Type} {P : α → Prop} {a : α} {l : List α} :
    ((a :: l).length ≤ 1 ∧ ∀ b ∈ a :: l, P b) ↔ l = [] ∧ P a := by
  constructor
  · rintro ⟨hlen, hall⟩
    exact ⟨by simpa using hlen, hall a List.mem_cons_self⟩
  · rintro ⟨rfl, ha⟩
    simpa using ha

/-! ## One callback -/

/-- The call of a callback, if the watcher is there to make it and decodes one. -/
def spawnedBy (running : Bool) (c : Callback RowEvent) : Option Op :=
  if running then (callOf parseAsString c).join else none

/-- The graph after the call of a callback. -/
def followStep (running : Bool) (s : Store G) (c : Callback RowEvent) : Store G :=
  (runAll "_" (spawnedBy parseAsString running c).toList s).1

/-- A callback at the end is heard if none in front of it has panicked. -/
theorem callsOf_concat (cs : List (Callback RowEvent)) (c : Callback RowEvent) :
    callsOf parseAsString (cs ++ [c]) = callsOf parseAsString cs ++
      (spawnedBy parseAsString (cs.all (survives parseAsString)) c).toList := by
  -- on the callbacks in front: the first that panics ends both sides
  induction cs with
  | nil =>
    rw [List.nil_append]
    cases hcall : callOf parseAsString c with
    | none =>
      rw [callsOf_cons_of_none parseAsString hcall]
      simp [callsOf, spawnedBy, hcall]
    | some op =>
      rw [callsOf_cons_of_some parseAsString hcall]
      simp [callsOf, spawnedBy, hcall]
  | cons c' cs ih =>
    rw [List.cons_append]
    cases hcall : callOf parseAsString c' with
    | none =>
      rw [callsOf_cons_of_none parseAsString hcall, callsOf_cons_of_none parseAsString hcall]
      simp [survives, hcall, spawnedBy]
    | some op =>
      rw [callsOf_cons_of_some parseAsString hcall, callsOf_cons_of_some parseAsString hcall, ih]
      simp [survives, hcall]

theorem runAll_callsOf_concat (cs : List (Callback RowEvent)) (c : Callback RowEvent)
    (s : Store G) : (runAll "_" (callsOf parseAsString (cs ++ [c])) s).1
      = followStep parseAsString (cs.all (survives parseAsString))
        (runAll "_" (callsOf parseAsString cs) s).1 c := by
  rw [callsOf_concat, runAll_append, followStep]

theorem followStep_some {running : Bool} {s : Store G} {c : Callback RowEvent} {op : Op}
    (hcall : spawnedBy parseAsString running c = some op) :
    followStep parseAsString running s c = (op.run "_" s).1 := by
  rw [followStep, hcall]
  rfl

theorem followStep_none {running : Bool} {s : Store G} {c : Callback RowEvent}
    (hcall : spawnedBy parseAsString running c = none) :
    followStep parseAsString running s c = s := by
  rw [followStep, hcall]
  rfl

/-- The call that is made for a row. -/
def rowCall (tag : Int8) : TableRow → Option Op
  | .node v => nodeCall tag v
  | .edge v => edgeCall tag v

theorem rowCall_insertion (v : TableRow) : ∃ op, rowCall 1 v = some op ∧ Inserts op v := by
  cases v with
  | node v => exact ⟨.addNode v.toNode, rfl, rfl⟩
  | edge v => exact ⟨.addEdge v.srcVid v.dstVid ⟨0, v.srcVid, "", ∅⟩, rfl, rfl, rfl⟩

/-- Of an insertion or deletion the first row is decoded, and gets a call. -/
theorem callOf_first {tag : Int8} (htag : tag = 1 ∨ tag = 3) (target : Target) (row : RowEvent)
    (rest : List RowEvent) : callOf parseAsString ⟨target, tag, row :: rest⟩
      = (decodedRow parseAsString target row).map (rowCall tag) := by
  have hrow : rowOf tag (row :: rest) = some row := by rcases htag with rfl | rfl <;> rfl
  cases target with
  | node =>
    have hdecode : tidyFunc parseAsString tag (row :: rest)
        = (nodeOf parseAsString row).map some := by
      rw [tidyFunc, tidy, hrow]
      rfl
    simp only [callOf, hdecode, decodedRow, Option.map_map]
    rfl
  | edge =>
    have hdecode : tidyFuncEdge parseAsString tag (row :: rest)
        = (edgeOf parseAsString row).map some := by
      rw [tidyFuncEdge, tidy, hrow]
      rfl
    simp only [callOf, hdecode, decodedRow, Option.map_map]
    rfl

/-- The first row gets its call if the watcher is there, and does not panic on that row. -/
theorem spawnedBy_first (running : Bool) {c : Callback RowEvent} (htag : c.tag = 1 ∨ c.tag = 3)
    {row : RowEvent} {rest : List RowEvent} (hrows : c.rows = row :: rest) :
    (spawnedBy parseAsString running c = none ∧
      ¬ (running = true ∧ (decodedRow parseAsString c.target row).isSome)) ∨
    ∃ v, running = true ∧ decodedRow parseAsString c.target row = some v ∧
      spawnedBy parseAsString running c = rowCall c.tag v := by
  obtain ⟨target, tag, rows⟩ := c
  obtain rfl : rows = row :: rest := hrows
  cases running with
  | false => exact Or.inl ⟨rfl, by simp⟩
  | true =>
    rw [spawnedBy, if_pos rfl, callOf_first parseAsString htag]
    cases decodedRow parseAsString target row with
    | none => exact Or.inl ⟨rfl, by simp⟩
    | some v => exact Or.inr ⟨v, rfl, rfl, rfl⟩

theorem spawnedBy_nothing (running : Bool) {c : Callback RowEvent} (htag : c.tag = 1 ∨ c.tag = 3)
    (hrows : c.rows = []) : spawnedBy parseAsString running c = none := by
  obtain ⟨target, tag, rows⟩ := c
  obtain rfl : rows = [] := hrows
  rcases htag with rfl | rfl <;> cases target <;> cases running <;> rfl

/-- Whatever a callback decodes to, its call is one for a row. -/
theorem exists_rowCall {c : Callback RowEvent} {op : Op}
    (hcall : (callOf parseAsString c).join = some op) : ∃ v, rowCall c.tag v = some op := by
  obtain ⟨target, tag, rows⟩ := c
  have hsome := Option.join_eq_some_iff.mp hcall
  cases target with
  | node =>
    obtain ⟨decoded, -, hbind⟩ := Option.map_eq_some_iff.mp hsome
    obtain ⟨user, -, hop⟩ := Option.bind_eq_some_iff.mp hbind
    exact ⟨.node user, hop⟩
  | edge =>
    obtain ⟨decoded, -, hbind⟩ := Option.map_eq_some_iff.mp hsome
    obtain ⟨user, -, hop⟩ := Option.bind_eq_some_iff.mp hbind
    exact ⟨.edge user, hop⟩

/-- The call of an update replaces the data by no data, or adds no data. -/
theorem spawnedBy_update {running : Bool} {c : Callback RowEvent} (htag : c.tag = 2) {op : Op}
    (hcall : spawnedBy parseAsString running c = some op) :
    (∃ vid, op = .updateNode vid ∅) ∨ ∃ fromVid toVid, op = .updateEdgeByNode fromVid toVid ∅ := by
  have hjoin : (callOf parseAsString c).join = some op := by
    rw [spawnedBy] at hcall
    split at hcall
    · exact hcall
    · cases hcall
  obtain ⟨v, hv⟩ := exists_rowCall parseAsString hjoin
  rw [htag] at hv
  cases v with
  | node v => exact Or.inl ⟨v.vid, (Option.some.inj hv).symm⟩
  | edge v => exact Or.inr ⟨v.srcVid, v.dstVid, (Option.some.inj hv).symm⟩

/-- A vid is all that there is to a node without data. -/
theorem tables_ext_iff {T T' : Tables} : T'.nodes.map NodeY.toNode = T.nodes.map NodeY.toNode ↔
    T'.vids = T.vids := by
  have htoNode : ∀ T : Tables, T.nodes.map NodeY.toNode = T.vids.map fun vid => ⟨vid, ∅⟩ :=
    fun T => by rw [Tables.vids, List.map_map]; rfl
  have hinj : Function.Injective fun vid : String => (⟨vid, ∅⟩ : NodeM) :=
    fun _ _ h => congrArg NodeM.vid h
  rw [htoNode, htoNode, (List.map_injective_iff.mpr hinj).eq_iff]

variable [LawfulGraph G] {s : Store G} {T : Tables}

namespace Copied

/-- Where no node has data, the calls of updates change nothing that a catalog shows. -/
theorem catalog_update (h : Copied s T) {op : Op}
    (hop : (∃ vid, op = .updateNode vid ∅) ∨
      ∃ fromVid toVid, op = .updateEdgeByNode fromVid toVid ∅) :
    (op.run "_" s).1.catalog = s.catalog := by
  have hextend : ∀ l : LiveEdge, l.extend ∅ = l := fun l => by
    simp [LiveEdge.extend, Dict.extend]
  have hempty : ∀ node ∈ s.catalog.nodes, { node with data := ∅ } = node := by
    rw [h.nodes]
    rintro _ hmem
    obtain ⟨v, -, rfl⟩ := List.mem_map.mp hmem
    rfl
  obtain ⟨vid, rfl⟩ | ⟨fromVid, toVid, rfl⟩ := hop
  · rw [catalog_run_fst h.indexed rfl, Catalog.step, Table.update_of_fixed hempty]
  · rw [catalog_run_fst h.indexed rfl, Catalog.step, Catalog.extendEdge,
      Table.update_of_fixed fun l _ => hextend l]
    split <;> rfl

/-- A row that the tables can take is taken by the graph, at its place. -/
theorem insert (h : Copied s T) {op : Op} {row : TableRow} (hop : Inserts op row)
    (hrefusal : T.refusal row = none) : Copied (op.run "_" s).1 (T.insert row) := by
  have hkind := isRemoval_of_inserts hop
  have hcatalog : (op.run "_" s).1.catalog = added s.catalog op := by
    rw [catalog_run_fst h.indexed hkind, (step_taken h.vids h.keys hop hrefusal).2]
  have hindexed := h.indexed.step hkind
  cases row with
  | node v =>
    obtain rfl := inserts_node.mp hop
    exact ⟨hindexed, by simp [hcatalog, added, h.nodes, Tables.insert], by
      rw [hcatalog]
      exact h.ends⟩
  | edge v =>
    obtain ⟨edge, rfl⟩ := inserts_edge.mp hop
    exact ⟨hindexed, by rw [hcatalog]; exact h.nodes, by
      simp [hcatalog, added, h.ends, Tables.insert, Tables.ends]⟩

/-- A row that the tables cannot take is refused, and changes nothing. -/
theorem refuse (h : Copied s T) {op : Op} {row : TableRow} (hop : Inserts op row)
    {e : GraphError} (hrefusal : T.refusal row = some e) : Copied (op.run "_" s).1 T := by
  have hkind := isRemoval_of_inserts hop
  have hcatalog : (op.run "_" s).1.catalog = s.catalog := by
    rw [catalog_run_fst h.indexed hkind, (step_refused h.vids h.keys hop hrefusal).1]
  exact ⟨h.indexed.step hkind, by rw [hcatalog, h.nodes], by rw [hcatalog, h.ends]⟩

/-- An insertion keeps the copy exactly when it is of one row at most, which the watcher is there to
decode, decodes right and can insert. -/
theorem insertion_iff (h : Copied s T) (running : Bool) {c : Callback RowEvent}
    (htag : c.tag = 1) :
    Copied (followStep parseAsString running s c) (T.follow textOf c) ↔ c.rows.length ≤ 1 ∧
      ∀ row ∈ c.rows, running = true ∧
        decodedRow parseAsString c.target row = some (tableRow textOf c.target row) ∧
        T.refusal (tableRow textOf c.target row) = none := by
  have hfollow : T.follow textOf c
      = (c.rows.map (tableRow textOf c.target)).foldl Tables.insert T := if_pos htag
  rw [hfollow]
  cases hrows : c.rows with
  | nil =>
    rw [followStep_none parseAsString (spawnedBy_nothing parseAsString running (.inl htag) hrows)]
    simpa using h
  | cons row rest =>
    rw [List.map_cons, single_iff]
    -- the tables are a row ahead at least
    have hahead := size_foldl_insert T (tableRow textOf c.target row ::
      rest.map (tableRow textOf c.target))
    rw [List.length_cons, List.length_map] at hahead
    rcases spawnedBy_first parseAsString running (.inl htag) hrows with
      ⟨hnothing, hnot⟩ | ⟨v, hrunning, hv, hspawned⟩
    -- without a call the graph stays behind
    · rw [followStep_none parseAsString hnothing]
      constructor
      · intro hcopied
        have hsize := hcopied.size
        have hbefore := h.size
        omega
      · rintro ⟨-, hrunning, hdecoded, -⟩
        exact absurd ⟨hrunning, by rw [hdecoded]; rfl⟩ hnot
    · obtain ⟨op, hcall, hinserts⟩ := rowCall_insertion v
      rw [htag, hcall] at hspawned
      rw [followStep_some parseAsString hspawned]
      constructor
      · intro hcopied
        have hsize := hcopied.size
        -- a refused call adds nothing, and an accepted one a single row
        cases hrefusal : T.refusal v with
        | some e =>
          have hbehind := (h.refuse hinserts hrefusal).size
          omega
        | none =>
          have hlevel := h.insert hinserts hrefusal
          have hone := size_foldl_insert T [v]
          rw [List.foldl_cons, List.foldl_nil, List.length_singleton] at hone
          have hrest : rest = [] := List.length_eq_zero_iff.mp (by have := hlevel.size; omega)
          subst hrest
          have hsame : v = tableRow textOf c.target row :=
            insert_inj parseAsString textOf hv hlevel hcopied
          exact ⟨rfl, hrunning, by rw [hv, hsame], by rw [← hsame, hrefusal]⟩
      · rintro ⟨rfl, -, hdecoded, hrefusal⟩
        obtain rfl : v = tableRow textOf c.target row := by
          rw [hv] at hdecoded
          exact Option.some.inj hdecoded
        exact h.insert hinserts hrefusal

/-- Whatever an update decodes to, its call leaves the catalog as it is. -/
theorem update (h : Copied s T) (running : Bool) {c : Callback RowEvent} (htag : c.tag = 2) :
    Indexed "_" (followStep parseAsString running s c) ∧
      (followStep parseAsString running s c).catalog = s.catalog := by
  cases hcall : spawnedBy parseAsString running c with
  | none =>
    rw [followStep_none parseAsString hcall]
    exact ⟨h.indexed, rfl⟩
  | some op =>
    rw [followStep_some parseAsString hcall]
    have hop := spawnedBy_update parseAsString htag hcall
    have hkind : op.isRemoval = false := by obtain ⟨_, rfl⟩ | ⟨_, _, rfl⟩ := hop <;> rfl
    exact ⟨h.indexed.step hkind, h.catalog_update hop⟩

/-- An update keeps the copy exactly when there is nothing to follow, as its call does nothing. -/
theorem update_iff (h : Copied s T) (running : Bool) {c : Callback RowEvent} (htag : c.tag = 2) :
    Copied (followStep parseAsString running s c) (T.follow textOf c) ↔
      (T.follow textOf c).vids = T.vids ∧ (T.follow textOf c).ends = T.ends := by
  obtain ⟨hindexed, hsame⟩ := h.update parseAsString running htag
  constructor
  · intro hcopied
    refine ⟨tables_ext_iff.mp ?_, ?_⟩
    · rw [← hcopied.nodes, ← h.nodes, hsame]
    · rw [← hcopied.ends, ← h.ends, hsame]
  · rintro ⟨hvids, hends⟩
    refine ⟨hindexed, ?_, ?_⟩
    · rw [hsame, h.nodes, tables_ext_iff.mpr hvids]
    · rw [hsame, h.ends, hends]

end Copied

/-- **A callback keeps the copy exactly when it is benign.** -/
theorem copied_step_iff (h : Copied s T) (running : Bool) {c : Callback RowEvent}
    (htag : c.tag = 1 ∨ c.tag = 2) :
    Copied (followStep parseAsString running s c) (T.follow textOf c) ↔
      Benign parseAsString textOf running T c := by
  rcases htag with htag | htag
  · rw [h.insertion_iff parseAsString textOf running htag]
    simp [Benign, htag]
  · rw [h.update_iff parseAsString textOf running htag]
    simp [Benign, htag]

/-! ## All callbacks -/

/-- The graph that `main` hands over to `binlog`. -/
def afterLoading (g : G) (T : Tables) : Store G :=
  (readData (some T.nodes) (some T.edges) (graph g).store).1

theorem loaded_afterLoading {g : G} (hg : Graph.IsEmpty g) (hT : T.Sound) :
    Loaded (afterLoading g T) T :=
  loaded_of_silent hg ((readData_eq_none_iff hg (some T.nodes) (some T.edges)).mpr hT)

/-- From sound tables and without deletions, the graph is a copy after every callback exactly when
every callback is benign where it comes. -/
theorem copied_iff_benign {g : G} (hg : Graph.IsEmpty g) {T : Tables} (hT : T.Sound)
    {stream : List (EventData RowEvent)}
    (hdeletes : ∀ c ∈ callbacksOf parseAsString stream, c.tag ≠ 3) :
    (∀ pre, pre <+: callbacksOf parseAsString stream →
        Copied (runAll "_" (callsOf parseAsString pre) (afterLoading g T)).1
          (pre.foldl (Tables.follow textOf) T)) ↔
      ∀ pre c, pre ++ [c] <+: callbacksOf parseAsString stream →
        Benign parseAsString textOf (pre.all (survives parseAsString))
          (pre.foldl (Tables.follow textOf) T) c := by
  have hcopied : Copied (runAll "_" (callsOf parseAsString []) (afterLoading g T)).1 T :=
    .of_loaded (loaded_afterLoading hg hT)
  have hstep : ∀ (heard : List (Callback RowEvent)) (T' : Tables) (c : Callback RowEvent),
      c.tag = 1 ∨ c.tag = 2 →
      Copied (runAll "_" (callsOf parseAsString heard) (afterLoading g T)).1 T' →
      (Copied (runAll "_" (callsOf parseAsString (heard ++ [c])) (afterLoading g T)).1
          (T'.follow textOf c) ↔
        Benign parseAsString textOf (heard.all (survives parseAsString)) T' c) := by
    intro heard T' c htag h
    rw [runAll_callsOf_concat]
    exact copied_step_iff parseAsString textOf h _ htag
  refine copied_iff hstep hcopied fun pre c hpre => ?_
  have hmem : c ∈ callbacksOf parseAsString stream := hpre.subset (by simp)
  have htag := tag_of_mem_expected hmem
  have hdelete := hdeletes c hmem
  tauto

/-- **A copy of the tables.** For all sound tables and every stream in which every table number is
bound to a single table and that deletes no row of the two tables: the watcher spawns the calls of
the callbacks in order, up to the first that panics, and when they run one after another on the
loaded graph, the graph is a copy of the tables after every callback exactly when every callback
is benign. So it stays a copy exactly as long as insertions come row by row, decoded without a
panic to the texts of the table, with new vids or new keys between known vids, and updates
leave vids and ends alone. -/
theorem binlog_keeps_copy {g : G} (hg : Graph.IsEmpty g) {T : Tables} (hT : T.Sound)
    {stream : List (EventData RowEvent)} (hbound : BoundOnce stream)
    (hdeletes : ∀ c ∈ callbacksOf parseAsString stream, c.tag ≠ 3) :
    (((binlog parseAsString).feed stream).run.run []).2
      = callsOf parseAsString (callbacksOf parseAsString stream) ∧
    ((∀ pre, pre <+: callbacksOf parseAsString stream →
        Copied (runAll "_" (callsOf parseAsString pre) (afterLoading g T)).1
          (pre.foldl (Tables.follow textOf) T)) ↔
      ∀ pre c, pre ++ [c] <+: callbacksOf parseAsString stream →
        Benign parseAsString textOf (pre.all (survives parseAsString))
          (pre.foldl (Tables.follow textOf) T) c) :=
  ⟨(feed_spawns parseAsString hbound []).1, copied_iff_benign parseAsString textOf hg hT hdeletes⟩

/-- A reading of texts as ASCII. -/
def asciiText (bytes : List UInt8) : String :=
  String.ofList (bytes.map fun b => Char.ofNat b.toNat)

/-- A decoder of ASCII, which asks for the first byte. -/
def parseAscii : List UInt8 → Parsed
  | [] => .panicked
  | bytes => .ok (asciiText bytes)

/-- One statement inserts two nodes. -/
def twoRows : List (EventData RowEvent) :=
  [.tableMap ⟨7, "test", "node"⟩,
    .writeRows 7 [⟨[.long 3, .string [99]]⟩, ⟨[.long 4, .string [100]]⟩]]

/-- The second node of the statement never gets into the graph. -/
theorem twoRows_not_copied : ¬ ∀ pre, pre <+: callbacksOf parseAscii twoRows →
    Copied (runAll "_" (callsOf parseAscii pre) (afterLoading blankGraph pair)).1
      (pre.foldl (Tables.follow asciiText) pair) := by
  have hcallbacks : callbacksOf parseAscii twoRows
      = [⟨.node, 1, [⟨[.long 3, .string [99]]⟩, ⟨[.long 4, .string [100]]⟩]⟩] := by decide
  have hdeletes : ∀ c ∈ callbacksOf parseAscii twoRows, c.tag ≠ 3 := by
    rw [hcallbacks]
    decide
  obtain ⟨-, hiff⟩ := binlog_keeps_copy parseAscii asciiText blankGraph_isEmpty pair_sound
    (by decide) hdeletes
  intro hcopied
  have hbenign := hiff.mp hcopied [] _ (by rw [hcallbacks]; exact List.prefix_rfl)
  have hone := (hbenign.1 rfl).1
  simp at hone

/-- A node whose vid is the empty text ends the watcher: the insertion after it is not heard. -/
example : callsOf parseAscii [⟨.node, 1, [⟨[.long 3, .string []]⟩]⟩,
    ⟨.node, 1, [⟨[.long 4, .string [100]]⟩]⟩] = [] := by decide

end MemoryGraph.Examples
