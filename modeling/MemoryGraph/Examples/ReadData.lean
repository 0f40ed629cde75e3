import MemoryGraph.Examples.Rows
import MemoryGraph.Graph.Catalog
import MemoryGraph.Refine.Feeding

/-!
# MemoryGraph — loading the tables (`read_data` of `examples/graph.rs`)

`read_data` adds every row of the node table and then every row of the edge table to the graph,
and panics at the first call that fails. The abstract side is a pair of tables (`Tables`), with
the rows that a graph cannot take (`Tables.refusal`).

* **`Tables.allTaken_rows`** — a graph takes all rows exactly when the tables are `Sound`: no vid
  twice, no edge key twice, and both ends of every edge in the node table;
* **`read_data_loads_tables`** — `read_data` ends without a panic exactly on sound tables, and
  then the graph is the tables, row by row; else it has the rows before the one that fails.
-/

namespace MemoryGraph.Examples

open MemoryGraph Petgraph Refine

/-! ## Tables -/

/-- What the two tables contain, in the order of `select_all`. -/
structure Tables where
  nodes : List NodeY
  edges : List EdgeY

/-- A row of either table. -/
inductive TableRow where
  | node (v : NodeY)
  | edge (v : EdgeY)
  deriving DecidableEq

def NodeY.toNode (v : NodeY) : NodeM := ⟨v.vid, ∅⟩

/-- `weight: v.id as usize`. -/
def EdgeY.toEdge (v : EdgeY) : EdgeM := ⟨v.id.toInt64.toUInt64.toNat, v.srcVid, v.dstVid, ∅⟩

def EdgeY.key (v : EdgeY) : String := edgeKey "_" v.srcVid v.dstVid

namespace Tables

def empty : Tables := ⟨[], []⟩

def vids (T : Tables) : List String := T.nodes.map NodeY.vid

def keys (T : Tables) : List String := T.edges.map EdgeY.key

def ends (T : Tables) : List (String × String) := T.edges.map fun v => (v.srcVid, v.dstVid)

/-- All rows, in the order in which `read_data` goes through them. -/
def rows (T : Tables) : List TableRow := T.nodes.map .node ++ T.edges.map .edge

def insert (T : Tables) : TableRow → Tables
  | .node v => { T with nodes := T.nodes ++ [v] }
  | .edge v => { T with edges := T.edges ++ [v] }

/-- Why a graph with the rows of the tables does not take one more. -/
def refusal (T : Tables) : TableRow → Option GraphError
  | .node v => if v.vid ∈ T.vids then some (.nodeExistsError v.vid) else none
  | .edge v =>
    if v.key ∈ T.keys then some (.edgeExists v.srcVid v.dstVid)
    else if v.srcVid ∉ T.vids then some (.nodeNotFound v.srcVid)
    else if v.dstVid ∉ T.vids then some (.nodeNotFound v.dstVid)
    else none

/-- Tables that are a graph. -/
structure Sound (T : Tables) : Prop where
  vids_nodup : T.vids.Nodup
  keys_nodup : T.keys.Nodup
  ends_known : ∀ v ∈ T.edges, v.srcVid ∈ T.vids ∧ v.dstVid ∈ T.vids

/-- The tables as a catalog. -/
def catalog (T : Tables) : Catalog where
  nodes := T.nodes.map NodeY.toNode
  edges := T.edges.map fun v => ⟨v.srcVid, v.dstVid, v.toEdge⟩

@[simp] theorem vids_catalog (T : Tables) : T.catalog.vids = T.vids := by
  simp [catalog, Catalog.vids, vids, NodeY.toNode]

@[simp] theorem keys_catalog (T : Tables) : T.catalog.keys "_" = T.keys := by
  simp [catalog, Catalog.keys, keys, LiveEdge.key, EdgeY.key]

/-- An edge row can be taken if its key is new and both its ends are there. -/
theorem refusal_edge {T : Tables} {v : EdgeY} :
    T.refusal (.edge v) = none ↔ v.key ∉ T.keys ∧ v.srcVid ∈ T.vids ∧ v.dstVid ∈ T.vids := by
  simp only [refusal]
  split_ifs <;> simp_all

theorem refusal_node {T : Tables} {v : NodeY} : T.refusal (.node v) = none ↔ v.vid ∉ T.vids := by
  simp [refusal]

/-! ## Sound tables -/

theorem foldl_insert_nodes (T : Tables) (ns : List NodeY) :
    (ns.map TableRow.node).foldl insert T = { T with nodes := T.nodes ++ ns } := by
  induction ns generalizing T with
  | nil => simp
  | cons v ns ih => simp [ih, insert]

theorem foldl_insert_edges (T : Tables) (es : List EdgeY) :
    (es.map TableRow.edge).foldl insert T = { T with edges := T.edges ++ es } := by
  induction es generalizing T with
  | nil => simp
  | cons v es ih => simp [ih, insert]

/-- All rows, in the order in which `read_data` reads them, make up the tables. -/
theorem foldl_insert_rows (T : Tables) : T.rows.foldl insert empty = T := by
  rw [rows, List.foldl_append, foldl_insert_nodes, foldl_insert_edges]
  rfl

theorem allTaken_nodes {T : Tables} (hT : T.vids.Nodup) (ns : List NodeY) :
    AllTaken insert refusal T (ns.map .node) ↔ (T.vids ++ ns.map NodeY.vid).Nodup := by
  induction ns generalizing T with
  | nil => simpa [AllTaken] using hT
  | cons v ns ih =>
    have hvids : (T.insert (.node v)).vids = T.vids ++ [v.vid] := by simp [insert, vids]
    have hnext : (T.insert (.node v)).vids.Nodup ↔ v.vid ∉ T.vids ∧ T.vids.Nodup := by
      rw [hvids, ← List.concat_eq_append, List.nodup_concat]
    rw [List.map_cons, AllTaken, refusal_node, List.map_cons, List.append_cons, ← hvids]
    constructor
    · rintro ⟨hfresh, hrest⟩
      exact (ih (hnext.mpr ⟨hfresh, hT⟩)).mp hrest
    · intro hnodup
      have hvids' := (List.nodup_append.mp hnodup).1
      exact ⟨(hnext.mp hvids').1, (ih hvids').mpr hnodup⟩

/-- Edge rows are all taken if no key comes twice and all ends are there. -/
theorem allTaken_edges {T : Tables} (hT : T.keys.Nodup) (es : List EdgeY) :
    AllTaken insert refusal T (es.map .edge) ↔ (T.keys ++ es.map EdgeY.key).Nodup ∧
      ∀ v ∈ es, v.srcVid ∈ T.vids ∧ v.dstVid ∈ T.vids := by
  -- on the rows in front: each adds its key, and no vid
  induction es generalizing T with
  | nil => simpa [AllTaken] using hT
  | cons v es ih =>
    have hkeys : (T.insert (.edge v)).keys = T.keys ++ [v.key] := by simp [insert, keys]
    have hvids : (T.insert (.edge v)).vids = T.vids := rfl
    have hnext : (T.insert (.edge v)).keys.Nodup ↔ v.key ∉ T.keys ∧ T.keys.Nodup := by
      rw [hkeys, ← List.concat_eq_append, List.nodup_concat]
    rw [List.map_cons, AllTaken, refusal_edge, List.map_cons, List.append_cons, ← hkeys,
      List.forall_mem_cons]
    constructor
    · rintro ⟨⟨hfresh, hends⟩, hrest⟩
      obtain ⟨hnodup, hends'⟩ := (ih (hnext.mpr ⟨hfresh, hT⟩)).mp hrest
      exact ⟨hnodup, hends, hends'⟩
    · rintro ⟨hnodup, hends, hends'⟩
      have hkeys' := (List.nodup_append.mp hnodup).1
      exact ⟨⟨(hnext.mp hkeys').1, hends⟩, (ih hkeys').mpr ⟨hnodup, hends'⟩⟩

/-- A graph takes all rows exactly when the tables are sound. -/
theorem allTaken_rows (T : Tables) : AllTaken insert refusal empty T.rows ↔ T.Sound := by
  have hvids : empty.vids.Nodup := List.nodup_nil
  have hkeys : ({ empty with nodes := empty.nodes ++ T.nodes } : Tables).keys.Nodup :=
    List.nodup_nil
  rw [rows, allTaken_append, foldl_insert_nodes, allTaken_nodes hvids, allTaken_edges hkeys]
  exact ⟨fun ⟨hnodes, hedges, hends⟩ => ⟨hnodes, hedges, hends⟩,
    fun ⟨hnodes, hedges, hends⟩ => ⟨hnodes, hedges, hends⟩⟩

end Tables

/-! ## Rows as calls -/

/-- The call inserts the row, with whatever weight and texts the edge has. -/
def Inserts : Op → TableRow → Prop
  | .addNode n, .node v => n = v.toNode
  | .addEdge fromVid toVid _, .edge v => fromVid = v.srcVid ∧ toVid = v.dstVid
  | _, _ => False

/-- Only one call inserts a node row, because the example gives a node no data. -/
theorem inserts_node {op : Op} {v : NodeY} : Inserts op (.node v) ↔ op = .addNode v.toNode := by
  cases op <;> simp [Inserts]

/-- The calls that insert an edge row differ in the weight. -/
theorem inserts_edge {op : Op} {v : EdgeY} :
    Inserts op (.edge v) ↔ ∃ edge, op = .addEdge v.srcVid v.dstVid edge := by
  cases op <;> simp [Inserts]

/-- The error that `unwrap` panics with. -/
def error? : Reply → Option GraphError
  | .nodeIndex (.error e) => some e
  | .edgeIndex (.error e) => some e
  | .unit (.error e) => some e
  | _ => none

/-- `unwrap` does not panic, and there was no panic before. -/
def unwraps : Reply → Bool
  | .nodeIndex (.ok _) => true
  | .edgeIndex (.ok _) => true
  | .unit (.ok _) => true
  | _ => false

/-- The catalog with what an insertion adds. -/
def added (c : Catalog) : Op → Catalog
  | .addNode node => { c with nodes := c.nodes ++ [node] }
  | .addEdge fromVid toVid edge => { c with edges := c.edges ++ [⟨fromVid, toVid, edge⟩] }
  | _ => c

section Insertions

variable {c : Catalog} {T : Tables} {op : Op} {row : TableRow}

/-- A catalog with the vids and the keys of the tables refuses what the tables refuse. -/
theorem step_refused (hvids : c.vids = T.vids) (hkeys : c.keys "_" = T.keys)
    (hop : Inserts op row) {e : GraphError} (hrefusal : T.refusal row = some e) :
    (c.step "_" op).1 = c ∧ unwraps (c.step "_" op).2 = false ∧
      error? (c.step "_" op).2 = some e := by
  cases row with
  | node v =>
    obtain rfl := inserts_node.mp hop
    simp only [Tables.refusal, ← hvids] at hrefusal
    split at hrefusal
    · rename_i hmem
      obtain rfl : GraphError.nodeExistsError v.vid = e := by simpa using hrefusal
      simp [Catalog.step, NodeY.toNode, hmem, unwraps, error?]
    · simp at hrefusal
  | edge v =>
    obtain ⟨edge, rfl⟩ := inserts_edge.mp hop
    simp only [Tables.refusal, EdgeY.key, ← hvids, ← hkeys] at hrefusal
    rw [Catalog.step]
    split_ifs at hrefusal ⊢ <;> simp_all [unwraps, error?]

/-- A row that the tables can take is accepted, and added to the catalog. -/
theorem step_taken (hvids : c.vids = T.vids) (hkeys : c.keys "_" = T.keys)
    (hop : Inserts op row) (hrefusal : T.refusal row = none) :
    unwraps (c.step "_" op).2 = true ∧ (c.step "_" op).1 = added c op := by
  cases row with
  | node v =>
    obtain rfl := inserts_node.mp hop
    have hfresh : v.vid ∉ c.vids := hvids ▸ Tables.refusal_node.mp hrefusal
    simp [Catalog.step, NodeY.toNode, hfresh, unwraps, added]
  | edge v =>
    obtain ⟨edge, rfl⟩ := inserts_edge.mp hop
    obtain ⟨hkey, hsrc, hdst⟩ := Tables.refusal_edge.mp hrefusal
    rw [← hkeys, EdgeY.key] at hkey
    rw [← hvids] at hsrc hdst
    rw [Catalog.step, if_neg hkey, if_neg (not_not.mpr hsrc), if_neg (not_not.mpr hdst)]
    exact ⟨rfl, rfl⟩

end Insertions

/-! ## `read_data` -/

variable {G : Type}

/-- `GRAPH`, on what `Graph::with_capacity` returns. -/
def graph (g : G) : GraphInstance G := .new 100000 100000 g

variable [Graph G NodeM EdgeM]

def loadCall : TableRow → Op
  | .node v => .addNode v.toNode
  | .edge v => .addEdge v.srcVid v.dstVid v.toEdge

theorem inserts_loadCall (row : TableRow) : Inserts (loadCall row) row := by
  cases row with
  | node v => rfl
  | edge v => exact ⟨rfl, rfl⟩

/-- One call of `read_data`, on the graph that nobody else uses yet. -/
def load (s : Store G) (row : TableRow) : Store G × Reply := (loadCall row).run "_" s

/-- `read_data`, with the reply that it panics on. A table that cannot be read is skipped. -/
def readData (nodes : Option (List NodeY)) (edges : Option (List EdgeY)) (s : Store G) :
    Store G × Option Reply :=
  match untilRefused load unwraps ((nodes.getD []).map .node) s with
  | (s, none) => untilRefused load unwraps ((edges.getD []).map .edge) s
  | (s, some r) => (s, some r)

/-- `read_data` makes one call for each row, nodes before edges, up to the first that it cannot
unwrap. -/
theorem readData_eq (nodes : Option (List NodeY)) (edges : Option (List EdgeY)) (s : Store G) :
    readData nodes edges s
      = untilRefused load unwraps (Tables.rows ⟨nodes.getD [], edges.getD []⟩) s := by
  rw [Tables.rows, untilRefused_append, readData]
  rcases untilRefused load unwraps ((nodes.getD []).map .node) s with ⟨s', - | r⟩ <;> rfl

/-- The caches are exact, and the graph is the tables, row by row. -/
def Loaded (s : Store G) (T : Tables) : Prop := Indexed "_" s ∧ s.catalog = T.catalog

variable [LawfulGraph G]

/-- On a loaded graph, a call does and replies what the catalog of the tables does. -/
theorem Loaded.run {s : Store G} {T : Tables} (h : Loaded s T) {op : Op}
    (hop : op.isRemoval = false) : Indexed "_" (op.run "_" s).1 ∧
      (op.run "_" s).1.catalog = (T.catalog.step "_" op).1 ∧
      (op.run "_" s).2 = (T.catalog.step "_" op).2 := by
  rw [← h.2]
  exact ⟨h.1.step hop, catalog_run_fst h.1 hop, catalog_run_snd h.1 hop⟩

theorem isRemoval_of_inserts {op : Op} {row : TableRow} (h : Inserts op row) :
    op.isRemoval = false := by
  cases row with
  | node v => rw [inserts_node.mp h]; rfl
  | edge v =>
    obtain ⟨edge, rfl⟩ := inserts_edge.mp h
    rfl

/-- An insertion into the tables, seen on the catalog that they are loaded to. -/
theorem catalog_insert (T : Tables) (row : TableRow) :
    (T.insert row).catalog = added T.catalog (loadCall row) := by
  cases row <;> simp [Tables.insert, Tables.catalog, added, loadCall]

theorem loads_tables :
    Loads (Loaded (G := G)) load unwraps error? Tables.insert Tables.refusal where
  taken {s T row} h hrefusal := by
    have hinserts := inserts_loadCall row
    obtain ⟨hindexed, hcatalog, hreply⟩ := h.run (isRemoval_of_inserts hinserts)
    obtain ⟨hunwraps, hadded⟩ :=
      step_taken T.vids_catalog T.keys_catalog hinserts hrefusal
    refine ⟨?_, hindexed, ?_⟩
    · rw [load, hreply, hunwraps]
    · rw [load, hcatalog, hadded, catalog_insert]
  refused {s T row e} h hrefusal := by
    have hinserts := inserts_loadCall row
    obtain ⟨hindexed, hcatalog, hreply⟩ := h.run (isRemoval_of_inserts hinserts)
    obtain ⟨hsame, hunwraps, herror⟩ :=
      step_refused T.vids_catalog T.keys_catalog hinserts hrefusal
    refine ⟨?_, ?_, hindexed, ?_⟩
    · rw [load, hreply, hunwraps]
    · rw [load, hreply, herror]
    · rw [load, hcatalog, hsame]

omit [LawfulGraph G] in
theorem loaded_empty {g : G} (hg : Graph.IsEmpty g) : Loaded (graph g).store .empty := by
  refine ⟨.empty hg, ?_⟩
  simp [graph, GraphInstance.new, Store.catalog, Tables.catalog, Tables.empty, hg.1, hg.2]

/-- `read_data` ends without a panic exactly on sound tables. -/
theorem readData_eq_none_iff {g : G} (hg : Graph.IsEmpty g) (nodes : Option (List NodeY))
    (edges : Option (List EdgeY)) : (readData nodes edges (graph g).store).2 = none ↔
      Tables.Sound ⟨nodes.getD [], edges.getD []⟩ := by
  rw [readData_eq, loads_tables.eq_none_iff (loaded_empty hg), Tables.allTaken_rows]

/-- A graph is loaded as far as `read_data` gets. -/
theorem readData_prefix {g : G} (hg : Graph.IsEmpty g) (nodes : Option (List NodeY))
    (edges : Option (List EdgeY)) :
    ∃ pre, pre <+: Tables.rows ⟨nodes.getD [], edges.getD []⟩ ∧
      AllTaken Tables.insert Tables.refusal .empty pre ∧
      Loaded (readData nodes edges (graph g).store).1 (pre.foldl Tables.insert .empty) ∧
      ((readData nodes edges (graph g).store).2 = none →
        pre = Tables.rows ⟨nodes.getD [], edges.getD []⟩) ∧
      ∀ r, (readData nodes edges (graph g).store).2 = some r →
        ∃ row, pre ++ [row] <+: Tables.rows ⟨nodes.getD [], edges.getD []⟩ ∧
          ∃ e, (pre.foldl Tables.insert .empty).refusal row = some e ∧ error? r = some e := by
  rw [readData_eq]
  exact loads_tables.exists_prefix (loaded_empty hg) _

/-- If it ends without a panic, it has loaded all rows. -/
theorem loaded_of_silent {g : G} (hg : Graph.IsEmpty g) {nodes : Option (List NodeY)}
    {edges : Option (List EdgeY)} (hsilent : (readData nodes edges (graph g).store).2 = none) :
    Loaded (readData nodes edges (graph g).store).1 ⟨nodes.getD [], edges.getD []⟩ := by
  obtain ⟨pre, -, -, hloaded, hall, -⟩ := readData_prefix hg nodes edges
  rwa [hall hsilent, Tables.foldl_insert_rows] at hloaded

/-- **Loading.** For all contents of the two tables, `read_data` on an empty graph ends without a
panic exactly when the tables are sound, and then the graph has the rows of the tables at their
places. In any case the graph has a prefix of the rows, each of which it could take, and a
panic is on the row after it, with the error that says why the graph could not take that one. -/
theorem read_data_loads_tables {g : G} (hg : Graph.IsEmpty g) (nodes : Option (List NodeY))
    (edges : Option (List EdgeY)) :
    ((readData nodes edges (graph g).store).2 = none ↔
      Tables.Sound ⟨nodes.getD [], edges.getD []⟩) ∧
    ((readData nodes edges (graph g).store).2 = none →
      Loaded (readData nodes edges (graph g).store).1 ⟨nodes.getD [], edges.getD []⟩) ∧
    ∃ pre, pre <+: Tables.rows ⟨nodes.getD [], edges.getD []⟩ ∧
      AllTaken Tables.insert Tables.refusal .empty pre ∧
      Loaded (readData nodes edges (graph g).store).1 (pre.foldl Tables.insert .empty) ∧
      ∀ r, (readData nodes edges (graph g).store).2 = some r →
        ∃ row, pre ++ [row] <+: Tables.rows ⟨nodes.getD [], edges.getD []⟩ ∧
          ∃ e, (pre.foldl Tables.insert .empty).refusal row = some e ∧ error? r = some e := by
  obtain ⟨pre, hpre, htaken, hloaded, -, hstop⟩ := readData_prefix hg nodes edges
  exact ⟨readData_eq_none_iff hg nodes edges, loaded_of_silent hg, pre, hpre, htaken, hloaded,
    hstop⟩

/-- Two nodes, and an edge from the one to the other. -/
def pair : Tables := ⟨[⟨1, "a"⟩, ⟨2, "b"⟩], [⟨1, "a", "b"⟩]⟩

theorem pair_sound : pair.Sound := ⟨by decide, by decide, by decide⟩

/-- An empty undirected graph. -/
def blankGraph : ListGraph false NodeM EdgeM := .empty

theorem blankGraph_isEmpty : Graph.IsEmpty blankGraph := ⟨rfl, rfl⟩

/-- The two nodes and the edge between them are loaded. -/
theorem pair_loaded :
    (readData (some pair.nodes) (some pair.edges) (graph blankGraph).store).2 = none ∧
    Loaded (readData (some pair.nodes) (some pair.edges) (graph blankGraph).store).1 pair := by
  obtain ⟨hiff, hloaded, -⟩ :=
    read_data_loads_tables blankGraph_isEmpty (some pair.nodes) (some pair.edges)
  exact ⟨hiff.mpr pair_sound, hloaded (hiff.mpr pair_sound)⟩

end MemoryGraph.Examples
