import MemoryGraph.Graph.Concurrent
import MemoryGraph.Graph.Lookup
import MemoryGraph.Refine.Table

/-!
# MemoryGraph — insertions and updates against a catalog

What an instance is for, as long as nothing is removed, can be said without caches and without
endpoints by index: a `Catalog` has a table of nodes found by their vids and a table of edges
found by their keys, both in the order of insertion. `Catalog.step` gives the one reply and the
one next state of every call, errors and indices included.

* **`catalog_run`** — on a store with exact caches a call does and replies what the catalog
  does and replies;
* **`insert_traffic_follows_catalog`** — concurrent insertions, lookups and updates are calls on
  one catalog, one at a time and consistent with real time.
-/

namespace MemoryGraph

open Conc Petgraph Refine

variable {G : Type} [Graph G NodeM EdgeM] {segment : String}

/-- The nodes and the edges, in the order of insertion. -/
structure Catalog where
  nodes : List NodeM
  edges : List LiveEdge

namespace Catalog

def empty : Catalog := ⟨[], []⟩

def vids (c : Catalog) : List String := c.nodes.map NodeM.vid

def keys (segment : String) (c : Catalog) : List String := c.edges.map (LiveEdge.key segment)

def extendEdge (segment : String) (c : Catalog) (key : String) (missing : GraphError)
    (data : Dict String) : Catalog × Reply :=
  if key ∈ c.keys segment then
    ({ c with edges := Table.update (LiveEdge.key segment) c.edges key fun l => l.extend data },
      .unit (.ok ()))
  else (c, .unit (.error missing))

/-- What a call does to the catalog, and its reply. There are no removals: a catalog refuses
them. -/
def step (segment : String) (c : Catalog) : Op → Catalog × Reply
  | .addNode node =>
    if node.vid ∈ c.vids then (c, .nodeIndex (.error (.nodeExistsError node.vid)))
    else ({ c with nodes := c.nodes ++ [node] }, .nodeIndex (.ok c.nodes.length))
  | .findNodeByVid vid => (c, .node (Table.find? NodeM.vid c.nodes vid))
  | .updateNode vid data =>
    ({ c with nodes := Table.update NodeM.vid c.nodes vid fun node => { node with data := data } },
      .flag (vid ∈ c.vids))
  | .addEdge fromVid toVid edge =>
    if edgeKey segment fromVid toVid ∈ c.keys segment then
      (c, .edgeIndex (.error (.edgeExists fromVid toVid)))
    else if fromVid ∉ c.vids then (c, .edgeIndex (.error (.nodeNotFound fromVid)))
    else if toVid ∉ c.vids then (c, .edgeIndex (.error (.nodeNotFound toVid)))
    else
      ({ c with edges := c.edges ++ [⟨fromVid, toVid, edge⟩] }, .edgeIndex (.ok c.edges.length))
  | .updateEdge edgeVid data => c.extendEdge segment edgeVid (.edgeNotFound edgeVid) data
  | .updateEdgeByNode fromVid toVid data =>
    c.extendEdge segment (edgeKey segment fromVid toVid) (.edgeNotFound (fromVid ++ "->" ++ toVid))
      data
  | .removeNode _ | .removeEdge _ | .removeEdgeByNode _ _ => (c, .flag false)

/-- The calls one after another, with their replies in order. -/
def runAll (segment : String) : List Op → Catalog → Catalog × List Reply
  | [], c => (c, [])
  | op :: ops, c =>
    ((runAll segment ops (c.step segment op).1).1,
      (c.step segment op).2 :: (runAll segment ops (c.step segment op).1).2)

end Catalog

/-- The catalog of a store: its nodes, and its edges with the vids of their ends. -/
def Store.catalog (s : Store G) : Catalog where
  nodes := Graph.rawNodes s.inner
  edges := (Graph.rawEdges s.inner).filterMap (MemoryGraph.seen s.vids)

/-- Where a function is defined on the whole list, `filterMap` is a `map`. -/
theorem map_some_filterMap {α β : Type} {f : α → Option β} {l : List α}
    (h : ∀ a ∈ l, ∃ b, f a = some b) : (l.filterMap f).map some = l.map f := by
  induction l with
  | nil => rfl
  | cons a l ih =>
    obtain ⟨b, hb⟩ := h a List.mem_cons_self
    rw [List.filterMap_cons_some hb, List.map_cons, List.map_cons, hb,
      ih fun a' ha' => h a' (List.mem_cons_of_mem a ha')]

namespace Indexed

variable {s : Store G} (h : Indexed segment s)
include h

/-- Every edge is in the catalog, at its index. -/
theorem map_some_edges : s.catalog.edges.map some = s.seen :=
  map_some_filterMap fun _ he => (h.exists_seen he).imp fun _ hl => hl.1

/-- No edge is left out of the catalog, because all are seen. -/
theorem length_edges : s.catalog.edges.length = (Graph.rawEdges s.inner).length := by
  rw [← List.length_map (f := some), h.map_some_edges, Store.seen, List.length_map]

theorem catalog_getElem? (idx : Nat) : s.catalog.edges[idx]? = s.edgeAt idx := by
  have hat := congrArg (fun l : List (Option LiveEdge) => l[idx]?.join) h.map_some_edges
  simp only [List.getElem?_map, Store.seen] at hat
  rw [Store.edgeAt]
  cases hedge : (Graph.rawEdges s.inner)[idx]? <;> cases hl : s.catalog.edges[idx]? <;> simp_all

theorem keys_getElem? {idx : Nat} {key : String} :
    (s.catalog.keys segment)[idx]? = some key ↔ s.edgeCache.lookup key = some idx := by
  rw [h.edge, Store.keyAt_eq_edgeAt, Catalog.keys, List.getElem?_map, h.catalog_getElem?]

theorem keys_nodup : (s.catalog.keys segment).Nodup := nodup_of_getElem? h.keys_getElem?

theorem mem_keys {key : String} : key ∈ s.catalog.keys segment ↔ key ∈ s.edgeCache := by
  rw [Finmap.mem_iff, List.mem_iff_getElem?]
  exact exists_congr fun idx => h.keys_getElem?

theorem mem_vids {vid : String} : vid ∈ s.catalog.vids ↔ vid ∈ s.nodeCache := h.mem_nodeCache.symm

/-- A search through the catalog finds the node that the cache leads to. -/
theorem find?_nodes (vid : String) : Table.find? NodeM.vid s.catalog.nodes vid = s.node? vid := by
  refine Option.ext fun node => ?_
  rw [h.node?_eq_some]
  exact Table.find?_eq_some h.vids_nodup

/-! ## Call by call -/

variable [LawfulGraph G]

theorem catalog_addNode (node : NodeM) :
    (((Op.addNode node).run segment s).1.catalog, ((Op.addNode node).run segment s).2)
      = s.catalog.step segment (.addNode node) := by
  rw [Catalog.step, run_addNode]
  by_cases hcached : node.vid ∈ s.nodeCache
  · rw [if_pos hcached, if_pos (h.mem_vids.mpr hcached)]
  · rw [if_neg hcached, if_neg (h.mem_vids.not.mpr hcached)]
    -- the ends of the old edges are in front of the new node
    have hends : ∀ e ∈ Graph.rawEdges s.inner,
        MemoryGraph.seen (s.vids ++ [node.vid]) e = MemoryGraph.seen s.vids e := by
      intro e he
      obtain ⟨h₁, h₂⟩ := h.endpoints (e.source, e.target) (List.mem_map.mpr ⟨e, he, rfl⟩)
      exact link?_append h₁ h₂ _
    have hvids : ((Graph.rawNodes s.inner) ++ [node]).map NodeM.vid = s.vids ++ [node.vid] := by
      simp [Store.vids]
    simp only [Store.catalog, Store.vids, LawfulGraph.rawNodes_addNode,
      LawfulGraph.rawEdges_addNode, LawfulGraph.addNode_index]
    rw [hvids, List.filterMap_congr hends]
    rfl

theorem catalog_updateNode (vid : String) (data : Dict String) :
    (((Op.updateNode vid data).run segment s).1.catalog, ((Op.updateNode vid data).run segment s).2)
      = s.catalog.step segment (.updateNode vid data) := by
  obtain ⟨s', hrun, -, -, hnodes, hedges⟩ := run_updateNode_eq vid data s
  have hupdated : Graph.rawNodes s'.inner = Table.update NodeM.vid (Graph.rawNodes s.inner) vid
      fun node => { node with data := data } := by
    rw [hnodes]
    cases hidx : s.nodeCache.lookup vid with
    | none =>
      have hnot : vid ∉ s.vids := h.mem_nodeCache.not.mp (Finmap.lookup_eq_none.mp hidx)
      exact (Table.update_of_notMem hnot).symm
    | some idx => exact Table.modify_eq_update h.vids_nodup (h.node.mp hidx)
  have hvids : s'.vids = s.vids := by
    rw [Store.vids, hupdated]
    exact Table.keys_update fun _ => rfl
  have hflag : (s.node? vid).isSome = decide (vid ∈ s.catalog.vids) := by
    rw [Bool.eq_iff_iff, decide_eq_true_iff, h.mem_vids, h.isSome_node?]
  rw [hrun, Catalog.step, Store.catalog, hvids, hupdated, hedges, hflag]
  rfl

/-- `add_edge` and its reply, read off the catalog. It never panics, because cached indices are in
range. -/
theorem catalog_addEdge (fromVid toVid : String) (edge : EdgeM) :
    (((Op.addEdge fromVid toVid edge).run segment s).1.catalog,
        ((Op.addEdge fromVid toVid edge).run segment s).2)
      = s.catalog.step segment (.addEdge fromVid toVid edge) := by
  rw [Catalog.step]
  simp only [h.mem_keys, h.mem_vids]
  by_cases hkey : edgeKey segment fromVid toVid ∈ s.edgeCache
  · rw [if_pos hkey, run_addEdge, if_pos hkey]
  · rw [if_neg hkey]
    by_cases hfrom : fromVid ∈ s.nodeCache
    · by_cases hto : toVid ∈ s.nodeCache
      -- the edge is appended, and seen between the two vids
      · obtain ⟨s', a, b, ha, hb, hrun, -, -, hnodes, hedges⟩ :=
          h.run_addEdge_fresh edge hfrom hto hkey
        have hseen : MemoryGraph.seen s.vids ⟨edge, a, b⟩ = some ⟨fromVid, toVid, edge⟩ :=
          link?_eq_some.mpr ⟨ha, hb, rfl⟩
        have hvids : s'.vids = s.vids := by rw [Store.vids, hnodes, Store.vids]
        rw [if_neg (not_not.mpr hfrom), if_neg (not_not.mpr hto), hrun, h.length_edges,
          Store.catalog, hvids, hnodes, hedges, List.filterMap_append,
          List.filterMap_cons_some hseen]
        rfl
      · obtain ⟨a, ha⟩ := Finmap.mem_iff.mp hfrom
        rw [if_neg (not_not.mpr hfrom), if_pos hto, run_addEdge, if_neg hkey, ha,
          Finmap.lookup_eq_none.mpr hto]
    · rw [if_pos hfrom, run_addEdge, if_neg hkey, Finmap.lookup_eq_none.mpr hfrom]

theorem catalog_updateEdgeAt (key : String) (missing : GraphError) (data : Dict String) :
    (((updateEdgeAt key missing data).run s).1.catalog, ((updateEdgeAt key missing data).run s).2)
      = s.catalog.extendEdge segment key missing data := by
  obtain ⟨s', hrun, -, -, hnodes, hedges⟩ := run_updateEdgeAt_eq key missing data s
  have hvids : s'.vids = s.vids := by rw [Store.vids, hnodes, Store.vids]
  rw [hrun, Catalog.extendEdge]
  simp only [h.mem_keys]
  cases hidx : s.edgeCache.lookup key with
  | none =>
    rw [hidx, modifyAt] at hedges
    rw [if_neg (Finmap.lookup_eq_none.mp hidx), Store.rawEdge?, hidx, Option.bind_none]
    simp [Store.catalog, hvids, hnodes, hedges]
  | some idx =>
    obtain ⟨e, he⟩ := h.exists_edge hidx
    rw [hidx, modifyAt] at hedges
    rw [if_pos (Finmap.mem_of_lookup_eq_some hidx), Store.rawEdge?, hidx, Option.bind_some, he,
      Option.isSome_some, if_pos rfl,
      ← Table.modify_eq_update h.keys_nodup (h.keys_getElem?.mpr hidx)]
    -- exact caches make the cached index the place in the catalog
    have h' : Indexed segment s' := by
      have hchange : Change segment s (.updateEdge key data)
          ((updateEdgeAt key missing data).run s).1 := change_updateEdgeAt rfl missing s
      rw [hrun] at hchange
      exact h.change rfl hchange
    have hmodified : s'.catalog.edges = s.catalog.edges.modify idx fun l => l.extend data := by
      refine List.ext_getElem? fun i => ?_
      rw [h'.catalog_getElem?, List.getElem?_modify, h.catalog_getElem?, Store.edgeAt, Store.edgeAt,
        hvids, hedges, List.getElem?_modify]
      cases (Graph.rawEdges s.inner)[i]? with
      | none => rfl
      | some e =>
        by_cases hi : idx = i
        · simp only [if_pos hi, Option.map_eq_map, Option.map_some, Option.bind_some]
          exact seen_extendData s.vids data e
        · simp [hi]
    rw [← hmodified, ← show s'.catalog.nodes = s.catalog.nodes from hnodes]

end Indexed

section Laws

variable [LawfulGraph G]

/-- **Call.** On a store with exact caches, a call does and replies what the catalog does and
replies. -/
theorem catalog_run {s : Store G} (h : Indexed segment s) {op : Op} (hop : op.isRemoval = false) :
    ((op.run segment s).1.catalog, (op.run segment s).2) = s.catalog.step segment op := by
  cases op with
  | addNode node => exact h.catalog_addNode node
  | findNodeByVid vid =>
    have hreply : ((Op.findNodeByVid vid).run segment s).2 = .node (s.node? vid) :=
      reply_findNodeByVid vid s
    rw [Catalog.step, h.find?_nodes, hreply, run_findNodeByVid]
  | updateNode vid data => exact h.catalog_updateNode vid data
  | addEdge fromVid toVid edge => exact h.catalog_addEdge fromVid toVid edge
  | updateEdge edgeVid data => exact h.catalog_updateEdgeAt edgeVid _ data
  | updateEdgeByNode fromVid toVid data => exact h.catalog_updateEdgeAt _ _ data
  | _ => simp [Op.isRemoval] at hop

theorem catalog_run_fst {s : Store G} (h : Indexed segment s) {op : Op}
    (hop : op.isRemoval = false) :
    (op.run segment s).1.catalog = (s.catalog.step segment op).1 :=
  congrArg Prod.fst (catalog_run h hop)

theorem catalog_run_snd {s : Store G} (h : Indexed segment s) {op : Op}
    (hop : op.isRemoval = false) : (op.run segment s).2 = (s.catalog.step segment op).2 :=
  congrArg Prod.snd (catalog_run h hop)

/-- **Run.** A sequence of calls without removals does and replies what the catalog does. -/
theorem catalog_runAll {s : Store G} (h : Indexed segment s) {ops : List Op}
    (hops : ∀ op ∈ ops, op.isRemoval = false) :
    ((runAll segment ops s).1.catalog, (runAll segment ops s).2)
      = Catalog.runAll segment ops s.catalog := by
  induction ops generalizing s with
  | nil => rfl
  | cons op ops ih =>
    have hhead := catalog_run h (hops op List.mem_cons_self)
    have hrest := ih (h.step (hops op List.mem_cons_self))
      fun op' hop' => hops op' (List.mem_cons_of_mem op hop')
    obtain ⟨hcatalog, hreply⟩ := Prod.mk.inj hhead
    obtain ⟨hcatalog', hreplies⟩ := Prod.mk.inj hrest
    rw [hcatalog] at hcatalog' hreplies
    exact Prod.ext hcatalog' (congrArg₂ List.cons hreply hreplies)

/-- **Concurrent insertions, lookups and updates are calls on one catalog.** In every
interleaving of such calls, those that have replied can be put in one order, consistent with
real time, in which the catalog gives each of them its reply and ends with the nodes and the
edges of the graph, in index order. -/
theorem insert_traffic_follows_catalog {ι : Type} [DecidableEq ι] (nodeCap edgeCap : Nat) {g : G}
    (hg : Graph.IsEmpty g) {ops : ι → Op} (hops : ∀ t, (ops t).isRemoval = false)
    {tr : List (Event ι)} {c : Config ι (Store G) Lock Reply}
    (hrun : Run ((GraphInstance.new nodeCap edgeCap g).calls ops)
      (GraphInstance.new nodeCap edgeCap g).store tr c) :
    ∃ order : List ι, order.Nodup ∧ (∀ t, t ∈ order ↔ (c.phase t).reply?.isSome) ∧
      (∀ a b, ReturnedBefore tr a b → b ∈ order → [a, b].Sublist order) ∧
      (Catalog.runAll "_" (order.map ops) .empty).1 = c.store.catalog ∧
      (Catalog.runAll "_" (order.map ops) .empty).2.map some
        = order.map fun t => (c.phase t).reply? := by
  obtain ⟨order, hlin⟩ := exists_linearization hrun
  refine ⟨order, ?_⟩
  have hempty : (⟨g, ∅, ∅⟩ : Store G).catalog = .empty := by
    simp [Store.catalog, Catalog.empty, hg.1, hg.2]
  have hstore := store_eq_runAll hlin
  have hreplies := replies_eq_runAll hlin
  simp only [GraphInstance.runAll, GraphInstance.new] at hstore hreplies
  have hindexed : Indexed "_" (⟨g, ∅, ∅⟩ : Store G) := .empty hg
  have hkind : ∀ op ∈ order.map ops, op.isRemoval = false := fun op hop => by
    obtain ⟨t, -, rfl⟩ := List.mem_map.mp hop
    exact hops t
  have hcatalog := catalog_runAll hindexed hkind
  rw [hempty, hstore] at hcatalog
  rw [← hcatalog]
  exact ⟨hlin.nodup, hlin.mem_iff, hlin.realTime, rfl, hreplies⟩

end Laws

/-- The update of the loop looks its key up before the loop is there, and is refused. -/
theorem building_follows_catalog : ∃ c, Run (GraphInstance.blank.calls building)
    GraphInstance.blank.store
    [.begin 2, .begin 0, .enter 0, .enter 0, .begin 1, .enter 1, .enter 2, .enter 1] c ∧
    ∃ order : List (Fin 3), order.Nodup ∧ (∀ t, t ∈ order) ∧
      (Catalog.runAll "_" (order.map building) .empty).1 = c.store.catalog ∧
      (Catalog.runAll "_" (order.map building) .empty).2.map some
        = order.map fun t => (c.phase t).reply? := by
  have hrun : ∃ c, Run (GraphInstance.blank.calls building) GraphInstance.blank.store
      [.begin 2, .begin 0, .enter 0, .enter 0, .begin 1, .enter 1, .enter 2, .enter 1] c ∧
      ∀ t, (c.phase t).reply?.isSome :=
    ⟨_, Run.of_replay rfl, fun t => match t with | 0 | 1 | 2 => rfl⟩
  obtain ⟨c, hrun, hall⟩ := hrun
  have hops : ∀ t, (building t).isRemoval = false := fun t => match t with | 0 | 1 | 2 => rfl
  obtain ⟨order, hnodup, hmem, -, hcatalog, hreplies⟩ :=
    insert_traffic_follows_catalog 0 0 ⟨rfl, rfl⟩ hops hrun
  exact ⟨c, hrun, order, hnodup, fun t => (hmem t).mpr (hall t), hcatalog, hreplies⟩

end MemoryGraph
