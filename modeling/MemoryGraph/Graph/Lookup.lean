import Mathlib.Data.List.OfFn
import MemoryGraph.Graph.Index
import MemoryGraph.Petgraph.Named

/-!
# MemoryGraph — what the caches resolve to

`node?` follows `node_cache` into the node array, and `edge?` follows `edge_cache` into the
edge array and the ends of the edge there into the node array. These two partial functions are
what a caller can see of a store, and the abstract model of the next module is a map with
their values.

While the caches are exact (`Indexed`), each operation changes them the way its name says:
at one key, or nowhere.
-/

namespace MemoryGraph

open Conc Petgraph Function

variable {G : Type} [Graph G NodeM EdgeM] {segment : String}

theorem erase_eq_self {V : Type} {m : Dict V} {key : String} (hkey : key ∉ m) :
    m.erase key = m := by
  refine Finmap.ext_lookup fun key' => ?_
  rcases eq_or_ne key' key with rfl | hne
  · rw [Finmap.lookup_erase, Finmap.lookup_eq_none.mpr hkey]
  · rw [Finmap.lookup_erase_ne hne]

/-- The list with the element at the index changed, if there is an index and an element at it. -/
def modifyAt {α : Type} (l : List α) (idx : Option Nat) (f : α → α) : List α :=
  match idx with
  | some i => l.modify i f
  | none => l

/-- An edge of the graph with the vids of its ends. -/
abbrev LiveEdge := Link String EdgeM

namespace LiveEdge

def key (segment : String) (l : LiveEdge) : String := edgeKey segment l.source l.target

def extend (l : LiveEdge) (data : Dict String) : LiveEdge :=
  { l with weight := { l.weight with data := l.weight.data.extend data } }

@[simp] theorem key_extend (l : LiveEdge) (data : Dict String) :
    (l.extend data).key segment = l.key segment := rfl

end LiveEdge

/-- A petgraph edge with its endpoints resolved, when both are in range. -/
abbrev seen (vids : List String) (e : Edge EdgeM) : Option LiveEdge := link? vids e

/-- The key of an edge is the key of the vids at its ends. -/
theorem keyOf_eq_seen (segment : String) (vids : List String) (e : Edge EdgeM) :
    keyOf segment vids (e.source, e.target) = (seen vids e).map (LiveEdge.key segment) := by
  rw [keyOf, seen, link?]
  cases vids[e.source]? <;> cases vids[e.target]? <;> rfl

/-- Both ends of an edge that is seen are vids of the graph. -/
theorem mem_of_seen {vids : List String} {e : Edge EdgeM} {l : LiveEdge}
    (h : seen vids e = some l) : l.source ∈ vids ∧ l.target ∈ vids := by
  obtain ⟨hfrom, hto, -⟩ := link?_eq_some.mp h
  exact ⟨List.mem_of_getElem? hfrom, List.mem_of_getElem? hto⟩

def extendData (data : Dict String) (e : Edge EdgeM) : Edge EdgeM :=
  { e with weight := { e.weight with data := e.weight.data.extend data } }

/-- An update of the data of an edge does not change the vids it is seen between. -/
theorem seen_extendData (vids : List String) (data : Dict String) (e : Edge EdgeM) :
    seen vids (extendData data e) = (seen vids e).map fun l => l.extend data := by
  simp only [seen, link?, extendData]
  cases vids[e.source]? <;> cases vids[e.target]? <;> rfl

namespace Store

/-- The edges of the graph in index order, each with the vids of its ends. -/
def seen (s : Store G) : List (Option LiveEdge) :=
  (Graph.rawEdges s.inner).map (MemoryGraph.seen s.vids)

def edgeAt (s : Store G) (idx : Nat) : Option LiveEdge :=
  (Graph.rawEdges s.inner)[idx]?.bind (MemoryGraph.seen s.vids)

/-- The node that `node_cache` resolves a vid to. -/
def node? (s : Store G) (vid : String) : Option NodeM :=
  (s.nodeCache.lookup vid).bind fun idx => (Graph.rawNodes s.inner)[idx]?

/-- The petgraph edge at the index cached for a key. -/
def rawEdge? (s : Store G) (key : String) : Option (Edge EdgeM) :=
  (s.edgeCache.lookup key).bind fun idx => (Graph.rawEdges s.inner)[idx]?

/-- The edge that `edge_cache` resolves a key to. -/
def edge? (s : Store G) (key : String) : Option LiveEdge := (s.edgeCache.lookup key).bind s.edgeAt

/-- The key at an index is that of the edge seen there. -/
theorem keyAt_eq_edgeAt (s : Store G) (idx : Nat) :
    s.keyAt segment idx = (s.edgeAt idx).map (LiveEdge.key segment) := by
  simp only [keyAt, ends, edgeAt, List.getElem?_map]
  cases (Graph.rawEdges s.inner)[idx]? with
  | none => rfl
  | some e => exact keyOf_eq_seen segment s.vids e

/-- An edge is seen exactly if it is seen at some index. -/
theorem some_mem_seen {s : Store G} {l : LiveEdge} :
    some l ∈ s.seen ↔ ∃ idx, s.edgeAt idx = some l := by
  constructor
  · intro hl
    obtain ⟨e, he, hseen⟩ := List.mem_map.mp hl
    obtain ⟨idx, hidx⟩ := List.mem_iff_getElem?.mp he
    exact ⟨idx, by rw [edgeAt, hidx, Option.bind_some, hseen]⟩
  · rintro ⟨idx, hat⟩
    obtain ⟨e, he, hseen⟩ := Option.bind_eq_some_iff.mp hat
    exact List.mem_map.mpr ⟨e, List.mem_of_getElem? he, hseen⟩

end Store

/-! ## Exact caches resolve exactly -/

namespace Indexed

variable {s : Store G} (h : Indexed segment s)
include h

theorem mem_nodeCache {vid : String} : vid ∈ s.nodeCache ↔ vid ∈ s.vids := by
  rw [Finmap.mem_iff, List.mem_iff_getElem?]
  exact exists_congr fun idx => h.node

/-- With exact caches, the node found for a vid is the one that has it. -/
theorem node?_eq_some {vid : String} {node : NodeM} :
    s.node? vid = some node ↔ node ∈ Graph.rawNodes s.inner ∧ node.vid = vid := by
  rw [Store.node?, Option.bind_eq_some_iff, List.mem_iff_getElem?]
  constructor
  · rintro ⟨idx, hlookup, hnode⟩
    obtain ⟨node', hnode', hvid⟩ := Store.vids_getElem?.mp (h.node.mp hlookup)
    obtain rfl : node = node' := by simpa [hnode] using hnode'
    exact ⟨⟨idx, hnode⟩, hvid⟩
  · rintro ⟨⟨idx, hnode⟩, hvid⟩
    exact ⟨idx, h.node.mpr (Store.vids_getElem?.mpr ⟨node, hnode, hvid⟩), hnode⟩

theorem isSome_node? {vid : String} : (s.node? vid).isSome ↔ vid ∈ s.nodeCache := by
  rw [h.mem_nodeCache, Option.isSome_iff_exists]
  simp [h.node?_eq_some, Store.vids]

/-- With exact caches, the edge found for a key is the one that has it. -/
theorem edge?_eq_some {key : String} {l : LiveEdge} :
    s.edge? key = some l ↔ some l ∈ s.seen ∧ l.key segment = key := by
  rw [Store.edge?, Option.bind_eq_some_iff, Store.some_mem_seen, ← exists_and_right]
  refine exists_congr fun idx => ?_
  rw [h.edge, Store.keyAt_eq_edgeAt]
  constructor
  · rintro ⟨hkey, hl⟩
    rw [hl] at hkey
    exact ⟨hl, by simpa using hkey⟩
  · rintro ⟨hl, rfl⟩
    exact ⟨by rw [hl]; rfl, hl⟩

theorem isSome_edge? {key : String} : (s.edge? key).isSome ↔ key ∈ s.edgeCache := by
  rw [Finmap.mem_iff, Option.isSome_iff_exists]
  constructor
  · rintro ⟨l, hl⟩
    obtain ⟨idx, hidx, -⟩ := Option.bind_eq_some_iff.mp hl
    exact ⟨idx, hidx⟩
  · rintro ⟨idx, hidx⟩
    have hkey := h.edge.mp hidx
    rw [Store.keyAt_eq_edgeAt] at hkey
    obtain ⟨l, hl, -⟩ := Option.map_eq_some_iff.mp hkey
    exact ⟨l, by rw [Store.edge?, hidx, Option.bind_some, hl]⟩

/-- The cached keys are the keys of the edges. -/
theorem mem_edgeCache {key : String} :
    key ∈ s.edgeCache ↔ ∃ l, some l ∈ s.seen ∧ l.key segment = key := by
  rw [← h.isSome_edge?, Option.isSome_iff_exists]
  exact exists_congr fun l => h.edge?_eq_some

theorem exists_edge {key : String} {idx : Nat} (hidx : s.edgeCache.lookup key = some idx) :
    ∃ e, (Graph.rawEdges s.inner)[idx]? = some e := by
  obtain ⟨e, -, -, he, -⟩ := Store.keyAt_eq_some.mp (h.edge.mp hidx)
  exact ⟨e, he⟩

/-- With exact caches, every edge of the graph is seen between two vids. -/
theorem exists_seen {e : Edge EdgeM} (he : e ∈ Graph.rawEdges s.inner) :
    ∃ l, seen s.vids e = some l ∧ s.vids[e.source]? = some l.source ∧
      s.vids[e.target]? = some l.target := by
  obtain ⟨h₁, h₂⟩ := h.endpoints (e.source, e.target) (List.mem_map.mpr ⟨e, he, rfl⟩)
  have hfrom := List.getElem?_eq_getElem h₁
  have hto := List.getElem?_eq_getElem h₂
  exact ⟨_, by rw [seen, link?, hfrom, hto]; rfl, hfrom, hto⟩

theorem key_unique {key key' : String} {idx : Nat} (hkey : s.edgeCache.lookup key = some idx)
    (hkey' : s.edgeCache.lookup key' = some idx) : key' = key := by
  rw [h.edge] at hkey hkey'
  simpa [hkey'] using hkey

theorem vid_unique {vid vid' : String} {idx : Nat} (hvid : s.nodeCache.lookup vid = some idx)
    (hvid' : s.nodeCache.lookup vid' = some idx) : vid' = vid := by
  rw [h.node] at hvid hvid'
  simpa [hvid'] using hvid

/-- The cached keys in index order: they resolve to the edges of the graph one by one. -/
theorem exists_keys : ∃ keys : List String,
    (∀ {key idx}, keys[idx]? = some key ↔ s.edgeCache.lookup key = some idx) ∧
      s.seen = keys.map s.edge? := by
  have hkeys : ∀ idx : Fin s.ends.length, ∃ key, s.keyAt segment idx = some key :=
    fun idx => h.exists_key idx.isLt
  choose key hkey using hkeys
  have hget : ∀ {k idx}, (List.ofFn key)[idx]? = some k ↔ s.edgeCache.lookup k = some idx := by
    intro k idx
    rw [h.edge, List.getElem?_ofFn]
    split
    · rename_i hlt
      rw [hkey ⟨idx, hlt⟩]
    · rename_i hge
      simp [Store.keyAt, List.getElem?_eq_none (Nat.le_of_not_lt hge)]
  refine ⟨List.ofFn key, hget, ?_⟩
  have hlen : s.ends.length = (Graph.rawEdges s.inner).length := by simp [Store.ends]
  refine List.ext_getElem (by simp [Store.seen, hlen]) fun i h₁ h₂ => ?_
  have hi : i < s.ends.length := by simpa using h₂
  have hi' : i < (Graph.rawEdges s.inner).length := hlen ▸ hi
  simp [Store.seen, Store.edge?, h.edge.mpr (hkey ⟨i, hi⟩), Store.edgeAt,
    List.getElem?_eq_getElem hi']

end Indexed

/-! ## What each operation does to them -/

/-- Only `edge_cache` and the resolved edges matter to `edge?`. -/
theorem Store.edge?_of_edgeAt {s s' : Store G} (hcache : s'.edgeCache = s.edgeCache)
    (hedgeAt : ∀ idx, s'.edgeAt idx = s.edgeAt idx) : s'.edge? = s.edge? := by
  funext key
  simp only [Store.edge?, hcache]
  exact Option.bind_congr fun idx _ => hedgeAt idx

section Steps

variable [LawfulGraph G] {s : Store G}

/-- `find_node_by_vid` replies what the vid resolves to, in any store. -/
theorem reply_findNodeByVid (vid : String) (s : Store G) :
    ((Op.findNodeByVid vid).run segment s).2 = .node (s.node? vid) := by
  rw [run_findNodeByVid, Store.node?]
  simp [LawfulGraph.nodeWeight_eq]

/-- What `update_node` does in any store: it changes the node at the cached index, if any. -/
theorem run_updateNode_eq (vid : String) (data : Dict String) (s : Store G) :
    ∃ s', (Op.updateNode vid data).run segment s = (s', .flag (s.node? vid).isSome) ∧
      s'.nodeCache = s.nodeCache ∧ s'.edgeCache = s.edgeCache ∧
      Graph.rawNodes s'.inner = modifyAt (Graph.rawNodes s.inner) (s.nodeCache.lookup vid)
        (fun node => { node with data := data }) ∧
      Graph.rawEdges s'.inner = Graph.rawEdges s.inner := by
  rw [run_updateNode, Store.node?]
  -- no entry, an entry out of range, and an entry with a node behind it
  cases hidx : s.nodeCache.lookup vid with
  | none => exact ⟨s, rfl, rfl, rfl, rfl, rfl⟩
  | some idx =>
    rw [Option.bind_some, Option.bind_some, modifyAt]
    cases hborrow : Graph.nodeWeightMut s.inner idx with
    | none =>
      have hnone := LawfulGraph.nodeWeightMut_eq_none hborrow
      refine ⟨s, by simp [hnone], rfl, rfl, ?_, rfl⟩
      exact (List.modify_eq_self (List.getElem?_eq_none_iff.mp hnone)).symm
    | some borrow =>
      obtain ⟨node, put⟩ := borrow
      have hnode := LawfulGraph.nodeWeightMut_eq_some hborrow
      refine ⟨⟨put { node with data := data }, s.nodeCache, s.edgeCache⟩, by simp [hnode], rfl, rfl,
        ?_, LawfulGraph.rawEdges_nodeWeightMut hborrow _⟩
      show Graph.rawNodes (put _) = _
      rw [LawfulGraph.rawNodes_nodeWeightMut hborrow, List.modify_eq_set_getElem?, hnode]
      rfl

/-- `update_node` replies whether the vid resolves, in any store. -/
theorem reply_updateNode (vid : String) (data : Dict String) (s : Store G) :
    ((Op.updateNode vid data).run segment s).2 = .flag (s.node? vid).isSome := by
  obtain ⟨s', hrun, -⟩ := run_updateNode_eq vid data s
  rw [hrun]

/-- What an edge update does in any store: it changes the edge at the cached index, if any. -/
theorem run_updateEdgeAt_eq (key : String) (missing : GraphError) (data : Dict String)
    (s : Store G) :
    ∃ s', (updateEdgeAt key missing data).run s =
        (s', .unit (if (s.rawEdge? key).isSome then .ok () else .error missing)) ∧
      s'.nodeCache = s.nodeCache ∧ s'.edgeCache = s.edgeCache ∧
      Graph.rawNodes s'.inner = Graph.rawNodes s.inner ∧
      Graph.rawEdges s'.inner = modifyAt (Graph.rawEdges s.inner) (s.edgeCache.lookup key)
        (extendData data) := by
  rw [run_updateEdgeAt, Store.rawEdge?]
  -- no entry, an entry out of range, and an entry with an edge behind it
  cases hidx : s.edgeCache.lookup key with
  | none => exact ⟨s, rfl, rfl, rfl, rfl, rfl⟩
  | some idx =>
    rw [Option.bind_some, Option.bind_some, modifyAt]
    cases hborrow : Graph.edgeWeightMut s.inner idx with
    | none =>
      have hnone := LawfulGraph.edgeWeightMut_eq_none hborrow
      refine ⟨s, by simp [hnone], rfl, rfl, rfl, ?_⟩
      exact (List.modify_eq_self (List.getElem?_eq_none_iff.mp hnone)).symm
    | some borrow =>
      obtain ⟨weight, put⟩ := borrow
      obtain ⟨e, he, rfl⟩ := LawfulGraph.edgeWeightMut_eq_some hborrow
      refine ⟨⟨put { e.weight with data := e.weight.data.extend data }, s.nodeCache, s.edgeCache⟩,
        by simp [he], rfl, rfl, LawfulGraph.rawNodes_edgeWeightMut hborrow _, ?_⟩
      show Graph.rawEdges (put _) = _
      rw [LawfulGraph.rawEdges_edgeWeightMut hborrow, List.modify_eq_set_getElem?,
        List.modify_eq_set_getElem?, he]
      rfl

/-- An edge update under a cached key writes the extended data to the edge at the index, in any
store where there is one. -/
theorem run_updateEdgeAt_cached {key : String} {idx : Nat} {e : Edge EdgeM} (missing : GraphError)
    (data : Dict String) (hidx : s.edgeCache.lookup key = some idx)
    (he : (Graph.rawEdges s.inner)[idx]? = some e) :
    ∃ s', (updateEdgeAt key missing data).run s = (s', .unit (.ok ())) ∧
      s'.nodeCache = s.nodeCache ∧ s'.edgeCache = s.edgeCache ∧
      Graph.rawNodes s'.inner = Graph.rawNodes s.inner ∧
      Graph.rawEdges s'.inner = (Graph.rawEdges s.inner).modify idx (extendData data) := by
  have hall := run_updateEdgeAt_eq key missing data s
  simpa only [Store.rawEdge?, hidx, Option.bind_some, he, Option.isSome_some, if_true, modifyAt]
    using hall

namespace Indexed

variable (h : Indexed segment s)
include h

/-- A new node is found under its vid, and every other vid as before. -/
theorem node?_addNode {node : NodeM} (hfresh : node.vid ∉ s.nodeCache) :
    ((Op.addNode node).run segment s).1.node? = update s.node? node.vid (some node) := by
  funext vid
  rw [run_addNode, if_neg hfresh]
  simp only [Store.node?, LawfulGraph.addNode_index, LawfulGraph.rawNodes_addNode]
  rcases eq_or_ne vid node.vid with rfl | hne
  · rw [update_self, Finmap.lookup_insert]
    simp
  · rw [update_of_ne hne, Finmap.lookup_insert_of_ne _ hne, Store.node?]
    cases hidx : s.nodeCache.lookup vid with
    | none => rfl
    | some idx =>
      obtain ⟨old, hold, -⟩ := Store.vids_getElem?.mp (h.node.mp hidx)
      have hlt := (List.getElem?_eq_some_iff.mp hold).1
      rw [Option.bind_some, Option.bind_some, List.getElem?_append_left hlt]

/-- An update reaches the node that is found under its vid, and no other. -/
theorem node?_updateNode (vid : String) (data : Dict String) :
    ((Op.updateNode vid data).run segment s).1.node? =
      update s.node? vid ((s.node? vid).map fun node => { node with data := data }) := by
  obtain ⟨s', hrun, hcache, -, hnodes, -⟩ := run_updateNode_eq vid data s
  funext vid'
  rw [hrun, Store.node?, hcache, hnodes]
  rcases eq_or_ne vid' vid with rfl | hne
  · rw [update_self, Store.node?]
    cases s.nodeCache.lookup vid' with
    | none => rfl
    | some idx =>
      rw [Option.bind_some, Option.bind_some, modifyAt, List.getElem?_modify_eq]
      rfl
  · rw [update_of_ne hne, Store.node?]
    cases hidx' : s.nodeCache.lookup vid' with
    | none => rfl
    | some idx' =>
      cases hidx : s.nodeCache.lookup vid with
      | none => rfl
      | some idx =>
        -- different vids are cached at different indices, so the update is elsewhere
        have hne' : idx ≠ idx' := by
          rintro rfl
          exact hne (h.vid_unique hidx hidx')
        rw [Option.bind_some, Option.bind_some, modifyAt, List.getElem?_modify_ne _ _ hne']

/-- A new node changes nothing about edges: they keep their indices, and their ends theirs. -/
theorem edge?_addNode (node : NodeM) :
    ((Op.addNode node).run segment s).1.edge? = s.edge? := by
  rw [run_addNode]
  split
  · rfl
  · refine Store.edge?_of_edgeAt rfl fun idx => ?_
    simp only [Store.edgeAt, Store.vids, LawfulGraph.rawNodes_addNode, LawfulGraph.rawEdges_addNode]
    cases hidx : (Graph.rawEdges s.inner)[idx]? with
    | none => rfl
    | some e =>
      obtain ⟨h₁, h₂⟩ := h.endpoints (e.source, e.target)
        (List.mem_map.mpr ⟨e, List.mem_of_getElem? hidx, rfl⟩)
      rw [Option.bind_some, Option.bind_some, List.map_append]
      exact link?_append h₁ h₂ _

/-- A new edge between two cached vids, under a fresh key. -/
theorem run_addEdge_fresh {fromVid toVid : String} (edge : EdgeM)
    (hfrom : fromVid ∈ s.nodeCache) (hto : toVid ∈ s.nodeCache)
    (hfresh : edgeKey segment fromVid toVid ∉ s.edgeCache) :
    ∃ s' a b, s.vids[a]? = some fromVid ∧ s.vids[b]? = some toVid ∧
      (Op.addEdge fromVid toVid edge).run segment s
        = (s', .edgeIndex (.ok (Graph.rawEdges s.inner).length)) ∧
      s'.nodeCache = s.nodeCache ∧
      s'.edgeCache
        = s.edgeCache.insert (edgeKey segment fromVid toVid) (Graph.rawEdges s.inner).length ∧
      Graph.rawNodes s'.inner = Graph.rawNodes s.inner ∧
      Graph.rawEdges s'.inner = Graph.rawEdges s.inner ++ [⟨edge, a, b⟩] := by
  obtain ⟨a, ha⟩ := Finmap.mem_iff.mp hfrom
  obtain ⟨b, hb⟩ := Finmap.mem_iff.mp hto
  obtain ⟨graph, hadd, hnodes, hedges⟩ :=
    LawfulGraph.addEdge_in_range (e := edge) (h.nodesInRange _ _ ha) (h.nodesInRange _ _ hb)
  refine ⟨⟨graph, s.nodeCache, s.edgeCache.insert (edgeKey segment fromVid toVid) _⟩, a, b,
    h.node.mp ha, h.node.mp hb, ?_, rfl, rfl, hnodes, hedges⟩
  rw [run_addEdge, if_neg hfresh, ha, hb]
  simp only [hadd]

/-- A new edge is found under its key, and every other key as before. -/
theorem edge?_addEdge {fromVid toVid : String} (edge : EdgeM) (hfrom : fromVid ∈ s.nodeCache)
    (hto : toVid ∈ s.nodeCache) (hfresh : edgeKey segment fromVid toVid ∉ s.edgeCache) :
    ((Op.addEdge fromVid toVid edge).run segment s).1.edge? =
      update s.edge? (edgeKey segment fromVid toVid) (some ⟨fromVid, toVid, edge⟩) := by
  obtain ⟨s', a, b, ha, hb, hrun, -, hcache, hnodes, hedges⟩ :=
    h.run_addEdge_fresh edge hfrom hto hfresh
  have hvids : s'.vids = s.vids := by rw [Store.vids, hnodes, Store.vids]
  funext key
  rw [hrun, Store.edge?, hcache]
  rcases eq_or_ne key (edgeKey segment fromVid toVid) with rfl | hne
  · rw [update_self, Finmap.lookup_insert, Option.bind_some, Store.edgeAt, hvids, hedges]
    simp [seen, link?, ha, hb]
  · rw [update_of_ne hne, Finmap.lookup_insert_of_ne _ hne, Store.edge?]
    cases hidx : s.edgeCache.lookup key with
    | none => rfl
    | some idx =>
      obtain ⟨e, he⟩ := h.exists_edge hidx
      have hlt := (List.getElem?_eq_some_iff.mp he).1
      rw [Option.bind_some, Option.bind_some, Store.edgeAt, Store.edgeAt, hvids, hedges,
        List.getElem?_append_left hlt]

/-- An update reaches the edge that is found under its key, and no other. -/
theorem edge?_updateEdgeAt (key : String) (missing : GraphError) (data : Dict String) :
    ((updateEdgeAt key missing data).run s).1.edge? =
      update s.edge? key ((s.edge? key).map fun l => l.extend data) := by
  cases hidx : s.edgeCache.lookup key with
  | none =>
    have hnone : s.edge? key = none := by rw [Store.edge?, hidx, Option.bind_none]
    rw [run_updateEdgeAt, hidx, hnone, Option.map_none, ← hnone, update_eq_self]
    rfl
  | some idx =>
    obtain ⟨e, he⟩ := h.exists_edge hidx
    obtain ⟨s', hrun, -, hcache, hnodes, hedges⟩ := run_updateEdgeAt_cached missing data hidx he
    have hvids : s'.vids = s.vids := by rw [Store.vids, hnodes, Store.vids]
    funext key'
    rw [hrun, Store.edge?, hcache]
    rcases eq_or_ne key' key with rfl | hne
    · rw [update_self, Store.edge?, hidx, Option.bind_some, Option.bind_some, Store.edgeAt,
        Store.edgeAt, hvids, hedges, List.getElem?_modify_eq]
      cases (Graph.rawEdges s.inner)[idx]? with
      | none => rfl
      | some e => exact seen_extendData s.vids data e
    · rw [update_of_ne hne, Store.edge?]
      cases hidx' : s.edgeCache.lookup key' with
      | none => rfl
      | some idx' =>
        -- different keys are cached at different indices, so the update is elsewhere
        have hne' : idx ≠ idx' := by
          rintro rfl
          exact hne (h.key_unique hidx hidx')
        rw [Option.bind_some, Option.bind_some, Store.edgeAt, Store.edgeAt, hvids, hedges,
          List.getElem?_modify_ne _ _ hne']

end Indexed

end Steps

end MemoryGraph
