import MemoryGraph.Graph.Caches

/-!
# MemoryGraph — the caches as indices of the graph

Two invariants of the store, each derived from `Change`.

* **`Indexed`** — `node_cache` and `edge_cache` describe the node and the edge array position
  by position. Insertions and updates keep it (`Indexed.step`); a removal breaks it, since it
  moves the last element and leaves the caches as they are.
* **`Distinct`** — no two nodes share a vid, and every vid in the graph is a key of
  `node_cache`. It is what remains of `Indexed` under removals, and every operation keeps it
  (`Distinct.step`).

Both speak of the vids and the endpoints only, so the store is first reduced to those.
-/

namespace MemoryGraph

open Conc Petgraph

variable {G : Type} [Graph G NodeM EdgeM] {segment : String}

/-! ## Vids and endpoints -/

def Store.vids (s : Store G) : List String := (Graph.rawNodes s.inner).map NodeM.vid

def Store.ends (s : Store G) : List (Nat × Nat) :=
  (Graph.rawEdges s.inner).map fun e => (e.source, e.target)

/-- The edge key of a pair of nodes, when both are there. -/
def keyOf (segment : String) (vids : List String) (e : Nat × Nat) : Option String :=
  vids[e.1]?.bind fun fromVid => vids[e.2]?.map fun toVid => edgeKey segment fromVid toVid

def Store.keyAt (segment : String) (s : Store G) (idx : Nat) : Option String :=
  s.ends[idx]?.bind (keyOf segment s.vids)

theorem Store.vids_getElem? {s : Store G} {idx : Nat} {vid : String} :
    s.vids[idx]? = some vid ↔
      ∃ node, (Graph.rawNodes s.inner)[idx]? = some node ∧ node.vid = vid := by
  simp [Store.vids]

/-- The key at an index is made of the vids of the ends of the edge there. -/
theorem Store.keyAt_eq_some {s : Store G} {idx : Nat} {key : String} :
    s.keyAt segment idx = some key ↔ ∃ e a b, (Graph.rawEdges s.inner)[idx]? = some e ∧
      (Graph.rawNodes s.inner)[e.source]? = some a ∧ (Graph.rawNodes s.inner)[e.target]? = some b ∧
      key = edgeKey segment a.vid b.vid := by
  simp only [Store.keyAt, Store.ends, keyOf, Store.vids, List.getElem?_map, Option.bind_eq_some_iff,
    Option.map_eq_some_iff]
  constructor
  · rintro ⟨-, ⟨e, he, rfl⟩, -, ⟨a, ha, rfl⟩, -, ⟨b, hb, rfl⟩, rfl⟩
    exact ⟨e, a, b, he, ha, hb, rfl⟩
  · rintro ⟨e, a, b, he, ha, hb, rfl⟩
    exact ⟨_, ⟨e, he, rfl⟩, _, ⟨a, ha, rfl⟩, _, ⟨b, hb, rfl⟩, rfl⟩

/-- A node more does not change the key of endpoints that are in range. -/
theorem keyOf_append {vids : List String} {e : Nat × Nat} (h₁ : e.1 < vids.length)
    (h₂ : e.2 < vids.length) (vid : String) :
    keyOf segment (vids ++ [vid]) e = keyOf segment vids e := by
  simp [keyOf, List.getElem?_append_left h₁, List.getElem?_append_left h₂]

section Laws

variable [LawfulGraph G] {s : Store G}

/-- Writing through the borrow of a node keeps the vids, if the node written has the vid of the one
read. -/
theorem vids_nodeWeightMut {idx : Nat} {node node' : NodeM} {put : NodeM → G}
    (hborrow : Graph.nodeWeightMut s.inner idx = some (node, put)) (hvid : node'.vid = node.vid) :
    ({ s with inner := put node' } : Store G).vids = s.vids := by
  have hnode := LawfulGraph.nodeWeightMut_eq_some hborrow
  obtain ⟨hidx, rfl⟩ := List.getElem?_eq_some_iff.mp hnode
  simp only [Store.vids, LawfulGraph.rawNodes_nodeWeightMut hborrow, List.map_set, hvid]
  rw [← List.getElem_map NodeM.vid (h := by simpa using hidx)]
  exact List.set_getElem_self _

theorem ends_nodeWeightMut {idx : Nat} {node : NodeM} {put : NodeM → G}
    (hborrow : Graph.nodeWeightMut s.inner idx = some (node, put)) (node' : NodeM) :
    ({ s with inner := put node' } : Store G).ends = s.ends := by
  simp [Store.ends, LawfulGraph.rawEdges_nodeWeightMut hborrow]

theorem vids_edgeWeightMut {idx : Nat} {edge : EdgeM} {put : EdgeM → G}
    (hborrow : Graph.edgeWeightMut s.inner idx = some (edge, put)) (edge' : EdgeM) :
    ({ s with inner := put edge' } : Store G).vids = s.vids := by
  simp [Store.vids, LawfulGraph.rawNodes_edgeWeightMut hborrow]

/-- The ends of an edge are no part of its weight, so they stay. -/
theorem ends_edgeWeightMut {idx : Nat} {edge : EdgeM} {put : EdgeM → G}
    (hborrow : Graph.edgeWeightMut s.inner idx = some (edge, put)) (edge' : EdgeM) :
    ({ s with inner := put edge' } : Store G).ends = s.ends := by
  simp only [Store.ends, LawfulGraph.rawEdges_edgeWeightMut hborrow]
  refine List.ext_getElem? fun i => ?_
  simp only [List.getElem?_map, List.getElem?_modify]
  cases (Graph.rawEdges s.inner)[i]? with
  | none => rfl
  | some e => by_cases hi : idx = i <;> simp [hi]

end Laws

/-! ## Positions -/

/-- The caches describe the two arrays position by position. -/
structure Indexed (segment : String) (s : Store G) : Prop where
  node : ∀ {vid idx}, s.nodeCache.lookup vid = some idx ↔ s.vids[idx]? = some vid
  edge : ∀ {key idx}, s.edgeCache.lookup key = some idx ↔ s.keyAt segment idx = some key
  endpoints : ∀ e ∈ s.ends, e.1 < s.vids.length ∧ e.2 < s.vids.length

namespace Indexed

theorem empty {g : G} (h : Graph.IsEmpty g) : Indexed segment (⟨g, ∅, ∅⟩ : Store G) := by
  have hvids : (⟨g, ∅, ∅⟩ : Store G).vids = [] := by simp [Store.vids, h.1]
  have hends : (⟨g, ∅, ∅⟩ : Store G).ends = [] := by simp [Store.ends, h.2]
  constructor <;> simp [Store.keyAt, hvids, hends]

/-- Only the caches, the vids and the endpoints matter. -/
theorem congr {s s' : Store G} (h : Indexed segment s) (hnode : s'.nodeCache = s.nodeCache)
    (hedge : s'.edgeCache = s.edgeCache) (hvids : s'.vids = s.vids) (hends : s'.ends = s.ends) :
    Indexed segment s' where
  node := by rw [hnode, hvids]; exact h.node
  edge := by simp only [Store.keyAt, hedge, hvids, hends]; exact h.edge
  endpoints := by rw [hends, hvids]; exact h.endpoints

/-- A fresh vid goes to the end of the node array and to `node_cache`. -/
theorem append_node {s s' : Store G} (h : Indexed segment s) {vid : String}
    (hfresh : vid ∉ s.nodeCache) (hvids : s'.vids = s.vids ++ [vid]) (hends : s'.ends = s.ends)
    (hnode : s'.nodeCache = s.nodeCache.insert vid s.vids.length)
    (hedge : s'.edgeCache = s.edgeCache) : Indexed segment s' where
  node {vid' idx} := by
    rw [hnode, hvids]
    rcases eq_or_ne vid' vid with rfl | hne
    · -- the vid is at no old position, or the cache would have it
      have hold : ∀ i, s.vids[i]? ≠ some vid' := fun i hi =>
        hfresh (Finmap.mem_iff.mpr ⟨i, h.node.mpr hi⟩)
      rw [Finmap.lookup_insert, List.getElem?_append]
      split
      · have := hold idx
        simp_all
        omega
      · rw [List.getElem?_singleton]
        simp only [Option.some.injEq]
        split <;> simp <;> omega
    -- another vid is where it was
    · rw [Finmap.lookup_insert_of_ne _ hne, h.node, List.getElem?_append]
      split
      · rfl
      · rw [List.getElem?_eq_none (by omega), List.getElem?_singleton]
        split <;> simp [Ne.symm hne]
  edge {key idx} := by
    rw [hedge, h.edge, Store.keyAt, Store.keyAt, hends, hvids]
    -- ends that were in range name the same vids in the longer list
    cases hidx : s.ends[idx]? with
    | none => rfl
    | some e =>
      obtain ⟨h₁, h₂⟩ := h.endpoints e (List.mem_of_getElem? hidx)
      rw [Option.bind_some, Option.bind_some, keyOf_append h₁ h₂]
  endpoints e he := by
    rw [hends] at he
    have := h.endpoints e he
    rw [hvids, List.length_append]
    exact ⟨by omega, by omega⟩

/-- An edge under a fresh key goes to the end of the edge array and to `edge_cache`. -/
theorem append_edge {s s' : Store G} (h : Indexed segment s) {key : String}
    {e : Nat × Nat} (hfresh : key ∉ s.edgeCache)
    (hkey : keyOf segment s.vids e = some key) (h₁ : e.1 < s.vids.length) (h₂ : e.2 < s.vids.length)
    (hvids : s'.vids = s.vids) (hends : s'.ends = s.ends ++ [e])
    (hnode : s'.nodeCache = s.nodeCache)
    (hedge : s'.edgeCache = s.edgeCache.insert key s.ends.length) : Indexed segment s' where
  node := by rw [hnode, hvids]; exact h.node
  edge {key' idx} := by
    rw [hedge, Store.keyAt, hends, hvids, List.getElem?_append]
    rcases eq_or_ne key' key with rfl | hne
    -- as with the vids: the key is at no old position, or the cache would have it
    · have hold : ∀ i, s.keyAt segment i ≠ some key' := fun i hi =>
        hfresh (Finmap.mem_iff.mpr ⟨i, h.edge.mpr hi⟩)
      rw [Finmap.lookup_insert]
      split
      · have := hold idx
        rw [Store.keyAt] at this
        simp only [this, Option.some.injEq, iff_false]
        omega
      · rw [List.getElem?_singleton]
        split
        · simp only [Option.bind_some, hkey, iff_true, Option.some.injEq]
          omega
        · simp only [Option.bind_none, Option.some.injEq, reduceCtorEq, iff_false]
          omega
    · rw [Finmap.lookup_insert_of_ne _ hne, h.edge, Store.keyAt]
      split
      · rfl
      · rw [List.getElem?_eq_none (by omega), List.getElem?_singleton]
        split <;> simp [hkey, Ne.symm hne]
  endpoints e' he' := by
    rw [hends] at he'
    rw [hvids]
    rcases List.mem_append.mp he' with he' | he'
    · exact h.endpoints e' he'
    · obtain rfl : e' = e := by simpa using he'
      exact ⟨h₁, h₂⟩

end Indexed

def Op.isRemoval : Op → Bool
  | .removeNode _ | .removeEdge _ | .removeEdgeByNode _ _ => true
  | _ => false

theorem Op.isRemoval_of_edgeRemoval? {op : Op} {key : String}
    (h : op.edgeRemoval? segment = some key) : op.isRemoval = true := by
  cases op <;> simp_all [Op.edgeRemoval?, Op.isRemoval]

section Steps

variable [LawfulGraph G]

/-- Insertions and updates keep the caches in position. -/
theorem Indexed.change {s s' : Store G} {op : Op} (h : Indexed segment s)
    (hop : op.isRemoval = false) (hchange : Change segment s op s') : Indexed segment s' := by
  cases hchange with
  | same => exact h
  | @nodeAdded node _ hfresh =>
    refine h.append_node hfresh ?_ ?_ ?_ rfl
    · simp [Store.vids, LawfulGraph.rawNodes_addNode]
    · simp [Store.ends, LawfulGraph.rawEdges_addNode]
    · simp [Store.vids, LawfulGraph.addNode_index]
  | nodeUpdated _ _ hborrow =>
    exact h.congr rfl rfl (vids_nodeWeightMut hborrow rfl) (ends_nodeWeightMut hborrow _)
  | nodeRemoved hrem _ => simp [hrem, Op.isRemoval] at hop
  | @edgeAdded fromVid toVid edge a b index graph _ hfresh hfrom hto hadd =>
    obtain ⟨ha, hb, rfl, hnodes, hedges⟩ := LawfulGraph.addEdge_eq_some hadd
    -- the cached indices are exact, so the new edge joins the two vids the call named
    have hkey : keyOf segment s.vids (a, b) = some (edgeKey segment fromVid toVid) := by
      simp [keyOf, h.node.mp hfrom, h.node.mp hto]
    refine h.append_edge hfresh hkey ?_ ?_ ?_ ?_ rfl ?_
    · simpa [Store.vids] using ha
    · simpa [Store.vids] using hb
    · simp [Store.vids, hnodes]
    · simp [Store.ends, hedges]
    · simp [Store.ends]
  | edgeUpdated _ _ hborrow =>
    exact h.congr rfl rfl (vids_edgeWeightMut hborrow _) (ends_edgeWeightMut hborrow _)
  | edgeRemoved hrem _ => simp [Op.isRemoval_of_edgeRemoval? hrem] at hop

/-- Insertions, lookups and updates keep the caches exact. -/
theorem Indexed.step {s : Store G} {op : Op} (h : Indexed segment s) (hop : op.isRemoval = false) :
    Indexed segment (op.run segment s).1 := h.change hop (run_change op s)

theorem Indexed.runAll {ops : List Op} {s : Store G} (h : Indexed segment s)
    (hops : ∀ op ∈ ops, op.isRemoval = false) : Indexed segment (runAll segment ops s).1 :=
  runAll_induction h fun op hop _ hs' => hs'.step (hops op hop)

end Steps

/-! ## What positions give -/

/-- A list whose elements know their position has no repetition. -/
theorem nodup_of_getElem? {keys : List String} {m : Dict Nat}
    (hget : ∀ {key idx}, keys[idx]? = some key ↔ m.lookup key = some idx) : keys.Nodup := by
  refine List.nodup_iff_getElem?_ne_getElem?.mpr fun i j hij hj heq => ?_
  have hkey : keys[j]? = some keys[j] := List.getElem?_eq_getElem hj
  have hi := hget.mp (heq.trans hkey)
  rw [hget.mp hkey] at hi
  simp only [Option.some.injEq] at hi
  omega

/-- Where keys and indices determine each other, an index has one key or none. -/
theorem existsUnique_lookup_iff {m : Dict Nat} {keyAt : Nat → Option String}
    (hat : ∀ {key idx}, m.lookup key = some idx ↔ keyAt idx = some key) (idx : Nat) :
    (∃! key, m.lookup key = some idx) ↔ (keyAt idx).isSome := by
  rw [Option.isSome_iff_exists]
  constructor
  · rintro ⟨key, hkey, -⟩
    exact ⟨key, hat.mp hkey⟩
  · rintro ⟨key, hkey⟩
    refine ⟨key, hat.mpr hkey, fun key' hkey' => ?_⟩
    have hsame := hat.mp hkey'
    rw [hkey] at hsame
    exact (Option.some.inj hsame).symm

/-- Two nodes with one vid would have two indices cached under it. -/
theorem Indexed.vids_nodup {s : Store G} (h : Indexed segment s) : s.vids.Nodup :=
  nodup_of_getElem? h.node.symm

/-- The cached node indices are in range. -/
def NodesInRange (s : Store G) : Prop :=
  ∀ vid idx, s.nodeCache.lookup vid = some idx → idx < (Graph.rawNodes s.inner).length

/-- With exact caches, a cached node index is that of a node. -/
theorem Indexed.nodesInRange {s : Store G} (h : Indexed segment s) : NodesInRange s := by
  intro vid idx hidx
  obtain ⟨node, hnode, -⟩ := Store.vids_getElem?.mp (h.node.mp hidx)
  exact (List.getElem?_eq_some_iff.mp hnode).1

/-- With exact caches, the ends of every edge are in range, so every edge has a key. -/
theorem Indexed.exists_key {s : Store G} (h : Indexed segment s) {idx : Nat}
    (hidx : idx < s.ends.length) : ∃ key, s.keyAt segment idx = some key := by
  obtain ⟨h₁, h₂⟩ := h.endpoints _ (List.getElem_mem hidx)
  simp [Store.keyAt, keyOf, List.getElem?_eq_getElem hidx, List.getElem?_eq_getElem h₁,
    List.getElem?_eq_getElem h₂]

/-- The indices in range are those with a vid. -/
theorem Indexed.existsUnique_vid {s : Store G} (h : Indexed segment s) (idx : Nat) :
    (∃! vid, s.nodeCache.lookup vid = some idx) ↔ idx < s.vids.length := by
  rw [existsUnique_lookup_iff h.node]
  simp

/-- Each edge index is cached under one key, and no other index is cached. -/
theorem Indexed.existsUnique_key {s : Store G} (h : Indexed segment s) (idx : Nat) :
    (∃! key, s.edgeCache.lookup key = some idx) ↔ idx < s.ends.length := by
  rw [existsUnique_lookup_iff h.edge, Option.isSome_iff_exists]
  constructor
  · rintro ⟨key, hkey⟩
    obtain ⟨e, he, -⟩ := Option.bind_eq_some_iff.mp hkey
    exact (List.getElem?_eq_some_iff.mp he).1
  · exact h.exists_key

/-- Two edges with the same ends would have the same key. -/
theorem Indexed.ends_nodup {s : Store G} (h : Indexed segment s) : s.ends.Nodup := by
  refine List.nodup_iff_getElem?_ne_getElem?.mpr fun i j hij hj heq => ?_
  obtain ⟨key, hkey⟩ := h.exists_key (show i < s.ends.length by omega)
  have hkey' : s.keyAt segment j = some key := by rw [← hkey, Store.keyAt, Store.keyAt, heq]
  have hfst := h.edge.mpr hkey
  have hsnd := h.edge.mpr hkey'
  rw [hfst] at hsnd
  simp only [Option.some.injEq] at hsnd
  omega

/-! ## What removals leave -/

/-- No two nodes share a vid, and every vid in the graph is a key of `node_cache`. -/
structure Distinct (s : Store G) : Prop where
  nodup : s.vids.Nodup
  cached : ∀ vid ∈ s.vids, vid ∈ s.nodeCache

namespace Distinct

theorem empty {g : G} (h : Graph.IsEmpty g) : Distinct (⟨g, ∅, ∅⟩ : Store G) := by
  constructor <;> simp [Store.vids, h.1]

theorem congr {s s' : Store G} (h : Distinct s) (hvids : s'.vids = s.vids)
    (hnode : s'.nodeCache = s.nodeCache) : Distinct s' :=
  ⟨hvids ▸ h.nodup, hnode ▸ hvids ▸ h.cached⟩

variable [LawfulGraph G]

/-- Every operation keeps the vids distinct: a vid enters the graph only while `node_cache`
does not have it, and `node_cache` never lets go of a vid. -/
theorem change {s s' : Store G} {op : Op} (h : Distinct s) (hchange : Change segment s op s') :
    Distinct s' := by
  cases hchange with
  | same => exact h
  | @nodeAdded node _ hfresh =>
    have hvids : (Graph.rawNodes (Graph.addNode s.inner node).2).map NodeM.vid
        = s.vids ++ [node.vid] := by
      simp [Store.vids, LawfulGraph.rawNodes_addNode]
    constructor
    -- a vid that is not cached is in no node, not even in one whose index is stale
    · rw [Store.vids, hvids, ← List.concat_eq_append, List.nodup_concat]
      exact ⟨fun hmem => hfresh (h.cached _ hmem), h.nodup⟩
    · intro vid hvid
      rw [Store.vids, hvids] at hvid
      rcases List.mem_append.mp hvid with hold | hnew
      · exact Finmap.mem_insert.mpr (Or.inr (h.cached vid hold))
      · exact Finmap.mem_insert.mpr (Or.inl (by simpa using hnew))
  | nodeUpdated _ _ hborrow => exact h.congr (vids_nodeWeightMut hborrow rfl) rfl
  | @nodeRemoved vid idx _ _ =>
    rcases Nat.lt_or_ge idx (Graph.rawNodes s.inner).length with hlt | hge
    · have hnodes := LawfulGraph.rawNodes_removeNode hlt
      constructor
      · rw [Store.vids, hnodes]
        exact nodup_map_swapRemove hlt h.nodup
      · intro vid' hvid'
        rw [Store.vids, hnodes] at hvid'
        obtain ⟨node, hnode, rfl⟩ := List.mem_map.mp hvid'
        exact h.cached _ (List.mem_map_of_mem (mem_of_mem_swapRemove hlt hnode))
    · rw [LawfulGraph.removeNode_out_of_range hge]
      exact h
  | edgeAdded _ _ _ _ hadd =>
    obtain ⟨-, -, -, hnodes, -⟩ := LawfulGraph.addEdge_eq_some hadd
    exact h.congr (by simp [Store.vids, hnodes]) rfl
  | edgeUpdated _ _ hborrow => exact h.congr (vids_edgeWeightMut hborrow _) rfl
  | edgeRemoved _ _ => exact h.congr (by simp [Store.vids, LawfulGraph.rawNodes_removeEdge]) rfl

/-- `add_node` adds no vid that is cached, and nothing else adds any; a removal takes vids out of
the graph and none out of the cache. -/
theorem step {s : Store G} (h : Distinct s) (op : Op) : Distinct (op.run segment s).1 :=
  h.change (run_change op s)

theorem runAll {s : Store G} (h : Distinct s) (ops : List Op) :
    Distinct (runAll segment ops s).1 :=
  runAll_induction h fun op _ _ hs' => hs'.step op

end Distinct

end MemoryGraph
