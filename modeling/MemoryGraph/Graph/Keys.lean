import MemoryGraph.Graph.Lookup

/-!
# MemoryGraph — edge keys and pairs of vids

The key of an edge joins the two vids with the segment in between, and vids are any strings,
so two pairs can have one key: `"a"`, `"b_c"` and `"a_b"`, `"c"`. `add_edge` and
`update_edge_by_node` speak about a pair and decide by its key.

* **`Indexed.seen_unique`** — no two edges of the graph have one key;
* **`pair_kept_apart_iff`** — the two calls do what they say about a pair exactly when no edge
  of the graph joins another pair under the same key.
-/

namespace MemoryGraph

open Conc Petgraph

variable {G : Type} [Graph G NodeM EdgeM] {segment : String}

def LiveEdge.Joins (fromVid toVid : String) (l : LiveEdge) : Prop :=
  l.source = fromVid ∧ l.target = toVid

/-- petgraph's `contains_edge` on the nodes of two vids: on an undirected graph either
orientation counts. -/
def Store.HasEdge (s : Store G) (fromVid toVid : String) : Prop :=
  ∃ l, some l ∈ s.seen ∧
    (l.Joins fromVid toVid ∨ Graph.isDirected G = false ∧ l.Joins toVid fromVid)

/-- `add_edge` and `update_edge_by_node` deal with the edge between the two vids and no other. -/
structure KeepsPairApart (segment : String) (s : Store G) (fromVid toVid : String) : Prop where
  exists_iff : ∀ edge, ((Op.addEdge fromVid toVid edge).run segment s).2
    = .edgeIndex (.error (.edgeExists fromVid toVid)) ↔ s.HasEdge fromVid toVid
  adds : ∀ edge, ¬ s.HasEdge fromVid toVid → ∃ s' a b,
    (Op.addEdge fromVid toVid edge).run segment s
      = (s', .edgeIndex (.ok (Graph.rawEdges s.inner).length)) ∧
    s.vids[a]? = some fromVid ∧ s.vids[b]? = some toVid ∧
    Graph.rawNodes s'.inner = Graph.rawNodes s.inner ∧
    Graph.rawEdges s'.inner = Graph.rawEdges s.inner ++ [⟨edge, a, b⟩]
  update_iff : ∀ data, ((Op.updateEdgeByNode fromVid toVid data).run segment s).2
    = .unit (.ok ()) ↔ s.HasEdge fromVid toVid
  updates : ∀ data, s.HasEdge fromVid toVid → ∃ s' idx l,
    (Op.updateEdgeByNode fromVid toVid data).run segment s = (s', .unit (.ok ())) ∧
    s.edgeAt idx = some l ∧ l.Joins fromVid toVid ∧
    Graph.rawNodes s'.inner = Graph.rawNodes s.inner ∧
    Graph.rawEdges s'.inner = (Graph.rawEdges s.inner).modify idx (extendData data)

/-- The key of an edge is made of the vids it joins. -/
theorem LiveEdge.Joins.key_eq {l : LiveEdge} {fromVid toVid : String} (h : l.Joins fromVid toVid) :
    l.key segment = edgeKey segment fromVid toVid := by
  rw [LiveEdge.key, h.1, h.2]

/-- On a directed graph only the given orientation counts. -/
theorem Store.hasEdge_directed (hdir : Graph.isDirected G = true) {s : Store G}
    {fromVid toVid : String} :
    s.HasEdge fromVid toVid ↔ ∃ l, some l ∈ s.seen ∧ l.Joins fromVid toVid := by
  simp [Store.HasEdge, hdir]

/-- With exact caches, a key says which edge it is. -/
theorem Indexed.seen_unique {s : Store G} (h : Indexed segment s) {l l' : LiveEdge}
    (hl : some l ∈ s.seen) (hl' : some l' ∈ s.seen) (hkey : l.key segment = l'.key segment) :
    l = l' := by
  have hresolve := h.edge?_eq_some.mpr ⟨hl, hkey⟩
  rw [h.edge?_eq_some.mpr ⟨hl', rfl⟩] at hresolve
  simpa using hresolve.symm

variable {s : Store G} {fromVid toVid : String}

/-- Where no other pair has an edge under the key, the key is cached exactly when there is an
edge between the two vids. -/
theorem Indexed.cached_iff_hasEdge (h : Indexed segment s) (hdir : Graph.isDirected G = true)
    (halone : ∀ l, some l ∈ s.seen → l.key segment = edgeKey segment fromVid toVid →
      l.Joins fromVid toVid) :
    edgeKey segment fromVid toVid ∈ s.edgeCache ↔ s.HasEdge fromVid toVid := by
  rw [h.mem_edgeCache, Store.hasEdge_directed hdir]
  refine exists_congr fun l => and_congr_right fun hl => ?_
  exact ⟨halone l hl, fun hjoins => hjoins.key_eq⟩

section Laws

variable [LawfulGraph G]

/-- Between cached vids, `add_edge` replies `EdgeExists` exactly on a cached key. -/
theorem Indexed.addEdge_exists_iff (h : Indexed segment s) (hfrom : fromVid ∈ s.nodeCache)
    (hto : toVid ∈ s.nodeCache) (edge : EdgeM) :
    ((Op.addEdge fromVid toVid edge).run segment s).2
      = .edgeIndex (.error (.edgeExists fromVid toVid)) ↔
    edgeKey segment fromVid toVid ∈ s.edgeCache := by
  by_cases hkey : edgeKey segment fromVid toVid ∈ s.edgeCache
  · rw [run_addEdge, if_pos hkey]
    exact iff_of_true rfl hkey
  · obtain ⟨s', a, b, -, -, hrun, -⟩ := h.run_addEdge_fresh edge hfrom hto hkey
    rw [hrun]
    exact iff_of_false (by simp) hkey

/-- With exact caches, an edge update succeeds exactly on the cached keys. -/
theorem Indexed.updateEdgeAt_ok_iff (h : Indexed segment s) (key : String) (missing : GraphError)
    (data : Dict String) :
    ((updateEdgeAt key missing data).run s).2 = .unit (.ok ()) ↔ key ∈ s.edgeCache := by
  cases hidx : s.edgeCache.lookup key with
  | none =>
    rw [run_updateEdgeAt, hidx]
    exact iff_of_false (by simp) (Finmap.lookup_eq_none.mp hidx)
  | some idx =>
    obtain ⟨e, he⟩ := h.exists_edge hidx
    obtain ⟨s', hupdate, -⟩ := run_updateEdgeAt_cached missing data hidx he
    rw [hupdate]
    exact iff_of_true rfl (Finmap.mem_of_lookup_eq_some hidx)

/-- **A pair is kept apart exactly while no other pair has its key.** In every state that
insertions and updates reach on a directed graph, and for every two vids of nodes, `add_edge`
and `update_edge_by_node` deal with the edge between these two and no other, if and only if no
edge of the graph joins another pair of vids under the same key. -/
theorem pair_kept_apart_iff (hdir : Graph.isDirected G = true) (nodeCap edgeCap : Nat) {g : G}
    (hg : Graph.IsEmpty g) {ops : List Op} (hops : ∀ op ∈ ops, op.isRemoval = false)
    (hfrom : fromVid ∈ ((GraphInstance.new nodeCap edgeCap g).runAll ops).1.vids)
    (hto : toVid ∈ ((GraphInstance.new nodeCap edgeCap g).runAll ops).1.vids) :
    KeepsPairApart "_" ((GraphInstance.new nodeCap edgeCap g).runAll ops).1 fromVid toVid ↔
      ∀ l, some l ∈ ((GraphInstance.new nodeCap edgeCap g).runAll ops).1.seen →
        edgeKey "_" l.source l.target = edgeKey "_" fromVid toVid → l.Joins fromVid toVid := by
  have h : Indexed "_" ((GraphInstance.new nodeCap edgeCap g).runAll ops).1 :=
    (Indexed.empty hg).runAll hops
  generalize ((GraphInstance.new nodeCap edgeCap g).runAll ops).1 = s at h hfrom hto ⊢
  rw [← h.mem_nodeCache] at hfrom hto
  constructor
  · -- an edge under the key makes `add_edge` refuse the pair, so the pair must have one too
    intro hkeeps l hl hkey
    have hcached : edgeKey "_" fromVid toVid ∈ s.edgeCache := h.mem_edgeCache.mpr ⟨l, hl, hkey⟩
    have hrefused := (h.addEdge_exists_iff hfrom hto ⟨0, fromVid, toVid, ∅⟩).mpr hcached
    obtain ⟨l', hl', hjoins⟩ := (Store.hasEdge_directed hdir).mp ((hkeeps.exists_iff _).mp hrefused)
    obtain rfl : l = l' := h.seen_unique hl hl' (hkey.trans hjoins.key_eq.symm)
    exact hjoins
  · intro halone
    -- the key stands for the pair, and both calls go by the key
    have hcached := h.cached_iff_hasEdge hdir halone
    constructor
    · intro edge
      rw [h.addEdge_exists_iff hfrom hto, hcached]
    · intro edge hnone
      obtain ⟨s', a, b, ha, hb, hrun, -, -, hnodes, hedges⟩ :=
        h.run_addEdge_fresh edge hfrom hto (hcached.not.mpr hnone)
      exact ⟨s', a, b, hrun, ha, hb, hnodes, hedges⟩
    · intro data
      rw [← hcached]
      exact h.updateEdgeAt_ok_iff _ _ data
    · intro data hedge
      obtain ⟨idx, hidx⟩ := Finmap.mem_iff.mp (hcached.mpr hedge)
      obtain ⟨e, he⟩ := h.exists_edge hidx
      obtain ⟨s', hrun, -, -, hnodes, hedges⟩ := run_updateEdgeAt_cached _ data hidx he
      obtain ⟨l, hl, -, -⟩ := h.exists_seen (List.mem_of_getElem? he)
      have hat : s.edgeAt idx = some l := by rw [Store.edgeAt, he, Option.bind_some, hl]
      have hkey := h.edge.mp hidx
      rw [Store.keyAt_eq_edgeAt, hat] at hkey
      have hjoins := halone l (Store.some_mem_seen.mpr ⟨idx, hat⟩) (Option.some.inj hkey)
      exact ⟨s', idx, l, hrun, hat, hjoins, hnodes, hedges⟩

end Laws

/-- Under the key `"a_b_c"` there is only the edge of the pair. -/
theorem pair_kept_apart_single : KeepsPairApart "_" (GraphInstance.blank.runAll
    [.addNode ⟨"a", ∅⟩, .addNode ⟨"b_c", ∅⟩, .addEdge "a" "b_c" ⟨1, "a", "b_c", ∅⟩]).1
    "a" "b_c" := by
  refine (pair_kept_apart_iff rfl 0 0 ⟨rfl, rfl⟩ (by decide) ?_ ?_).mpr fun l hl _ => ?_
  · exact List.mem_cons_self
  · exact List.mem_cons_of_mem _ List.mem_cons_self
  · have hseen : some l ∈ [some (⟨"a", "b_c", ⟨1, "a", "b_c", ∅⟩⟩ : LiveEdge)] := hl
    obtain rfl : l = ⟨"a", "b_c", ⟨1, "a", "b_c", ∅⟩⟩ := by simpa using hseen
    exact ⟨rfl, rfl⟩

/-- With an edge from `"a"` to `"b_c"`, an edge from `"a_b"` to `"c"` is refused as existing. -/
theorem pair_mixed_up :
    (∀ op ∈ [Op.addNode ⟨"a", ∅⟩, .addNode ⟨"b_c", ∅⟩, .addNode ⟨"a_b", ∅⟩, .addNode ⟨"c", ∅⟩,
      .addEdge "a" "b_c" ⟨1, "a", "b_c", ∅⟩], op.isRemoval = false) ∧
    ¬ KeepsPairApart "_" (GraphInstance.blank.runAll [.addNode ⟨"a", ∅⟩, .addNode ⟨"b_c", ∅⟩,
      .addNode ⟨"a_b", ∅⟩, .addNode ⟨"c", ∅⟩, .addEdge "a" "b_c" ⟨1, "a", "b_c", ∅⟩]).1
      "a_b" "c" := by
  refine ⟨by decide, fun hkeeps => ?_⟩
  obtain ⟨l, hl, hjoins⟩ := (hkeeps.exists_iff ⟨1, "a_b", "c", ∅⟩).mp rfl
  have hseen : some l ∈ [some (⟨"a", "b_c", ⟨1, "a", "b_c", ∅⟩⟩ : LiveEdge)] := hl
  obtain rfl : l = ⟨"a", "b_c", ⟨1, "a", "b_c", ∅⟩⟩ := by simpa using hseen
  rcases hjoins with hjoins | ⟨hdir, -⟩
  · simp [LiveEdge.Joins] at hjoins
  · exact Bool.false_ne_true hdir.symm

end MemoryGraph
