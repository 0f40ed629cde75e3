import MemoryGraph.Graph.Lookup

/-!
# MemoryGraph — a graph rebuilt call by call

Any graph whose nodes have distinct vids and whose edges have distinct keys can be built on an
empty instance: an `add_node` for each node, then an `add_edge` for each edge, in index order
(`Store.rebuild`). The instance has the same nodes and edges at the same indices then, and its
caches know all of them.

* **`grown_addNodes`**, **`grown_addEdges`** — a list of nodes or of edges appended in order;
* **`knows_rebuild`** — the whole graph.
-/

namespace MemoryGraph

open Conc Petgraph

variable {G : Type} [Graph G NodeM EdgeM] {segment : String}

/-- The keys of the edges. -/
def Store.keys (segment : String) (s : Store G) : List String :=
  s.ends.filterMap (keyOf segment s.vids)

/-- An `add_edge` for each edge, between the vids of its ends. -/
def addEdges (vids : List String) (edges : List (Edge EdgeM)) : List Op :=
  edges.filterMap fun e => (seen vids e).map fun l => .addEdge l.source l.target l.weight

/-- The calls that add the nodes and the edges of a graph in index order. -/
def Store.rebuild (s : Store G) : List Op :=
  (Graph.rawNodes s.inner).map .addNode ++ addEdges s.vids (Graph.rawEdges s.inner)

theorem Indexed.mem_edgeCache_iff_keys {s : Store G} (h : Indexed segment s) {key : String} :
    key ∈ s.edgeCache ↔ key ∈ s.keys segment := by
  rw [Finmap.mem_iff, Store.keys, List.mem_filterMap]
  constructor
  · rintro ⟨idx, hidx⟩
    obtain ⟨e, he, hkey⟩ := Option.bind_eq_some_iff.mp (h.edge.mp hidx)
    exact ⟨e, List.mem_of_getElem? he, hkey⟩
  · rintro ⟨e, he, hkey⟩
    obtain ⟨idx, hidx⟩ := List.mem_iff_getElem?.mp he
    exact ⟨idx, h.edge.mpr (by rw [Store.keyAt, hidx, Option.bind_some, hkey])⟩

/-- From `s` to `s'` the graph has grown by the nodes and edges, and the caches know all of it. -/
structure Grown (segment : String) (s s' : Store G) (nodes : List NodeM)
    (edges : List (Edge EdgeM)) : Prop where
  indexed : Indexed segment s'
  nodes : Graph.rawNodes s'.inner = Graph.rawNodes s.inner ++ nodes
  edges : Graph.rawEdges s'.inner = Graph.rawEdges s.inner ++ edges

theorem Grown.trans {s s' s'' : Store G} {nodes nodes' : List NodeM}
    {edges edges' : List (Edge EdgeM)} (h : Grown segment s s' nodes edges)
    (h' : Grown segment s' s'' nodes' edges') :
    Grown segment s s'' (nodes ++ nodes') (edges ++ edges') where
  indexed := h'.indexed
  nodes := by rw [h'.nodes, h.nodes, List.append_assoc]
  edges := by rw [h'.edges, h.edges, List.append_assoc]

theorem Grown.vids {s s' : Store G} {nodes : List NodeM} {edges : List (Edge EdgeM)}
    (h : Grown segment s s' nodes edges) : s'.vids = s.vids ++ nodes.map NodeM.vid := by
  rw [Store.vids, h.nodes, List.map_append, Store.vids]

section Rebuild

variable [LawfulGraph G] {s : Store G}

/-- A fresh vid is a node more. -/
theorem grown_addNode (h : Indexed segment s) {node : NodeM} (hfresh : node.vid ∉ s.vids) :
    Grown segment s ((Op.addNode node).run segment s).1 [node] [] := by
  refine ⟨h.step rfl, ?_, ?_⟩ <;> rw [run_addNode, if_neg (h.mem_nodeCache.not.mpr hfresh)]
  · exact LawfulGraph.rawNodes_addNode ..
  · rw [List.append_nil]
    exact LawfulGraph.rawEdges_addNode ..

/-- Nodes with new and distinct vids are appended in order. -/
theorem grown_addNodes (h : Indexed segment s) {nodes : List NodeM}
    (hnodup : (s.vids ++ nodes.map NodeM.vid).Nodup) :
    Grown segment s (runAll segment (nodes.map .addNode) s).1 nodes [] := by
  induction nodes generalizing s with
  | nil => exact ⟨h, (List.append_nil _).symm, (List.append_nil _).symm⟩
  | cons node nodes ih =>
    have hfresh : node.vid ∉ s.vids := fun hmem =>
      (List.nodup_append.mp hnodup).2.2 _ hmem _ List.mem_cons_self rfl
    have hstep := grown_addNode h hfresh
    refine hstep.trans (ih hstep.indexed ?_)
    rw [hstep.vids, List.append_assoc]
    exact hnodup

/-- An edge between vids of the graph, under a fresh key, is an edge more, with the ends it has in
the graph it is taken from. -/
theorem grown_addEdge (h : Indexed segment s) {e : Edge EdgeM} {l : LiveEdge}
    (hseen : seen s.vids e = some l) (hfresh : l.key segment ∉ s.keys segment) :
    Grown segment s ((Op.addEdge l.source l.target l.weight).run segment s).1 [] [e] := by
  obtain ⟨hsource, htarget, hweight⟩ := link?_eq_some.mp hseen
  obtain ⟨hfrom, hto⟩ := mem_of_seen hseen
  obtain ⟨s', a, b, ha, hb, hrun, -, -, hnodes, hedges⟩ :=
    h.run_addEdge_fresh l.weight (h.mem_nodeCache.mpr hfrom) (h.mem_nodeCache.mpr hto)
      (h.mem_edgeCache_iff_keys.not.mpr hfresh)
  -- a vid has one index, the one that the edge has at its end
  have hindex : ∀ {vid} {i j : Nat}, s.vids[i]? = some vid → s.vids[j]? = some vid → i = j := by
    intro vid i j hi hj
    exact Option.some.inj ((h.node.mpr hi).symm.trans (h.node.mpr hj))
  obtain rfl : a = e.source := hindex ha hsource
  obtain rfl : b = e.target := hindex hb htarget
  refine ⟨h.step rfl, ?_, ?_⟩ <;> rw [hrun]
  · rw [hnodes, List.append_nil]
  · rw [hedges, ← hweight]

omit [LawfulGraph G] in
theorem Grown.keys {s s' : Store G} {edges : List (Edge EdgeM)} (h : Grown segment s s' [] edges) :
    s'.keys segment = s.keys segment ++
      edges.filterMap fun e => keyOf segment s.vids (e.source, e.target) := by
  have hvids : s'.vids = s.vids := by simpa using h.vids
  rw [Store.keys, Store.ends, h.edges, hvids, List.map_append, List.filterMap_append,
    List.filterMap_map (l := edges)]
  rfl

/-- Edges with new and distinct keys are appended in order. -/
theorem grown_addEdges (h : Indexed segment s) {edges : List (Edge EdgeM)}
    (hends : ∀ e ∈ edges, e.source < s.vids.length ∧ e.target < s.vids.length)
    (hnodup : (s.keys segment ++
      edges.filterMap fun e => keyOf segment s.vids (e.source, e.target)).Nodup) :
    Grown segment s (runAll segment (addEdges s.vids edges) s).1 [] edges := by
  induction edges generalizing s with
  | nil => exact ⟨h, (List.append_nil _).symm, (List.append_nil _).symm⟩
  | cons e edges ih =>
    obtain ⟨h₁, h₂⟩ := hends e List.mem_cons_self
    obtain ⟨l, hseen⟩ : ∃ l : LiveEdge, seen s.vids e = some l := link?_isSome h₁ h₂
    have hkey : keyOf segment s.vids (e.source, e.target) = some (l.key segment) := by
      rw [keyOf_eq_seen, hseen, Option.map_some]
    have hkeys : (e :: edges).filterMap (fun e => keyOf segment s.vids (e.source, e.target))
        = l.key segment :: edges.filterMap fun e => keyOf segment s.vids (e.source, e.target) :=
      List.filterMap_cons_some hkey
    rw [hkeys] at hnodup
    -- the key is not among those in front of it, so the edge is accepted
    have hfresh : l.key segment ∉ s.keys segment := fun hmem =>
      (List.nodup_append.mp hnodup).2.2 _ hmem _ List.mem_cons_self rfl
    have hstep := grown_addEdge h hseen hfresh
    have hvids : ((Op.addEdge l.source l.target l.weight).run segment s).1.vids = s.vids := by
      simpa using hstep.vids
    have hcalls : addEdges s.vids (e :: edges)
        = .addEdge l.source l.target l.weight :: addEdges s.vids edges :=
      List.filterMap_cons_some (by rw [hseen, Option.map_some])
    rw [hcalls, ← hvids]
    refine hstep.trans (ih hstep.indexed ?_ ?_)
    · rw [hvids]
      exact fun e' he' => hends e' (List.mem_cons_of_mem e he')
    · rw [hstep.keys, hvids, List.append_assoc]
      simpa [hkey] using hnodup

/-- The instance has the graph `g`, and its caches know all of it. -/
structure Knows (segment : String) (r : Store G) (g : G) : Prop where
  indexed : Indexed segment r
  nodes : Graph.rawNodes r.inner = Graph.rawNodes g
  edges : Graph.rawEdges r.inner = Graph.rawEdges g

omit [LawfulGraph G] in
/-- The instance that has been built knows the vids of the graph. -/
theorem Knows.mem_nodeCache {r : Store G} {g : G} (h : Knows segment r g) (vid : String) :
    vid ∈ r.nodeCache ↔ vid ∈ (⟨g, ∅, ∅⟩ : Store G).vids := by
  rw [h.indexed.mem_nodeCache, Store.vids, Store.vids, h.nodes]

omit [LawfulGraph G] in
theorem Knows.mem_edgeCache {r : Store G} {g : G} (h : Knows segment r g) (key : String) :
    key ∈ r.edgeCache ↔ key ∈ (⟨g, ∅, ∅⟩ : Store G).keys segment := by
  rw [h.indexed.mem_edgeCache_iff_keys, Store.keys, Store.keys, Store.ends, Store.ends, Store.vids,
    Store.vids, h.nodes, h.edges]

/-- The rebuilt instance has the nodes and edges of the graph at the same indices, and knows
them. -/
theorem knows_rebuild {g g₀ : G} (hg₀ : Graph.IsEmpty g₀)
    (hvids : (⟨g, ∅, ∅⟩ : Store G).vids.Nodup) (hkeys : ((⟨g, ∅, ∅⟩ : Store G).keys segment).Nodup)
    (hends : ∀ e ∈ Graph.rawEdges g,
      e.source < (Graph.rawNodes g).length ∧ e.target < (Graph.rawNodes g).length) :
    Knows segment (runAll segment (⟨g, ∅, ∅⟩ : Store G).rebuild ⟨g₀, ∅, ∅⟩).1 g := by
  have hnone : (⟨g₀, ∅, ∅⟩ : Store G).vids = [] := by simp [Store.vids, hg₀.1]
  have hnodes : Grown segment (⟨g₀, ∅, ∅⟩ : Store G) _ (Graph.rawNodes g) [] :=
    grown_addNodes (.empty hg₀) (by rwa [hnone])
  rw [Store.rebuild, runAll_append]
  generalize (runAll segment ((Graph.rawNodes g).map .addNode) ⟨g₀, ∅, ∅⟩).1 = s at hnodes ⊢
  -- nodes first, so the edges find the same vids as in the graph
  have hsame : s.vids = (⟨g, ∅, ∅⟩ : Store G).vids := by rw [hnodes.vids, hnone]; rfl
  have hkeyless : s.keys segment = [] := by simp [Store.keys, Store.ends, hnodes.edges, hg₀.2]
  have hedges : Grown segment s (runAll segment (addEdges s.vids (Graph.rawEdges g)) s).1 []
      (Graph.rawEdges g) := by
    refine grown_addEdges hnodes.indexed (fun e he => ?_) ?_
    · rw [hsame, Store.vids, List.length_map]
      exact hends e he
    · rw [hkeyless, List.nil_append, hsame]
      simpa [Store.keys, Store.ends, List.filterMap_map] using hkeys
  rw [← hsame]
  have hall := hnodes.trans hedges
  exact ⟨hall.indexed, by simpa [hg₀.1] using hall.nodes, by simpa [hg₀.2] using hall.edges⟩

end Rebuild

end MemoryGraph
