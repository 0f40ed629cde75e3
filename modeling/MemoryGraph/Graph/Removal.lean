import MemoryGraph.Graph.Lookup

/-!
# MemoryGraph — what a node removal leaves behind

`remove_node` takes the node and its incident edges out of the graph and changes neither
cache. Two questions follow.

* **`removeNode_keeps_edges_iff`** — do the edge keys still mean what they meant? Only when
  the node has no incident edge: then no edge moves, and every key resolves to the edge it did.
* **`addEdge_safe_iff`** — is a later `add_edge` safe? Only when it is refused, or when the two
  cached indices still hold the nodes they were cached for.
-/

namespace MemoryGraph

open Conc Petgraph

variable {G : Type} [Graph G NodeM EdgeM] {segment : String}

/-! ## Edge keys after `remove_node` -/

/-- In `s`, the key means exactly the edge `l`: every update of the key succeeds, and changes
the data of that edge and nothing else in the graph. -/
def Store.Means (segment : String) (s : Store G) (key : String) (l : LiveEdge) : Prop :=
  s.edge? key = some l ∧
  ∀ (op : Op) (data : Dict String), op.edgeUpdate? segment = some (key, data) →
    (op.run segment s).2 = .unit (.ok ()) ∧
    Graph.rawNodes (op.run segment s).1.inner = Graph.rawNodes s.inner ∧
    ∃ idx, s.edgeAt idx = some l ∧
      Graph.rawEdges (op.run segment s).1.inner
        = (Graph.rawEdges s.inner).modify idx (extendData data)

/-- In `s`, the key means nothing: every update of it replies `EdgeNotFound`, every removal
replies `false`, and neither changes an edge. -/
def Store.Lacks (segment : String) (s : Store G) (key : String) : Prop :=
  (∀ (op : Op) (data : Dict String), op.edgeUpdate? segment = some (key, data) →
    (∃ missing, (op.run segment s).2 = .unit (.error (.edgeNotFound missing))) ∧
    Graph.rawEdges (op.run segment s).1.inner = Graph.rawEdges s.inner) ∧
  ∀ op : Op, op.edgeRemoval? segment = some key →
    (op.run segment s).2 = .flag false ∧
    Graph.rawEdges (op.run segment s).1.inner = Graph.rawEdges s.inner

/-- After `remove_node`, the key of every edge that was not incident to the node means that
edge, and the key of every edge that was means nothing. -/
def KeepsEdgeKeys (segment : String) (s : Store G) (vid : String) : Prop :=
  ∀ key l, s.edge? key = some l →
    (¬ l.Incident vid → Store.Means segment ((Op.removeNode vid).run segment s).1 key l) ∧
    (l.Incident vid → Store.Lacks segment ((Op.removeNode vid).run segment s).1 key)

section Laws

variable [LawfulGraph G] {s : Store G}

/-- An update of a key reaches the edge that the key resolves to, and succeeds. -/
theorem Store.means_of_edge? {key : String} {l : LiveEdge} (h : s.edge? key = some l) :
    Store.Means segment s key l := by
  refine ⟨h, fun op data hop => ?_⟩
  obtain ⟨idx, hidx, hat⟩ := Option.bind_eq_some_iff.mp h
  obtain ⟨e, he, -⟩ := Option.bind_eq_some_iff.mp hat
  obtain ⟨missing, hrun⟩ := run_of_edgeUpdate? (G := G) hop
  obtain ⟨s', hupdate, -, -, hnodes, hedges⟩ :=
    run_updateEdgeAt_cached (.edgeNotFound missing) data hidx he
  rw [hrun, hupdate]
  exact ⟨rfl, hnodes, idx, hat, hedges⟩

omit [LawfulGraph G] in
/-- Where no edge is incident to the vid, none is incident to its index. -/
theorem Indexed.not_incident (h : Indexed segment s) {vid : String} {a : Nat}
    (ha : s.vids[a]? = some vid) (hnone : ∀ l, some l ∈ s.seen → ¬ l.Incident vid) :
    ∀ e ∈ Graph.rawEdges s.inner, ¬ e.Incident a := by
  intro e he hincident
  obtain ⟨l, hl, hfrom, hto⟩ := h.exists_seen he
  refine hnone l (List.mem_map.mpr ⟨e, he, hl⟩) ?_
  rcases hincident with rfl | rfl
  · exact Or.inl (by simpa [ha] using hfrom.symm)
  · exact Or.inr (by simpa [ha] using hto.symm)

/-- Where no edge of the graph is incident to the node, its removal moves no edge, and every
edge keeps its ends. -/
theorem Indexed.edge?_removeNode (h : Indexed segment s) {vid : String}
    (hnone : ∀ l, some l ∈ s.seen → ¬ l.Incident vid) :
    ((Op.removeNode vid).run segment s).1.edge? = s.edge? := by
  rw [run_removeNode]
  cases ha : s.nodeCache.lookup vid with
  | none => rfl
  | some a =>
    have hat : s.vids[a]? = some vid := h.node.mp ha
    have hlen : (Graph.rawNodes s.inner).length = s.vids.length := by simp [Store.vids]
    have hlt : a < s.vids.length := (List.getElem?_eq_some_iff.mp hat).1
    have hnot := h.not_incident hat hnone
    obtain ⟨es, hdrops, hedges⟩ := LawfulGraph.rawEdges_removeNode (hlen ▸ hlt)
    rw [hdrops.eq_of_none hnot, hlen] at hedges
    have hvids : ({ s with inner := (Graph.removeNode s.inner a).2 } : Store G).vids
        = swapRemove s.vids a := by
      rw [Store.vids, LawfulGraph.rawNodes_removeNode (hlen ▸ hlt), map_swapRemove, Store.vids]
    refine Store.edge?_of_edgeAt rfl fun idx => ?_
    rw [Store.edgeAt, hvids, hedges, List.getElem?_map, Store.edgeAt]
    cases he : (Graph.rawEdges s.inner)[idx]? with
    | none => rfl
    | some e =>
      have hmem := List.mem_of_getElem? he
      obtain ⟨h₁, h₂⟩ := h.endpoints (e.source, e.target) (List.mem_map.mpr ⟨e, hmem, rfl⟩)
      -- each end is found again where the last node moved
      exact link?_renumber hlt (hnot e hmem) h₁ h₂

/-- **Edge keys survive exactly the removal of isolated nodes.** In every state that
insertions and updates reach, and for every vid, `remove_node` leaves every other edge key
with its meaning and the keys of the incident edges without one, if and only if no edge of the
graph is incident to the node. -/
theorem removeNode_keeps_edges_iff (nodeCap edgeCap : Nat) {g : G} (hg : Graph.IsEmpty g)
    {ops : List Op} (hops : ∀ op ∈ ops, op.isRemoval = false) (vid : String) :
    KeepsEdgeKeys "_" ((GraphInstance.new nodeCap edgeCap g).runAll ops).1 vid ↔
      ∀ l, some l ∈ ((GraphInstance.new nodeCap edgeCap g).runAll ops).1.seen →
        ¬ l.Incident vid := by
  have h : Indexed "_" ((GraphInstance.new nodeCap edgeCap g).runAll ops).1 :=
    (Indexed.empty hg).runAll hops
  generalize ((GraphInstance.new nodeCap edgeCap g).runAll ops).1 = s at h ⊢
  constructor
  · intro hkeeps l hl hincident
    -- the key of an incident edge stays in `edge_cache`, so its removal replies `true`
    have hedge : s.edge? (l.key "_") = some l := h.edge?_eq_some.mpr ⟨hl, rfl⟩
    obtain ⟨-, hremoval⟩ := (hkeeps _ l hedge).2 hincident
    have hreply := (hremoval (.removeEdge (l.key "_")) rfl).1
    have hcached : l.key "_" ∈ s.edgeCache := h.mem_edgeCache.mpr ⟨l, hl, rfl⟩
    obtain ⟨idx, hidx⟩ := Finmap.mem_iff.mp ((run_extends (.removeNode vid) s).mem_edge hcached)
    rw [run_of_edgeRemoval? rfl, run_removeEdgeAt, hidx] at hreply
    simp at hreply
  · intro hnone key l hedge
    have hl : some l ∈ s.seen := (h.edge?_eq_some.mp hedge).1
    refine ⟨fun _ => ?_, fun hincident => absurd hincident (hnone l hl)⟩
    exact Store.means_of_edge? (by rw [h.edge?_removeNode hnone, hedge])

/-- Next to an edge from `"a"` to `"b"`, the removal of `"c"` is harmless. -/
theorem removeNode_keeps_edges_isolated : KeepsEdgeKeys "_" (GraphInstance.blank.runAll
    [.addNode ⟨"c", ∅⟩, .addNode ⟨"a", ∅⟩, .addNode ⟨"b", ∅⟩,
      .addEdge "a" "b" ⟨1, "a", "b", ∅⟩]).1 "c" := by
  refine (removeNode_keeps_edges_iff 0 0 ⟨rfl, rfl⟩ (by decide) "c").mpr fun l hl => ?_
  have hseen : some l ∈ [some (⟨"a", "b", ⟨1, "a", "b", ∅⟩⟩ : LiveEdge)] := hl
  obtain rfl : l = ⟨"a", "b", ⟨1, "a", "b", ∅⟩⟩ := by simpa using hseen
  simp [Link.Incident]

/-- After the removal of `"a"`, its edge is gone and `remove_edge("a_b")` still replies `true`. -/
theorem removeNode_leaves_edge_key :
    (∀ op ∈ [Op.addNode ⟨"a", ∅⟩, .addNode ⟨"b", ∅⟩, .addEdge "a" "b" ⟨1, "a", "b", ∅⟩],
      op.isRemoval = false) ∧
    ¬ KeepsEdgeKeys "_" (GraphInstance.blank.runAll
      [.addNode ⟨"a", ∅⟩, .addNode ⟨"b", ∅⟩, .addEdge "a" "b" ⟨1, "a", "b", ∅⟩]).1 "a" := by
  refine ⟨by decide, fun hkeeps => ?_⟩
  obtain ⟨-, hremoval⟩ := (hkeeps "a_b" ⟨"a", "b", ⟨1, "a", "b", ∅⟩⟩ rfl).2 (Or.inl rfl)
  have hflag : Reply.flag true = Reply.flag false := (hremoval (.removeEdge "a_b") rfl).1
  simp at hflag

end Laws

/-! ## `add_edge` after `remove_node` -/

/-- `add_edge` does not panic, links the nodes it was asked to link, and reports a missing
node unless the key is recorded already. -/
def AddsEdgeSafely (segment : String) (s : Store G) (fromVid toVid : String) (edge : EdgeM) :
    Prop :=
  ((Op.addEdge fromVid toVid edge).run segment s).2 ≠ .panicked ∧
  (∀ idx, ((Op.addEdge fromVid toVid edge).run segment s).2 = .edgeIndex (.ok idx) →
    ∃ e, (Graph.rawEdges ((Op.addEdge fromVid toVid edge).run segment s).1.inner)[idx]? = some e ∧
      (∀ i, ((Op.addEdge fromVid toVid edge).run segment s).1.vids[i]? = some fromVid ↔
        i = e.source) ∧
      ∀ i, ((Op.addEdge fromVid toVid edge).run segment s).1.vids[i]? = some toVid ↔ i = e.target) ∧
  (fromVid ∉ s.vids ∨ toVid ∉ s.vids → edgeKey segment fromVid toVid ∉ s.edgeCache →
    ∃ missing, (Op.addEdge fromVid toVid edge).run segment s
      = (s, .edgeIndex (.error (.nodeNotFound missing))))

/-- The cached index of the vid, if any, holds the node with that vid. -/
def Store.Resolves (s : Store G) (vid : String) : Prop := (s.node? vid).map NodeM.vid = some vid

/-- Given its cached index, a vid is found exactly if the node there has it. -/
theorem Store.resolves_iff {s : Store G} {vid : String} {idx : Nat}
    (hidx : s.nodeCache.lookup vid = some idx) : s.Resolves vid ↔ s.vids[idx]? = some vid := by
  rw [Store.Resolves, Store.node?, hidx, Option.bind_some, Store.vids, List.getElem?_map]

/-- Where no vid is twice, one position of a vid determines the others. -/
theorem Distinct.getElem?_iff {s : Store G} (h : Distinct s) {vid : String} {idx : Nat}
    (hidx : s.vids[idx]? = some vid) (i : Nat) : s.vids[i]? = some vid ↔ i = idx := by
  constructor
  · intro hi
    have hlt := (List.getElem?_eq_some_iff.mp hi).1
    exact (List.getElem?_inj hlt h.nodup).mp (hi.trans hidx.symm)
  · rintro rfl
    exact hidx

/-- A refusal links nothing, and is right if it is for a cached key or a missing node. -/
theorem addsEdgeSafely_of_refused {s : Store G} {fromVid toVid : String} {edge : EdgeM}
    {error : GraphError}
    (hrun : (Op.addEdge fromVid toVid edge).run segment s = (s, .edgeIndex (.error error)))
    (hright : edgeKey segment fromVid toVid ∈ s.edgeCache ∨
      ∃ missing, error = .nodeNotFound missing) :
    AddsEdgeSafely segment s fromVid toVid edge := by
  refine ⟨by simp [hrun], by simp [hrun], fun _ hfresh => ?_⟩
  rcases hright with hkey | ⟨missing, rfl⟩
  · exact absurd hkey hfresh
  · exact ⟨missing, hrun⟩

/-- With both vids cached and the key free, the call is safe if and only if the cached indices
hold the two vids: in range it adds an edge between them, out of range petgraph panics. -/
theorem addsEdgeSafely_cached_iff [LawfulGraph G] {s : Store G} (hdistinct : Distinct s)
    {fromVid toVid : String} {a b : Nat} (edge : EdgeM)
    (hkey : edgeKey segment fromVid toVid ∉ s.edgeCache) (ha : s.nodeCache.lookup fromVid = some a)
    (hb : s.nodeCache.lookup toVid = some b) :
    AddsEdgeSafely segment s fromVid toVid edge ↔
      s.vids[a]? = some fromVid ∧ s.vids[b]? = some toVid := by
  have hlen : s.vids.length = (Graph.rawNodes s.inner).length := by simp [Store.vids]
  by_cases hrange : a < (Graph.rawNodes s.inner).length ∧ b < (Graph.rawNodes s.inner).length
  · obtain ⟨graph, hadd, hnodes, hedges⟩ :=
      LawfulGraph.addEdge_in_range (e := edge) hrange.1 hrange.2
    obtain ⟨s', hrun, hvids, hedges'⟩ : ∃ s', (Op.addEdge fromVid toVid edge).run segment s
        = (s', .edgeIndex (.ok (Graph.rawEdges s.inner).length)) ∧ s'.vids = s.vids ∧
        (Graph.rawEdges s'.inner)[(Graph.rawEdges s.inner).length]? = some ⟨edge, a, b⟩ := by
      rw [run_addEdge, if_neg hkey, ha, hb]
      simp only [hadd]
      exact ⟨_, rfl, by simp [Store.vids, hnodes], by simp [hedges]⟩
    rw [AddsEdgeSafely, hrun]
    constructor
    -- the new edge has the cached indices as its ends, whatever nodes are there by now
    · rintro ⟨-, hlinks, -⟩
      obtain ⟨e, he, hfrom, hto⟩ := hlinks _ rfl
      obtain rfl : e = ⟨edge, a, b⟩ := by simpa [hedges'] using he.symm
      rw [hvids] at hfrom hto
      exact ⟨(hfrom a).mpr rfl, (hto b).mpr rfl⟩
    · rintro ⟨hfrom, hto⟩
      refine ⟨by simp, fun idx hidx => ?_, fun hmissing _ => ?_⟩
      · obtain rfl : (Graph.rawEdges s.inner).length = idx := by simpa using hidx
        exact ⟨_, hedges', hvids ▸ hdistinct.getElem?_iff hfrom, hvids ▸ hdistinct.getElem?_iff hto⟩
      · rcases hmissing with hfrom' | hto'
        · exact absurd (List.mem_of_getElem? hfrom) hfrom'
        · exact absurd (List.mem_of_getElem? hto) hto'
  -- a stale index is out of range once the graph has shrunk below it
  · have hpanics : ((Op.addEdge fromVid toVid edge).run segment s).2 = .panicked := by
      have hout := (not_and_or.mp hrange).imp Nat.le_of_not_lt Nat.le_of_not_lt
      rw [run_addEdge, if_neg hkey, ha, hb]
      simp only [LawfulGraph.addEdge_panics hout]
    refine iff_of_false (fun hsafe => hsafe.1 hpanics) ?_
    rintro ⟨hfrom, hto⟩
    refine hrange ⟨?_, ?_⟩
    · exact hlen ▸ (List.getElem?_eq_some_iff.mp hfrom).1
    · exact hlen ▸ (List.getElem?_eq_some_iff.mp hto).1

/-- **`add_edge` is safe exactly on indices that are not stale.** In every state that any calls
reach, `add_edge` does not panic, links the right nodes and reports a missing one, if and only
if the key is recorded already, or one of the vids is not cached, or both cached indices hold
the nodes they were cached for. -/
theorem addEdge_safe_iff [LawfulGraph G] (nodeCap edgeCap : Nat) {g : G} (hg : Graph.IsEmpty g)
    (ops : List Op) (fromVid toVid : String) (edge : EdgeM) :
    AddsEdgeSafely "_" ((GraphInstance.new nodeCap edgeCap g).runAll ops).1 fromVid toVid edge ↔
      edgeKey "_" fromVid toVid ∈ ((GraphInstance.new nodeCap edgeCap g).runAll ops).1.edgeCache ∨
      fromVid ∉ ((GraphInstance.new nodeCap edgeCap g).runAll ops).1.nodeCache ∨
      toVid ∉ ((GraphInstance.new nodeCap edgeCap g).runAll ops).1.nodeCache ∨
      (((GraphInstance.new nodeCap edgeCap g).runAll ops).1.Resolves fromVid ∧
        ((GraphInstance.new nodeCap edgeCap g).runAll ops).1.Resolves toVid) := by
  have hdistinct : Distinct ((GraphInstance.new nodeCap edgeCap g).runAll ops).1 :=
    (Distinct.empty hg).runAll ops
  generalize ((GraphInstance.new nodeCap edgeCap g).runAll ops).1 = s at hdistinct ⊢
  by_cases hkey : edgeKey "_" fromVid toVid ∈ s.edgeCache
  · have hrun : (Op.addEdge fromVid toVid edge).run "_" s
        = (s, .edgeIndex (.error (.edgeExists fromVid toVid))) := by rw [run_addEdge, if_pos hkey]
    exact iff_of_true (addsEdgeSafely_of_refused hrun (Or.inl hkey)) (Or.inl hkey)
  rw [or_iff_right hkey]
  cases ha : s.nodeCache.lookup fromVid with
  | none =>
    have hfrom : fromVid ∉ s.nodeCache := Finmap.lookup_eq_none.mp ha
    refine iff_of_true (addsEdgeSafely_of_refused ?_ (Or.inr ⟨fromVid, rfl⟩)) (Or.inl hfrom)
    rw [run_addEdge, if_neg hkey, ha]
  | some a =>
    have hfrom : fromVid ∈ s.nodeCache := Finmap.mem_of_lookup_eq_some ha
    rw [or_iff_right (not_not.mpr hfrom)]
    cases hb : s.nodeCache.lookup toVid with
    | none =>
      have hto : toVid ∉ s.nodeCache := Finmap.lookup_eq_none.mp hb
      refine iff_of_true (addsEdgeSafely_of_refused ?_ (Or.inr ⟨toVid, rfl⟩)) (Or.inl hto)
      rw [run_addEdge, if_neg hkey, ha, hb]
    | some b =>
      have hto : toVid ∈ s.nodeCache := Finmap.mem_of_lookup_eq_some hb
      rw [or_iff_right (not_not.mpr hto), Store.resolves_iff ha, Store.resolves_iff hb]
      exact addsEdgeSafely_cached_iff hdistinct edge hkey ha hb

/-- The removal of the last node leaves the indices of the others right. -/
theorem addEdge_safe_last : AddsEdgeSafely "_" (GraphInstance.blank.runAll
    [.addNode ⟨"a", ∅⟩, .addNode ⟨"b", ∅⟩, .removeNode "b"]).1 "a" "a" ⟨1, "a", "a", ∅⟩ :=
  (addEdge_safe_iff 0 0 ⟨rfl, rfl⟩ _ _ _ _).mpr (Or.inr (Or.inr (Or.inr ⟨rfl, rfl⟩)))

/-- After the only node has been added and removed, an edge from it to itself panics. -/
theorem addEdge_panics_after_removal : ¬ AddsEdgeSafely "_" (GraphInstance.blank.runAll
    [.addNode ⟨"a", ∅⟩, .removeNode "a"]).1 "a" "a" ⟨1, "a", "a", ∅⟩ :=
  fun hsafe => hsafe.1 rfl

end MemoryGraph
