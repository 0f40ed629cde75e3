import MemoryGraph.Graph.Alone

/-!
# MemoryGraph — all or nothing

A call that reports failure has changed nothing, in any store: also where the caches point to
the wrong nodes and edges, or out of range. A successful insertion has appended one element and
added one entry under an absent key.

* **`unchanged_of_isFailure`** — what a failed call leaves;
* **`AppendsNode`**, **`AppendsEdge`** — what the two insertions leave;
* **`call_all_or_nothing`** — all of it for every call.
-/

namespace MemoryGraph

open Conc Petgraph

variable {G : Type} [Graph G NodeM EdgeM] {segment : String} {s s' : Store G}

/-- The reply is `Err`, `None` or `false`, or the call has panicked. -/
def Reply.isFailure : Reply → Bool
  | .nodeIndex (.error _) | .node none | .flag false | .edgeIndex (.error _) | .unit (.error _)
  | .panicked => true
  | _ => false

/-- From `s` to `s'`, the node is appended at `idx` and its vid, absent before, is cached; the
rest is as it was. -/
structure AppendsNode (s s' : Store G) (node : NodeM) (idx : Nat) : Prop where
  index : idx = (Graph.rawNodes s.inner).length
  nodes : Graph.rawNodes s'.inner = Graph.rawNodes s.inner ++ [node]
  edges : Graph.rawEdges s'.inner = Graph.rawEdges s.inner
  absent : node.vid ∉ s.nodeCache
  nodeCache : s'.nodeCache = s.nodeCache.insert node.vid idx
  edgeCache : s'.edgeCache = s.edgeCache

/-- From `s` to `s'`, an edge with the weight is appended at `idx`, between the indices cached for
the two vids, and its key, absent before, is cached; the rest is as it was. -/
structure AppendsEdge (segment : String) (s s' : Store G) (fromVid toVid : String) (edge : EdgeM)
    (idx : Nat) : Prop where
  index : idx = (Graph.rawEdges s.inner).length
  nodes : Graph.rawNodes s'.inner = Graph.rawNodes s.inner
  edges : ∃ a b, s.nodeCache.lookup fromVid = some a ∧ s.nodeCache.lookup toVid = some b ∧
    Graph.rawEdges s'.inner = Graph.rawEdges s.inner ++ [⟨edge, a, b⟩]
  absent : edgeKey segment fromVid toVid ∉ s.edgeCache
  edgeCache : s'.edgeCache = s.edgeCache.insert (edgeKey segment fromVid toVid) idx
  nodeCache : s'.nodeCache = s.nodeCache

/-- An edge update that fails has not touched the graph. -/
theorem updateEdgeAt_unchanged (key : String) (missing : GraphError) (data : Dict String)
    (h : ((updateEdgeAt key missing data).run s).2.isFailure = true) :
    ((updateEdgeAt key missing data).run s).1 = s := by
  rw [run_updateEdgeAt] at h ⊢
  split at h
  · simp [Reply.isFailure] at h
  · rfl

/-- An edge removal that answers `false` has not touched the graph. -/
theorem removeEdgeAt_unchanged (key : String)
    (h : ((removeEdgeAt key).run s).2.isFailure = true) : ((removeEdgeAt key).run s).1 = s := by
  rw [run_removeEdgeAt] at h ⊢
  split at h
  · simp [Reply.isFailure] at h
  · rfl

/-- A call that fails leaves the store exactly as it was. -/
theorem unchanged_of_isFailure {op : Op} (h : (op.run segment s).2.isFailure = true) :
    (op.run segment s).1 = s := by
  cases op with
  | addNode node =>
    rw [run_addNode] at h ⊢
    by_cases hvid : node.vid ∈ s.nodeCache
    · rw [if_pos hvid]
    · simp [hvid, Reply.isFailure] at h
  | findNodeByVid vid => rw [run_findNodeByVid]
  | removeNode vid =>
    rw [run_removeNode] at h ⊢
    split at h
    · simp [Reply.isFailure] at h
    · rfl
  | updateNode vid data =>
    -- the vid is not cached, or it is and the graph has no node at the index
    rw [run_updateNode] at h ⊢
    split at h
    · simp [Reply.isFailure] at h
    · rfl
  | addEdge fromVid toVid edge =>
    have hexit := run_addEdge_exit segment fromVid toVid edge s
    generalize (Op.addEdge fromVid toVid edge).run segment s = out at hexit h ⊢
    cases hexit with
    | added _ _ _ _ => simp [Reply.isFailure] at h
    | _ => rfl
  | updateEdge edgeVid data => exact updateEdgeAt_unchanged edgeVid _ data h
  | updateEdgeByNode fromVid toVid data => exact updateEdgeAt_unchanged _ _ data h
  | removeEdge edgeVid => exact removeEdgeAt_unchanged edgeVid h
  | removeEdgeByNode fromVid toVid => exact removeEdgeAt_unchanged _ h

section Laws

variable [LawfulGraph G]

/-- `Ok(idx)` of `add_node` means one node more, at `idx`, and one entry for it. -/
theorem appendsNode_of_ok {node : NodeM} {idx : Nat}
    (h : ((Op.addNode node).run segment s).2 = .nodeIndex (.ok idx)) :
    AppendsNode s ((Op.addNode node).run segment s).1 node idx := by
  rw [run_addNode] at h ⊢
  by_cases hvid : node.vid ∈ s.nodeCache
  · simp [hvid] at h
  · rw [if_neg hvid] at h ⊢
    obtain rfl : (Graph.addNode s.inner node).1 = idx := by simpa using h
    exact ⟨LawfulGraph.addNode_index .., LawfulGraph.rawNodes_addNode ..,
      LawfulGraph.rawEdges_addNode .., hvid, rfl, rfl⟩

/-- `Ok(idx)` of `add_edge` means one edge more, at `idx`, between the cached ends, and one entry
for its key. -/
theorem appendsEdge_of_ok {fromVid toVid : String} {edge : EdgeM} {idx : Nat}
    (h : ((Op.addEdge fromVid toVid edge).run segment s).2 = .edgeIndex (.ok idx)) :
    AppendsEdge segment s ((Op.addEdge fromVid toVid edge).run segment s).1 fromVid toVid edge
      idx := by
  have hexit := run_addEdge_exit segment fromVid toVid edge s
  generalize (Op.addEdge fromVid toVid edge).run segment s = out at hexit h ⊢
  cases hexit with
  | @added a b index graph hkey hfrom hto hadd =>
    obtain rfl : index = idx := by simpa using h
    obtain ⟨-, -, hidx, hnodes, hedges⟩ := LawfulGraph.addEdge_eq_some hadd
    exact ⟨hidx, hnodes, ⟨a, b, hfrom, hto, hedges⟩, hkey, rfl, rfl⟩
  | _ => simp at h

/-- **Every call is all or nothing.** In any store, whatever its caches say about its graph, a
call that fails leaves graph and caches exactly as they were, and a successful insertion
appends exactly one element and adds exactly one entry, under a key that was absent. -/
theorem call_all_or_nothing (segment : String) (op : Op) (s : Store G) :
    ((op.run segment s).2.isFailure = true → (op.run segment s).1 = s) ∧
    (∀ node idx, op = .addNode node → (op.run segment s).2 = .nodeIndex (.ok idx) →
      AppendsNode s (op.run segment s).1 node idx) ∧
    ∀ fromVid toVid edge idx, op = .addEdge fromVid toVid edge →
      (op.run segment s).2 = .edgeIndex (.ok idx) →
      AppendsEdge segment s (op.run segment s).1 fromVid toVid edge idx := by
  refine ⟨unchanged_of_isFailure, ?_, ?_⟩
  · rintro node idx rfl hok
    exact appendsNode_of_ok hok
  · rintro fromVid toVid edge idx rfl hok
    exact appendsEdge_of_ok hok

/-- A store whose only cached vid has lost its node: `add_edge` panics with both write guards
held and leaves everything as it was, and `add_node` of another vid takes the freed index. -/
theorem call_all_or_nothing_stale :
    (Op.addEdge "a" "a" ⟨1, "a", "a", ∅⟩).run "_"
        (GraphInstance.blank.runAll [.addNode ⟨"a", ∅⟩, .removeNode "a"]).1
      = ((GraphInstance.blank.runAll [.addNode ⟨"a", ∅⟩, .removeNode "a"]).1, .panicked) ∧
    AppendsNode (GraphInstance.blank.runAll [.addNode ⟨"a", ∅⟩, .removeNode "a"]).1
      ((Op.addNode ⟨"b", ∅⟩).run "_"
        (GraphInstance.blank.runAll [.addNode ⟨"a", ∅⟩, .removeNode "a"]).1).1 ⟨"b", ∅⟩ 0 :=
  ⟨Prod.ext ((call_all_or_nothing "_" _ _).1 rfl) rfl,
    (call_all_or_nothing "_" _ _).2.1 _ _ rfl rfl⟩

end Laws

end MemoryGraph
