import MemoryGraph.Graph.NodeMap
import MemoryGraph.Refine.Unwinding

/-!
# MemoryGraph — edge traffic leaves no trace in the node store

The four calls on nodes read and write the node array and `node_cache` only, and the five calls
on edges leave both alone. So two stores that agree on these (`SameNodes`) stay in agreement
when the same calls on nodes run on both and any calls on edges run on one, however different
their edges are: also through a `remove_node`, which takes different edges out of them.

* **`sameNodes_unwinding`** — the conditions on single calls;
* **`node_store_ignores_edges`** — deleting the calls on edges from any sequence changes nothing
  that a call on nodes can see.
-/

namespace MemoryGraph

open Conc Petgraph Refine

variable {G : Type} [Graph G NodeM EdgeM] {segment : String}

/-- Runs of operations are runs of the machine whose steps they are. -/
theorem runAll_eq_exec (ops : List Op) (s : Store G) :
    runAll segment ops s = exec (fun s op => op.run segment s) s ops := by
  induction ops generalizing s with
  | nil => rfl
  | cons op ops ih =>
    show Proc.runAll (op.call segment :: ops.map (Op.call segment)) s = _
    rw [Proc.runAll_cons, exec, ← ih]
    rfl

/-- The same nodes at the same indices, and the same `node_cache`. -/
structure SameNodes (s s' : Store G) : Prop where
  nodes : Graph.rawNodes s.inner = Graph.rawNodes s'.inner
  nodeCache : s.nodeCache = s'.nodeCache

theorem SameNodes.trans {s s' s'' : Store G} (h : SameNodes s s') (h' : SameNodes s' s'') :
    SameNodes s s'' :=
  ⟨h.nodes.trans h'.nodes, h.nodeCache.trans h'.nodeCache⟩

section Laws

variable [LawfulGraph G] {s s' : Store G}

/-- A call on edges leaves the nodes and `node_cache` alone. -/
theorem Change.sameNodes {op : Op} (hchange : Change segment s op s')
    (hop : op.isNodeOp = false) : SameNodes s' s := by
  cases hchange with
  | same => exact ⟨rfl, rfl⟩
  | nodeAdded hadd _ => simp [hadd, Op.isNodeOp] at hop
  | nodeUpdated hupdate _ _ => simp [hupdate, Op.isNodeOp] at hop
  | nodeRemoved hremove _ => simp [hremove, Op.isNodeOp] at hop
  | edgeAdded _ _ _ _ hadd =>
    obtain ⟨-, -, -, hnodes, -⟩ := LawfulGraph.addEdge_eq_some hadd
    exact ⟨hnodes, rfl⟩
  | edgeUpdated _ _ hborrow => exact ⟨LawfulGraph.rawNodes_edgeWeightMut hborrow _, rfl⟩
  | edgeRemoved _ _ => exact ⟨LawfulGraph.rawNodes_removeEdge .., rfl⟩

/-- `remove_node` moves the nodes in the same way whatever the edges are. -/
theorem SameNodes.rawNodes_removeNode (h : SameNodes s s') (idx : Nat) :
    Graph.rawNodes (Graph.removeNode s.inner idx).2 =
      Graph.rawNodes (Graph.removeNode s'.inner idx).2 := by
  rcases Nat.lt_or_ge idx (Graph.rawNodes s.inner).length with hlt | hge
  · rw [LawfulGraph.rawNodes_removeNode hlt, LawfulGraph.rawNodes_removeNode (h.nodes ▸ hlt),
      h.nodes]
  · rw [LawfulGraph.removeNode_out_of_range hge,
      LawfulGraph.removeNode_out_of_range (h.nodes ▸ hge), h.nodes]

omit [LawfulGraph G] in
theorem SameNodes.node?_eq (h : SameNodes s s') : s.node? = s'.node? := by
  funext vid
  rw [Store.node?, Store.node?, h.nodes, h.nodeCache]

/-- A call on nodes replies the same on both sides and keeps them in agreement. -/
theorem SameNodes.node_call (h : SameNodes s s') {op : Op} (hop : op.isNodeOp = true) :
    (op.run segment s).2 = (op.run segment s').2 ∧
      SameNodes (op.run segment s).1 (op.run segment s').1 := by
  cases op with
  | addNode node =>
    -- the index is the number of nodes, whatever the edges
    have hidx : (Graph.addNode s.inner node).1 = (Graph.addNode s'.inner node).1 := by
      rw [LawfulGraph.addNode_index, LawfulGraph.addNode_index, h.nodes]
    rw [run_addNode, run_addNode, h.nodeCache, hidx]
    split
    · exact ⟨rfl, h⟩
    · refine ⟨rfl, ?_, ?_⟩
      · show Graph.rawNodes (Graph.addNode s.inner node).2
          = Graph.rawNodes (Graph.addNode s'.inner node).2
        rw [LawfulGraph.rawNodes_addNode, LawfulGraph.rawNodes_addNode, h.nodes]
      · rfl
  | findNodeByVid vid =>
    rw [reply_findNodeByVid, reply_findNodeByVid, h.node?_eq, run_findNodeByVid, run_findNodeByVid]
    exact ⟨rfl, h⟩
  | removeNode vid =>
    rw [run_removeNode, run_removeNode, h.nodeCache]
    cases s'.nodeCache.lookup vid with
    | none => exact ⟨rfl, h⟩
    | some idx => exact ⟨rfl, h.rawNodes_removeNode idx, rfl⟩
  | updateNode vid data =>
    obtain ⟨t, hrun, hcache, -, hnodes, -⟩ := run_updateNode_eq vid data s
    obtain ⟨t', hrun', hcache', -, hnodes', -⟩ := run_updateNode_eq vid data s'
    rw [hrun, hrun', h.node?_eq]
    refine ⟨rfl, ?_, ?_⟩
    · rw [hnodes, hnodes', h.nodes, h.nodeCache]
    · rw [hcache, hcache', h.nodeCache]
  | _ => simp [Op.isNodeOp] at hop

/-- The calls on edges leave no trace in the node store. -/
theorem sameNodes_unwinding : Unwinding (fun (s : Store G) op => op.run segment s) Op.isNodeOp
    SameNodes where
  consistent h hop := h.node_call hop
  silent h hop := ((run_change _ _).sameNodes hop).trans h

/-- **Edge traffic never disturbs the node store.** Deleting the calls on edges from any sequence
leaves every reply to a call on nodes, the node array and `node_cache` as they were. It does not
matter what is in the graph that the instance was made with. -/
theorem node_store_ignores_edges (nodeCap edgeCap : Nat) (g : G) (ops : List Op) :
    (((ops.zip ((GraphInstance.new nodeCap edgeCap g).runAll ops).2).filter
        fun p => p.1.isNodeOp).map Prod.snd
      = ((GraphInstance.new nodeCap edgeCap g).runAll (ops.filter Op.isNodeOp)).2) ∧
    Graph.rawNodes ((GraphInstance.new nodeCap edgeCap g).runAll ops).1.inner
      = Graph.rawNodes
        ((GraphInstance.new nodeCap edgeCap g).runAll (ops.filter Op.isNodeOp)).1.inner ∧
    ((GraphInstance.new nodeCap edgeCap g).runAll ops).1.nodeCache
      = ((GraphInstance.new nodeCap edgeCap g).runAll (ops.filter Op.isNodeOp)).1.nodeCache := by
  simp only [GraphInstance.runAll, runAll_eq_exec]
  have hstart : SameNodes (GraphInstance.new nodeCap edgeCap g).store
      (GraphInstance.new nodeCap edgeCap g).store := ⟨rfl, rfl⟩
  obtain ⟨hend, hreplies⟩ := sameNodes_unwinding.purge hstart ops
  exact ⟨hreplies, hend.nodes, hend.nodeCache⟩

/-- The node `"a"` is removed with its edge, the next `add_edge` panics, and `"c"` takes the freed
index, as they do without the edges. -/
theorem node_store_ignores_edges_removal :
    Graph.rawNodes (GraphInstance.blank.runAll [.addNode ⟨"a", ∅⟩, .addNode ⟨"b", ∅⟩,
        .addEdge "a" "b" ⟨1, "a", "b", ∅⟩, .removeNode "a", .addEdge "b" "b" ⟨1, "b", "b", ∅⟩,
        .removeEdge "a_b", .addNode ⟨"c", ∅⟩]).1.inner
      = [⟨"b", ∅⟩, ⟨"c", ∅⟩] ∧
    (GraphInstance.blank.runAll [.addNode ⟨"a", ∅⟩, .addNode ⟨"b", ∅⟩, .removeNode "a",
        .addNode ⟨"c", ∅⟩]).2 = [.nodeIndex (.ok 0), .nodeIndex (.ok 1), .flag true,
      .nodeIndex (.ok 1)] :=
  have h := node_store_ignores_edges 0 0 (.empty : ListGraph true NodeM EdgeM)
    [.addNode ⟨"a", ∅⟩, .addNode ⟨"b", ∅⟩, .addEdge "a" "b" ⟨1, "a", "b", ∅⟩, .removeNode "a",
      .addEdge "b" "b" ⟨1, "b", "b", ∅⟩, .removeEdge "a_b", .addNode ⟨"c", ∅⟩]
  ⟨h.2.1.trans rfl, h.1.symm.trans rfl⟩

end Laws

end MemoryGraph
