import MemoryGraph.Graph.Basic

/-!
# MemoryGraph — one call running alone

Between the sections of a call that runs alone nothing changes, so its second look at a
cache finds what the first one found. The equations below give the store and the reply of
each operation in one piece; `Change` lists what a call can do to the store, and every
invariant of the store is read off `run_change`.
-/

namespace MemoryGraph

open Conc Petgraph

variable {G : Type} [Graph G NodeM EdgeM] {segment : String}

/-! ## Store and reply of each operation -/

/-- A vid in `node_cache` is an error and changes nothing; any other vid gets the next index, in the
graph and in the cache. -/
theorem run_addNode (node : NodeM) (s : Store G) :
    (Op.addNode node).run segment s =
      if node.vid ∈ s.nodeCache then (s, .nodeIndex (.error (.nodeExistsError node.vid)))
      else
        ({ s with
            inner := (Graph.addNode s.inner node).2
            nodeCache := s.nodeCache.insert node.vid (Graph.addNode s.inner node).1 },
          .nodeIndex (.ok (Graph.addNode s.inner node).1)) := by
  by_cases hvid : node.vid ∈ s.nodeCache <;> simp [Op.run, Op.call, addNode, hvid]

omit [Graph G NodeM EdgeM] in
/-- The two sections of a lookup and an action, run without anything in between, see one state: the
index is looked up and used in it. -/
theorem run_resolve (lock : Lock) (lookup : Store G → Option Nat) (absent : Reply) (mode : Mode)
    (act : Nat → Store G → Store G × Reply) (s : Store G) :
    (resolve lock lookup absent mode act).run s =
      match lookup s with
      | some idx => act idx s
      | none => (s, absent) := by
  cases hidx : lookup s <;> simp [resolve, hidx]

/-- The weight is read at the cached index, whatever node is there. -/
theorem run_findNodeByVid (vid : String) (s : Store G) :
    (Op.findNodeByVid vid).run segment s =
      (s, .node ((s.nodeCache.lookup vid).bind (Graph.nodeWeight s.inner))) := by
  simp only [Op.run, Op.call, findNodeByVid, resolveNode, run_resolve]
  cases s.nodeCache.lookup vid <;> rfl

/-- `remove_node` takes out what is at the cached index and answers `true` for any vid in the cache.
The caches stay as they are. -/
theorem run_removeNode (vid : String) (s : Store G) :
    (Op.removeNode vid).run segment s =
      match s.nodeCache.lookup vid with
      | some idx => ({ s with inner := (Graph.removeNode s.inner idx).2 }, .flag true)
      | none => (s, .flag false) := by
  simp only [Op.run, Op.call, removeNode, resolveNode, run_resolve]

/-- `update_node` replaces the data of the node at the cached index; if there is none, it answers
like for an unknown vid. -/
theorem run_updateNode (vid : String) (data : Dict String) (s : Store G) :
    (Op.updateNode vid data).run segment s =
      match (s.nodeCache.lookup vid).bind (Graph.nodeWeightMut s.inner) with
      | some (node, put) => ({ s with inner := put { node with data := data } }, .flag true)
      | none => (s, .flag false) := by
  simp only [Op.run, Op.call, updateNode, resolveNode, run_resolve]
  cases s.nodeCache.lookup vid <;> rfl

/-- The ways through `add_edge`, in the order of its checks: the key is in `edge_cache`, the source
is not in `node_cache`, the target is not, an index is out of range of the graph, or the edge is
added and cached. -/
theorem run_addEdge (fromVid toVid : String) (edge : EdgeM) (s : Store G) :
    (Op.addEdge fromVid toVid edge).run segment s =
      if edgeKey segment fromVid toVid ∈ s.edgeCache then
        (s, .edgeIndex (.error (.edgeExists fromVid toVid)))
      else
        match s.nodeCache.lookup fromVid, s.nodeCache.lookup toVid with
        | none, _ => (s, .edgeIndex (.error (.nodeNotFound fromVid)))
        | some _, none => (s, .edgeIndex (.error (.nodeNotFound toVid)))
        | some a, some b =>
          match Graph.addEdge s.inner a b edge with
          | none => (s, .panicked)
          | some (index, graph) =>
            ({ s with
                inner := graph
                edgeCache := s.edgeCache.insert (edgeKey segment fromVid toVid) index },
              .edgeIndex (.ok index)) := by
  -- alone, the second look at `edge_cache` finds what the first has found
  by_cases hkey : edgeKey segment fromVid toVid ∈ s.edgeCache
  · simp [Op.run, Op.call, addEdge, hkey]
  · cases hfrom : s.nodeCache.lookup fromVid with
    | none => simp [Op.run, Op.call, addEdge, hkey, hfrom]
    | some a =>
      cases hto : s.nodeCache.lookup toVid with
      | none => simp [Op.run, Op.call, addEdge, hkey, hfrom, hto]
      | some b =>
        cases hadd : Graph.addEdge s.inner a b edge <;>
          simp [Op.run, Op.call, addEdge, hkey, hfrom, hto, hadd]

/-- The five exits of `add_edge`, each with what has been found on the way there. -/
inductive AddEdgeExit (segment : String) (s : Store G) (fromVid toVid : String) (edge : EdgeM) :
    Store G × Reply → Prop where
  | taken (hkey : edgeKey segment fromVid toVid ∈ s.edgeCache) :
      AddEdgeExit segment s fromVid toVid edge
        (s, .edgeIndex (.error (.edgeExists fromVid toVid)))
  | noFrom (hkey : edgeKey segment fromVid toVid ∉ s.edgeCache) (hfrom : fromVid ∉ s.nodeCache) :
      AddEdgeExit segment s fromVid toVid edge (s, .edgeIndex (.error (.nodeNotFound fromVid)))
  | noTo {a : Nat} (hkey : edgeKey segment fromVid toVid ∉ s.edgeCache)
      (hfrom : s.nodeCache.lookup fromVid = some a) (hto : toVid ∉ s.nodeCache) :
      AddEdgeExit segment s fromVid toVid edge (s, .edgeIndex (.error (.nodeNotFound toVid)))
  /-- petgraph panics before it changes anything, and nothing is cached. -/
  | panicked {a b : Nat} (hkey : edgeKey segment fromVid toVid ∉ s.edgeCache)
      (hfrom : s.nodeCache.lookup fromVid = some a) (hto : s.nodeCache.lookup toVid = some b)
      (hadd : Graph.addEdge s.inner a b edge = none) :
      AddEdgeExit segment s fromVid toVid edge (s, .panicked)
  | added {a b index : Nat} {graph : G} (hkey : edgeKey segment fromVid toVid ∉ s.edgeCache)
      (hfrom : s.nodeCache.lookup fromVid = some a) (hto : s.nodeCache.lookup toVid = some b)
      (hadd : Graph.addEdge s.inner a b edge = some (index, graph)) :
      AddEdgeExit segment s fromVid toVid edge
        ({ s with
            inner := graph
            edgeCache := s.edgeCache.insert (edgeKey segment fromVid toVid) index },
          .edgeIndex (.ok index))

/-- The same as one inversion lemma, which callers split instead of unfolding `run_addEdge`. -/
theorem run_addEdge_exit (segment fromVid toVid : String) (edge : EdgeM) (s : Store G) :
    AddEdgeExit segment s fromVid toVid edge ((Op.addEdge fromVid toVid edge).run segment s) := by
  rw [run_addEdge]
  by_cases hkey : edgeKey segment fromVid toVid ∈ s.edgeCache
  · rw [if_pos hkey]
    exact .taken hkey
  · rw [if_neg hkey]
    cases hfrom : s.nodeCache.lookup fromVid with
    | none => exact .noFrom hkey (Finmap.lookup_eq_none.mp hfrom)
    | some a =>
      cases hto : s.nodeCache.lookup toVid with
      | none => exact .noTo hkey hfrom (Finmap.lookup_eq_none.mp hto)
      | some b =>
        cases hadd : Graph.addEdge s.inner a b edge with
        | none => simpa [hadd] using AddEdgeExit.panicked hkey hfrom hto hadd
        | some added => simpa [hadd] using AddEdgeExit.added hkey hfrom hto hadd

/-- Both edge updates extend the data of the edge at the cached index. They differ in the error for
a key that leads to none. -/
theorem run_updateEdgeAt (key : String) (missing : GraphError) (data : Dict String) (s : Store G) :
    (updateEdgeAt key missing data).run s =
      match (s.edgeCache.lookup key).bind (Graph.edgeWeightMut s.inner) with
      | some (edge, put) =>
        ({ s with inner := put { edge with data := edge.data.extend data } }, .unit (.ok ()))
      | none => (s, .unit (.error missing)) := by
  simp only [updateEdgeAt, resolveEdge, run_resolve]
  cases s.edgeCache.lookup key <;> rfl

/-- Both edge removals take out what is at the cached index and answer `true` for any key in the
cache. -/
theorem run_removeEdgeAt (key : String) (s : Store G) :
    (removeEdgeAt key).run s =
      match s.edgeCache.lookup key with
      | some idx => ({ s with inner := (Graph.removeEdge s.inner idx).2 }, .flag true)
      | none => (s, .flag false) := by
  simp only [removeEdgeAt, resolveEdge, run_resolve]

/-! ## What a call can do to the store -/

/-- The edge key a call updates, with the new data. -/
def Op.edgeUpdate? (segment : String) : Op → Option (String × Dict String)
  | .updateEdge edgeVid data => some (edgeVid, data)
  | .updateEdgeByNode fromVid toVid data => some (edgeKey segment fromVid toVid, data)
  | _ => none

def Op.edgeRemoval? (segment : String) : Op → Option String
  | .removeEdge edgeVid => some edgeVid
  | .removeEdgeByNode fromVid toVid => some (edgeKey segment fromVid toVid)
  | _ => none

/-- The two edge updates run `updateEdgeAt`, and report a missing edge as such. -/
theorem run_of_edgeUpdate? {op : Op} {key : String} {data : Dict String}
    (hop : op.edgeUpdate? segment = some (key, data)) :
    ∃ missing, ∀ s : Store G,
      op.run segment s = (updateEdgeAt key (.edgeNotFound missing) data).run s := by
  cases op with
  | updateEdge edgeVid data' =>
    obtain ⟨rfl, rfl⟩ : edgeVid = key ∧ data' = data := by simpa [Op.edgeUpdate?] using hop
    exact ⟨edgeVid, fun s => rfl⟩
  | updateEdgeByNode fromVid toVid data' =>
    obtain ⟨rfl, rfl⟩ : edgeKey segment fromVid toVid = key ∧ data' = data := by
      simpa [Op.edgeUpdate?] using hop
    exact ⟨fromVid ++ "->" ++ toVid, fun s => rfl⟩
  | _ => simp [Op.edgeUpdate?] at hop

/-- The two edge removals run `removeEdgeAt`. -/
theorem run_of_edgeRemoval? {op : Op} {key : String} (hop : op.edgeRemoval? segment = some key)
    (s : Store G) : op.run segment s = (removeEdgeAt key).run s := by
  cases op with
  | removeEdge edgeVid =>
    obtain rfl : edgeVid = key := by simpa [Op.edgeRemoval?] using hop
    rfl
  | removeEdgeByNode fromVid toVid =>
    obtain rfl : edgeKey segment fromVid toVid = key := by simpa [Op.edgeRemoval?] using hop
    rfl
  | _ => simp [Op.edgeRemoval?] at hop

/-- Everything a call can do to the store, with what it found there. -/
inductive Change (segment : String) (s : Store G) (op : Op) : Store G → Prop where
  | same : Change segment s op s
  | nodeAdded {node : NodeM} (hop : op = .addNode node) (hfresh : node.vid ∉ s.nodeCache) :
      Change segment s op
        { s with
          inner := (Graph.addNode s.inner node).2
          nodeCache := s.nodeCache.insert node.vid (Graph.addNode s.inner node).1 }
  | nodeUpdated {vid : String} {data : Dict String} {idx : Nat} {node : NodeM}
      {put : NodeM → G} (hop : op = .updateNode vid data)
      (hlookup : s.nodeCache.lookup vid = some idx)
      (hborrow : Graph.nodeWeightMut s.inner idx = some (node, put)) :
      Change segment s op { s with inner := put { node with data := data } }
  | nodeRemoved {vid : String} {idx : Nat} (hop : op = .removeNode vid)
      (hlookup : s.nodeCache.lookup vid = some idx) :
      Change segment s op { s with inner := (Graph.removeNode s.inner idx).2 }
  | edgeAdded {fromVid toVid : String} {edge : EdgeM} {a b : Nat} {index : Nat}
      {graph : G} (hop : op = .addEdge fromVid toVid edge)
      (hfresh : edgeKey segment fromVid toVid ∉ s.edgeCache)
      (hfrom : s.nodeCache.lookup fromVid = some a) (hto : s.nodeCache.lookup toVid = some b)
      (hadd : Graph.addEdge s.inner a b edge = some (index, graph)) :
      Change segment s op
        { s with
          inner := graph
          edgeCache := s.edgeCache.insert (edgeKey segment fromVid toVid) index }
  | edgeUpdated {key : String} {data : Dict String} {idx : Nat} {edge : EdgeM}
      {put : EdgeM → G} (hop : op.edgeUpdate? segment = some (key, data))
      (hlookup : s.edgeCache.lookup key = some idx)
      (hborrow : Graph.edgeWeightMut s.inner idx = some (edge, put)) :
      Change segment s op { s with inner := put { edge with data := edge.data.extend data } }
  | edgeRemoved {key : String} {idx : Nat} (hop : op.edgeRemoval? segment = some key)
      (hlookup : s.edgeCache.lookup key = some idx) :
      Change segment s op { s with inner := (Graph.removeEdge s.inner idx).2 }

/-- Under its key, an edge update is one of the changes that a call can make. -/
theorem change_updateEdgeAt {op : Op} {key : String} {data : Dict String}
    (hop : op.edgeUpdate? segment = some (key, data)) (missing : GraphError) (s : Store G) :
    Change segment s op ((updateEdgeAt key missing data).run s).1 := by
  rw [run_updateEdgeAt]
  cases hborrow : (s.edgeCache.lookup key).bind (Graph.edgeWeightMut s.inner) with
  | none => exact .same
  | some borrow =>
    obtain ⟨idx, hlookup, hborrow⟩ := Option.bind_eq_some_iff.mp hborrow
    exact .edgeUpdated hop hlookup hborrow

/-- Under its key, so is an edge removal. -/
theorem change_removeEdgeAt {op : Op} {key : String} (hop : op.edgeRemoval? segment = some key)
    (s : Store G) : Change segment s op ((removeEdgeAt key).run s).1 := by
  rw [run_removeEdgeAt]
  cases hlookup : s.edgeCache.lookup key with
  | none => exact .same
  | some idx => exact .edgeRemoved hop hlookup

/-- A call does to the store one of the things `Change` lists. -/
theorem run_change (op : Op) (s : Store G) : Change segment s op (op.run segment s).1 := by
  cases op with
  | addNode node =>
    rw [run_addNode]
    split
    · exact .same
    · exact .nodeAdded rfl ‹_›
  | findNodeByVid vid =>
    rw [run_findNodeByVid]
    exact .same
  | removeNode vid =>
    rw [run_removeNode]
    cases hlookup : s.nodeCache.lookup vid with
    | none => exact .same
    | some idx => exact .nodeRemoved rfl hlookup
  | updateNode vid data =>
    rw [run_updateNode]
    cases hborrow : (s.nodeCache.lookup vid).bind (Graph.nodeWeightMut s.inner) with
    | none => exact .same
    | some borrow =>
      obtain ⟨idx, hlookup, hborrow⟩ := Option.bind_eq_some_iff.mp hborrow
      exact .nodeUpdated rfl hlookup hborrow
  | addEdge fromVid toVid edge =>
    have hexit := run_addEdge_exit segment fromVid toVid edge s
    generalize (Op.addEdge fromVid toVid edge).run segment s = out at hexit ⊢
    cases hexit with
    -- every other exit leaves the store as it is
    | added hkey hfrom hto hadd => exact .edgeAdded rfl hkey hfrom hto hadd
    | _ => exact .same
  | updateEdge edgeVid data => exact change_updateEdgeAt rfl _ s
  | updateEdgeByNode fromVid toVid data => exact change_updateEdgeAt rfl _ s
  | removeEdge edgeVid => exact change_removeEdgeAt rfl s
  | removeEdgeByNode fromVid toVid => exact change_removeEdgeAt rfl s

end MemoryGraph
