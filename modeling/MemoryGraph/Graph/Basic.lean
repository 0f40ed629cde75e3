import Mathlib.Data.Finmap
import MemoryGraph.Conc.Proc
import MemoryGraph.Petgraph.ListGraph

/-!
# MemoryGraph — the graph store (`src/controller/graph.rs`)

A `GraphInstance` guards three structures with a lock each: the petgraph graph `inner`, and
two maps into its arrays, `node_cache` from vids to node indices and `edge_cache` from edge
keys to edge indices. The nine public operations below are written as lock sections
(`Conc.Proc`): between two sections a call holds no guard.

* A `HashMap<String, V>` is a `Dict V`, Mathlib's `Finmap`; capacities are dropped.
* petgraph is a parameter `G` with `Petgraph.Graph G NodeM EdgeM`; its panic in `add_edge`
  unwinds through the guards, so a call that panics ends with the reply `panicked`.
* Seven of the nine operations look an index up in one cache and then act on `inner` in a
  second section. They are instances of `resolve`.
-/

namespace MemoryGraph

open Conc Petgraph

/-- `HashMap<String, V>`. -/
abbrev Dict (V : Type) := Finmap fun _ : String => V

/-- `HashMap::extend`: the entries of `new` replace those of `old`. -/
def Dict.extend {V : Type} (old new : Dict V) : Dict V := new ∪ old

structure NodeM where
  vid : String
  data : Dict String
  deriving DecidableEq

structure EdgeM where
  weight : Nat
  srcVid : String
  dstVid : String
  data : Dict String
  deriving DecidableEq

inductive GraphError where
  | nodeExistsError (vid : String)
  | nodeNotFound (vid : String)
  | edgeExists (fromVid toVid : String)
  | edgeNotFound (edge : String)
  deriving DecidableEq

/-- The `#[error("..")]` texts. -/
instance : ToString GraphError where
  toString
    | .nodeExistsError vid => "Node with VID '" ++ vid ++ "' already exists"
    | .nodeNotFound vid => "Node '" ++ vid ++ "' not found"
    | .edgeExists fromVid toVid =>
      "Edge between '" ++ fromVid ++ "' and '" ++ toVid ++ "' already exists"
    | .edgeNotFound edge => "Edge '" ++ edge ++ "' not found"

/-- What a call returns. The `Result`, `Option` and `bool` of the nine signatures are told
apart by their constructor; `panicked` is the unwinding out of petgraph's `add_edge`. -/
inductive Reply where
  | nodeIndex (result : Except GraphError Nat)
  | node (result : Option NodeM)
  | flag (result : Bool)
  | edgeIndex (result : Except GraphError Nat)
  | unit (result : Except GraphError Unit)
  | panicked
  deriving DecidableEq

/-- The three locks of an instance. -/
inductive Lock where
  | inner
  | nodeCache
  | edgeCache
  deriving DecidableEq, Repr

/-- What the three locks guard. -/
structure Store (G : Type) where
  inner : G
  nodeCache : Dict Nat
  edgeCache : Dict Nat
  deriving DecidableEq

/-- `GraphInstance<Ty>`; `Ty` is part of `G`. -/
structure GraphInstance (G : Type) where
  segment : String
  store : Store G

/-- `GraphInstance::new`. The two capacities have no observable effect. -/
def GraphInstance.new {G : Type} (_nodeCache _edgeCache : Nat) (graph : G) : GraphInstance G where
  segment := "_"
  store := ⟨graph, ∅, ∅⟩

/-- `format!("{}{}{}", from_vid, self.segment, to_vid)`. -/
def edgeKey (segment fromVid toVid : String) : String := fromVid ++ segment ++ toVid

/-- One of the nine operations on the store, in lock sections. -/
abbrev Call (G : Type) := Proc (Store G) Lock Reply

variable {G : Type} [Graph G NodeM EdgeM]

/-! ## The two insertions -/

def addNode (node : NodeM) : Call G :=
  let vid := node.vid
  .critical [(.nodeCache, .read)] fun self =>
    if vid ∈ self.nodeCache then
      (self, .ret (.nodeIndex (.error (.nodeExistsError vid))))
    else
      (self, .critical [(.inner, .write), (.nodeCache, .write)] fun self =>
        -- the cache may have changed since the first look
        if vid ∈ self.nodeCache then
          (self, .ret (.nodeIndex (.error (.nodeExistsError vid))))
        else
          let added := Graph.addNode self.inner node
          ({ self with inner := added.2, nodeCache := self.nodeCache.insert vid added.1 },
            .ret (.nodeIndex (.ok added.1))))

def addEdge (segment fromVid toVid : String) (edge : EdgeM) : Call G :=
  let key := edgeKey segment fromVid toVid
  .critical [(.edgeCache, .read), (.nodeCache, .read)] fun self =>
    if key ∈ self.edgeCache then
      (self, .ret (.edgeIndex (.error (.edgeExists fromVid toVid))))
    else
      match self.nodeCache.lookup fromVid, self.nodeCache.lookup toVid with
      | none, _ => (self, .ret (.edgeIndex (.error (.nodeNotFound fromVid))))
      | some _, none => (self, .ret (.edgeIndex (.error (.nodeNotFound toVid))))
      | some fromIndex, some toIndex =>
        (self, .critical [(.inner, .write), (.edgeCache, .write)] fun self =>
          -- only `edge_cache` is looked at again; the node indices are from the first section
          if key ∈ self.edgeCache then
            (self, .ret (.edgeIndex (.error (.edgeExists fromVid toVid))))
          else
            match Graph.addEdge self.inner fromIndex toIndex edge with
            | none => (self, .ret .panicked)
            | some (index, graph) =>
              ({ self with inner := graph, edgeCache := self.edgeCache.insert key index },
                .ret (.edgeIndex (.ok index))))

/-! ## The operations that resolve an index first -/

/-- Look an index up in the cache behind `lock`; if it is there, act on the graph with it,
under `inner` in mode `mode`, else reply `absent`. -/
def resolve (lock : Lock) (lookup : Store G → Option Nat) (absent : Reply) (mode : Mode)
    (act : Nat → Store G → Store G × Reply) : Call G :=
  .critical [(lock, .read)] fun self =>
    match lookup self with
    | some idx =>
      (self, .critical [(.inner, mode)] fun self => ((act idx self).1, .ret (act idx self).2))
    | none => (self, .ret absent)

/-- `resolve` through `node_cache`. -/
def resolveNode (vid : String) : Reply → Mode → (Nat → Store G → Store G × Reply) → Call G :=
  resolve .nodeCache fun self => self.nodeCache.lookup vid

/-- `resolve` through `edge_cache`. -/
def resolveEdge (key : String) : Reply → Mode → (Nat → Store G → Store G × Reply) → Call G :=
  resolve .edgeCache fun self => self.edgeCache.lookup key

def findNodeByVid (vid : String) : Call G :=
  resolveNode vid (.node none) .read fun idx self => (self, .node (Graph.nodeWeight self.inner idx))

def removeNode (vid : String) : Call G :=
  resolveNode vid (.flag false) .write fun idx self =>
    ({ self with inner := (Graph.removeNode self.inner idx).2 }, .flag true)

def updateNode (vid : String) (data : Dict String) : Call G :=
  resolveNode vid (.flag false) .write fun idx self =>
    match Graph.nodeWeightMut self.inner idx with
    | some (node, put) => ({ self with inner := put { node with data := data } }, .flag true)
    | none => (self, .flag false)

/-- The body that `update_edge` and `update_edge_by_node` share, up to the key and the error. -/
def updateEdgeAt (key : String) (missing : GraphError) (data : Dict String) : Call G :=
  resolveEdge key (.unit (.error missing)) .write fun idx self =>
    match Graph.edgeWeightMut self.inner idx with
    | some (edge, put) =>
      ({ self with inner := put { edge with data := edge.data.extend data } }, .unit (.ok ()))
    | none => (self, .unit (.error missing))

def updateEdge (edgeVid : String) (data : Dict String) : Call G :=
  updateEdgeAt edgeVid (.edgeNotFound edgeVid) data

def updateEdgeByNode (segment fromVid toVid : String) (data : Dict String) : Call G :=
  updateEdgeAt (edgeKey segment fromVid toVid) (.edgeNotFound (fromVid ++ "->" ++ toVid)) data

/-- The body that `remove_edge` and `remove_edge_by_node` share, up to the key. -/
def removeEdgeAt (key : String) : Call G :=
  resolveEdge key (.flag false) .write fun idx self =>
    ({ self with inner := (Graph.removeEdge self.inner idx).2 }, .flag true)

def removeEdge (edgeVid : String) : Call G := removeEdgeAt edgeVid

def removeEdgeByNode (segment fromVid toVid : String) : Call G :=
  removeEdgeAt (edgeKey segment fromVid toVid)

/-! ## Calls as data -/

/-- A call of a public operation with its arguments. -/
inductive Op where
  | addNode (node : NodeM)
  | findNodeByVid (vid : String)
  | removeNode (vid : String)
  | updateNode (vid : String) (data : Dict String)
  | addEdge (fromVid toVid : String) (edge : EdgeM)
  | updateEdge (edgeVid : String) (data : Dict String)
  | updateEdgeByNode (fromVid toVid : String) (data : Dict String)
  | removeEdge (edgeVid : String)
  | removeEdgeByNode (fromVid toVid : String)
  deriving DecidableEq

namespace Op

/-- The code a call runs. -/
def call (segment : String) : Op → Call G
  | addNode node => MemoryGraph.addNode node
  | findNodeByVid vid => MemoryGraph.findNodeByVid vid
  | removeNode vid => MemoryGraph.removeNode vid
  | updateNode vid data => MemoryGraph.updateNode vid data
  | addEdge fromVid toVid edge => MemoryGraph.addEdge segment fromVid toVid edge
  | updateEdge edgeVid data => MemoryGraph.updateEdge edgeVid data
  | updateEdgeByNode fromVid toVid data => MemoryGraph.updateEdgeByNode segment fromVid toVid data
  | removeEdge edgeVid => MemoryGraph.removeEdge edgeVid
  | removeEdgeByNode fromVid toVid => MemoryGraph.removeEdgeByNode segment fromVid toVid

/-- The call run to its end with no other call in between. -/
def run (segment : String) (op : Op) (s : Store G) : Store G × Reply := (op.call segment).run s

end Op

/-- The calls run one after another, with their replies in order. -/
def runAll (segment : String) (ops : List Op) (s : Store G) : Store G × List Reply :=
  Proc.runAll (ops.map (Op.call segment)) s

theorem runAll_append (segment : String) (ops ops' : List Op) (s : Store G) :
    (runAll segment (ops ++ ops') s).1 = (runAll segment ops' (runAll segment ops s).1).1 := by
  rw [runAll, List.map_append, Proc.runAll_append]
  rfl

theorem runAll_concat (segment : String) (ops : List Op) (op : Op) (s : Store G) :
    (runAll segment (ops ++ [op]) s).1 = (op.run segment (runAll segment ops s).1).1 :=
  runAll_append segment ops [op] s

/-- What holds at the start and is kept by each of the calls holds at the end. -/
theorem runAll_induction {segment : String} {motive : Store G → Prop} {ops : List Op}
    {s : Store G} (hstart : motive s)
    (hstep : ∀ op ∈ ops, ∀ s, motive s → motive (op.run segment s).1) :
    motive (runAll segment ops s).1 := by
  refine Proc.runAll_induction hstart fun p hp s' hs' => ?_
  obtain ⟨op, hop, rfl⟩ := List.mem_map.mp hp
  exact hstep op hop s' hs'

/-- A sequence of calls on an instance. -/
def GraphInstance.runAll (self : GraphInstance G) (ops : List Op) : Store G × List Reply :=
  MemoryGraph.runAll self.segment ops self.store

/-! ## A concrete instance -/

/-- An instance on an empty directed list graph, on which runs can be evaluated. -/
def GraphInstance.blank : GraphInstance (ListGraph true NodeM EdgeM) := .new 0 0 .empty

end MemoryGraph
