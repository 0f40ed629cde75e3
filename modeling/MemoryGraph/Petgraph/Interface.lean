import MemoryGraph.Petgraph.SwapRemove

/-!
# Petgraph — the graph library as the store sees it

petgraph's `Graph<N, E, Ty>` is not part of the repository. The store calls seven of its
operations and is observed by its node and edge arrays. Both are a parameter here: `Graph`
names the operations, and `LawfulGraph` states what petgraph documents about them.

* A mutable borrow (`node_weight_mut`, `edge_weight_mut`) is the current value together
  with its write-back.
* `add_edge` panics on an endpoint out of range; a panic is `none`.
* `remove_node` removes the incident edges by single `remove_edge` steps whose order is
  left open (`DropsIncident`), then swaps the last node into the free place.

`NodeIndex` and `EdgeIndex` are natural numbers; petgraph's limit of `2^32 - 1` nodes and
edges is not modelled.
-/

namespace Petgraph

/-- petgraph's `Edge<E>`: the weight and the two endpoints, in the order given to `add_edge`. -/
structure Edge (E : Type) where
  weight : E
  source : Nat
  target : Nat
  deriving DecidableEq, Repr

namespace Edge

variable {E : Type}

def Incident (a : Nat) (e : Edge E) : Prop := e.source = a ∨ e.target = a

instance (a : Nat) (e : Edge E) : Decidable (e.Incident a) := by
  unfold Incident; infer_instance

/-- The edge after the node `last` moved to the place `a`. -/
def renumber (last a : Nat) (e : Edge E) : Edge E :=
  { e with
    source := Petgraph.renumber last a e.source
    target := Petgraph.renumber last a e.target }

@[simp] theorem weight_renumber (last a : Nat) (e : Edge E) :
    (e.renumber last a).weight = e.weight := rfl

@[simp] theorem source_renumber (last a : Nat) (e : Edge E) :
    (e.renumber last a).source = Petgraph.renumber last a e.source := rfl

@[simp] theorem target_renumber (last a : Nat) (e : Edge E) :
    (e.renumber last a).target = Petgraph.renumber last a e.target := rfl

end Edge

/-- `DropsIncident a es es'`: removing edges with an endpoint in `a`, one `swap_remove` at a
time and in some order, until there is none left, leads from `es` to `es'`. -/
inductive DropsIncident {E : Type} (a : Nat) : List (Edge E) → List (Edge E) → Prop where
  | done {es : List (Edge E)} (hnone : ∀ e ∈ es, ¬ e.Incident a) : DropsIncident a es es
  | drop {es es' : List (Edge E)} {i : Nat} {e : Edge E} (hget : es[i]? = some e)
      (hincident : e.Incident a) (hrest : DropsIncident a (swapRemove es i) es') :
      DropsIncident a es es'

/-- The operations of petgraph's `Graph<N, E, Ty>` that the store calls, and the two arrays
it is observed by. -/
class Graph (G : Type) (N E : outParam Type) where
  /-- `Ty::is_directed()`. -/
  isDirected : Bool
  /-- `raw_nodes()`: the node weights in index order. -/
  rawNodes : G → List N
  /-- `raw_edges()`: the edges in index order. -/
  rawEdges : G → List (Edge E)
  addNode : G → N → Nat × G
  nodeWeight : G → Nat → Option N
  nodeWeightMut : G → Nat → Option (N × (N → G))
  removeNode : G → Nat → Option N × G
  /-- `none` is the panic on an endpoint out of range. -/
  addEdge : G → Nat → Nat → E → Option (Nat × G)
  edgeWeightMut : G → Nat → Option (E × (E → G))
  removeEdge : G → Nat → Option E × G

/-- A graph without nodes and edges, such as `Graph::new()` or `Graph::with_capacity(..)`. -/
def Graph.IsEmpty {G N E : Type} [Graph G N E] (g : G) : Prop :=
  Graph.rawNodes g = [] ∧ Graph.rawEdges g = []

open Petgraph.Graph

/-- What petgraph documents about these operations. -/
class LawfulGraph (G : Type) {N E : outParam Type} [Graph G N E] : Prop where
  addNode_index (g : G) (n : N) : (addNode g n).1 = (rawNodes g).length
  rawNodes_addNode (g : G) (n : N) : rawNodes (addNode g n).2 = rawNodes g ++ [n]
  rawEdges_addNode (g : G) (n : N) : rawEdges (addNode g n).2 = rawEdges g
  nodeWeight_eq (g : G) (i : Nat) : nodeWeight g i = (rawNodes g)[i]?
  nodeWeightMut_value (g : G) (i : Nat) : (nodeWeightMut g i).map Prod.fst = (rawNodes g)[i]?
  rawNodes_nodeWeightMut {g : G} {i : Nat} {n : N} {put : N → G}
    (h : nodeWeightMut g i = some (n, put)) (n' : N) : rawNodes (put n') = (rawNodes g).set i n'
  rawEdges_nodeWeightMut {g : G} {i : Nat} {n : N} {put : N → G}
    (h : nodeWeightMut g i = some (n, put)) (n' : N) : rawEdges (put n') = rawEdges g
  removeNode_out_of_range {g : G} {a : Nat} (h : (rawNodes g).length ≤ a) :
    removeNode g a = (none, g)
  rawNodes_removeNode {g : G} {a : Nat} (h : a < (rawNodes g).length) :
    rawNodes (removeNode g a).2 = swapRemove (rawNodes g) a
  rawEdges_removeNode {g : G} {a : Nat} (h : a < (rawNodes g).length) :
    ∃ es, DropsIncident a (rawEdges g) es ∧
      rawEdges (removeNode g a).2 = es.map (Edge.renumber ((rawNodes g).length - 1) a)
  addEdge_panics {g : G} {a b : Nat} {e : E}
    (h : (rawNodes g).length ≤ a ∨ (rawNodes g).length ≤ b) : addEdge g a b e = none
  addEdge_in_range {g : G} {a b : Nat} {e : E} (ha : a < (rawNodes g).length)
    (hb : b < (rawNodes g).length) :
    ∃ g', addEdge g a b e = some ((rawEdges g).length, g') ∧ rawNodes g' = rawNodes g ∧
      rawEdges g' = rawEdges g ++ [⟨e, a, b⟩]
  edgeWeightMut_value (g : G) (i : Nat) :
    (edgeWeightMut g i).map Prod.fst = (rawEdges g)[i]?.map Edge.weight
  rawNodes_edgeWeightMut {g : G} {i : Nat} {e : E} {put : E → G}
    (h : edgeWeightMut g i = some (e, put)) (e' : E) : rawNodes (put e') = rawNodes g
  rawEdges_edgeWeightMut {g : G} {i : Nat} {e : E} {put : E → G}
    (h : edgeWeightMut g i = some (e, put)) (e' : E) :
    rawEdges (put e') = (rawEdges g).modify i fun edge => { edge with weight := e' }
  removeEdge_out_of_range {g : G} {i : Nat} (h : (rawEdges g).length ≤ i) :
    removeEdge g i = (none, g)
  rawNodes_removeEdge (g : G) (i : Nat) : rawNodes (removeEdge g i).2 = rawNodes g
  rawEdges_removeEdge {g : G} {i : Nat} (h : i < (rawEdges g).length) :
    rawEdges (removeEdge g i).2 = swapRemove (rawEdges g) i

/-! ## What follows from the laws -/

namespace LawfulGraph

variable {G N E : Type} [Graph G N E] [LawfulGraph G] {g : G}

/-- A mutable borrow of a node is there exactly when the index is in range, and reads the
node at it. -/
theorem nodeWeightMut_eq_some {i : Nat} {n : N} {put : N → G}
    (h : nodeWeightMut g i = some (n, put)) : (rawNodes g)[i]? = some n := by
  rw [← nodeWeightMut_value, h]
  rfl

theorem nodeWeightMut_eq_none {i : Nat} (h : nodeWeightMut g i = none) :
    (rawNodes g)[i]? = none := by
  rw [← nodeWeightMut_value, h]
  rfl

theorem edgeWeightMut_eq_some {i : Nat} {e : E} {put : E → G}
    (h : edgeWeightMut g i = some (e, put)) :
    ∃ edge, (rawEdges g)[i]? = some edge ∧ edge.weight = e := by
  have hvalue := edgeWeightMut_value g i
  rw [h] at hvalue
  simpa using hvalue.symm

theorem edgeWeightMut_eq_none {i : Nat} (h : edgeWeightMut g i = none) :
    (rawEdges g)[i]? = none := by
  have hvalue := edgeWeightMut_value g i
  rw [h] at hvalue
  simpa using hvalue.symm

/-- `add_edge` succeeds exactly on two endpoints in range, and appends one edge. -/
theorem addEdge_eq_some {a b : Nat} {e : E} {i : Nat} {g' : G}
    (h : addEdge g a b e = some (i, g')) :
    a < (rawNodes g).length ∧ b < (rawNodes g).length ∧ i = (rawEdges g).length ∧
      rawNodes g' = rawNodes g ∧ rawEdges g' = rawEdges g ++ [⟨e, a, b⟩] := by
  by_cases hrange : a < (rawNodes g).length ∧ b < (rawNodes g).length
  · obtain ⟨g'', hadd, hnodes, hedges⟩ := addEdge_in_range (e := e) hrange.1 hrange.2
    obtain ⟨rfl, rfl⟩ : (rawEdges g).length = i ∧ g'' = g' := by simpa [h] using hadd.symm
    exact ⟨hrange.1, hrange.2, rfl, hnodes, hedges⟩
  · have hout : (rawNodes g).length ≤ a ∨ (rawNodes g).length ≤ b :=
      (not_and_or.mp hrange).imp Nat.le_of_not_lt Nat.le_of_not_lt
    rw [addEdge_panics hout] at h
    simp at h

theorem mem_of_mem_removeNode {a : Nat} {n : N}
    (h : n ∈ rawNodes (removeNode g a).2) : n ∈ rawNodes g := by
  rcases Nat.lt_or_ge a (rawNodes g).length with hlt | hge
  · rw [rawNodes_removeNode hlt] at h
    exact mem_of_mem_swapRemove hlt h
  · rw [removeNode_out_of_range hge] at h
    exact h

end LawfulGraph

/-- Where nothing is incident, nothing is dropped, and so nothing is moved. -/
theorem DropsIncident.eq_of_none {E : Type} {a : Nat} {es es' : List (Edge E)}
    (h : DropsIncident a es es') (hnone : ∀ e ∈ es, ¬ e.Incident a) : es' = es := by
  cases h with
  | done _ => rfl
  | drop hget hincident _ => exact absurd hincident (hnone _ (List.mem_of_getElem? hget))

end Petgraph
