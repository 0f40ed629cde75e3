import MemoryGraph.Petgraph.Interface

/-!
# Petgraph — a graph on two lists

A computable instance of the interface: the node and edge arrays as lists, with `remove_node`
dropping the incident edge of lowest index first. It satisfies every law petgraph documents
(`instLawfulGraph`), so nothing assumed about petgraph is contradictory, and concrete runs
of the store can be evaluated on it.

petgraph itself drops the incident edges in another order: it goes through the list of edges that
leave the node, newest first, and then through that of the edges that come in. `DropsIncident`
leaves the order open, so what is proved from the laws holds of both. Only where the edges that
remain end up after the removal of a node with several edges is a matter of the instance.
-/

namespace Petgraph

/-- The node and edge arrays. `directed` stands for the type parameter `Ty`. -/
structure ListGraph (directed : Bool) (N E : Type) where
  nodes : List N
  edges : List (Edge E)
  deriving DecidableEq, Repr

namespace ListGraph

variable {directed : Bool} {N E : Type}

/-- `Graph::new()`. -/
def empty : ListGraph directed N E := ⟨[], []⟩

/-- Drop incident edges, lowest index first; `fuel` bounds their number. -/
def dropIncident (a : Nat) : Nat → List (Edge E) → List (Edge E)
  | 0, es => es
  | fuel + 1, es =>
    match es.findIdx? (fun e => e.Incident a) with
    | none => es
    | some i => dropIncident a fuel (swapRemove es i)

/-- The loop drops the incident edges one by one, each by a swap. There is fuel for as many rounds
as there are edges. -/
theorem dropsIncident_dropIncident (a : Nat) :
    ∀ (fuel : Nat) (es : List (Edge E)), es.length ≤ fuel →
      DropsIncident a es (dropIncident a fuel es) := by
  intro fuel
  induction fuel with
  | zero =>
    intro es hlen
    obtain rfl : es = [] := by simpa using hlen
    exact .done (by simp)
  | succ fuel ih =>
    intro es hlen
    unfold dropIncident
    cases hfind : es.findIdx? (fun e => e.Incident a) with
    | none => exact .done (by simpa using List.findIdx?_eq_none_iff.mp hfind)
    | some i =>
      obtain ⟨hi, hincident, -⟩ := List.findIdx?_eq_some_iff_getElem.mp hfind
      -- each drop shortens the array, so the fuel lasts
      have hlen' := length_swapRemove hi
      exact .drop (List.getElem?_eq_getElem hi) (by simpa using hincident) (ih _ (by omega))

instance : Graph (ListGraph directed N E) N E where
  isDirected := directed
  rawNodes g := g.nodes
  rawEdges g := g.edges
  addNode g n := (g.nodes.length, { g with nodes := g.nodes ++ [n] })
  nodeWeight g i := g.nodes[i]?
  nodeWeightMut g i := g.nodes[i]?.map fun n => (n, fun n' => { g with nodes := g.nodes.set i n' })
  removeNode g a :=
    match g.nodes[a]? with
    | none => (none, g)
    | some n =>
      (some n,
        ⟨swapRemove g.nodes a,
          (dropIncident a g.edges.length g.edges).map (Edge.renumber (g.nodes.length - 1) a)⟩)
  addEdge g a b e :=
    if a < g.nodes.length ∧ b < g.nodes.length then
      some (g.edges.length, { g with edges := g.edges ++ [⟨e, a, b⟩] })
    else none
  edgeWeightMut g i :=
    g.edges[i]?.map fun edge =>
      (edge.weight,
        fun e' => { g with edges := g.edges.modify i fun edge => { edge with weight := e' } })
  removeEdge g i :=
    match g.edges[i]? with
    | none => (none, g)
    | some edge => (some edge.weight, { g with edges := swapRemove g.edges i })

open Petgraph.Graph in
instance instLawfulGraph : LawfulGraph (ListGraph directed N E) where
  addNode_index _ _ := rfl
  rawNodes_addNode _ _ := rfl
  rawEdges_addNode _ _ := rfl
  nodeWeight_eq _ _ := rfl
  nodeWeightMut_value g i := by simp [nodeWeightMut, rawNodes, Function.comp_def]
  rawNodes_nodeWeightMut h n' := by
    obtain ⟨n, -, heq⟩ := Option.map_eq_some_iff.mp h
    cases heq
    rfl
  rawEdges_nodeWeightMut h n' := by
    obtain ⟨n, -, heq⟩ := Option.map_eq_some_iff.mp h
    cases heq
    rfl
  removeNode_out_of_range {g a} h := by
    have hget : g.nodes[a]? = none := List.getElem?_eq_none h
    simp [removeNode, hget]
  rawNodes_removeNode {g a} h := by
    have hget : g.nodes[a]? = some g.nodes[a] := List.getElem?_eq_getElem h
    simp [removeNode, rawNodes, hget]
  rawEdges_removeNode {g a} h := by
    have hget : g.nodes[a]? = some g.nodes[a] := List.getElem?_eq_getElem h
    refine ⟨_, dropsIncident_dropIncident a g.edges.length g.edges (Nat.le_refl _), ?_⟩
    simp [removeNode, rawNodes, rawEdges, hget]
  addEdge_panics {g a b e} h := by
    have hnot : ¬ (a < g.nodes.length ∧ b < g.nodes.length) := by
      rintro ⟨ha, hb⟩
      exact h.elim (Nat.not_le_of_lt ha) (Nat.not_le_of_lt hb)
    simp [addEdge, hnot]
  addEdge_in_range {g a b e} ha hb := ⟨_, if_pos ⟨ha, hb⟩, rfl, rfl⟩
  edgeWeightMut_value g i := by simp [edgeWeightMut, rawEdges, Function.comp_def]
  rawNodes_edgeWeightMut h e' := by
    obtain ⟨e, -, heq⟩ := Option.map_eq_some_iff.mp h
    cases heq
    rfl
  rawEdges_edgeWeightMut h e' := by
    obtain ⟨e, -, heq⟩ := Option.map_eq_some_iff.mp h
    cases heq
    rfl
  removeEdge_out_of_range {g i} h := by
    have hget : g.edges[i]? = none := List.getElem?_eq_none h
    simp [removeEdge, hget]
  rawNodes_removeEdge g i := by
    cases hget : g.edges[i]? <;> simp [removeEdge, rawNodes, hget]
  rawEdges_removeEdge {g i} h := by
    have hget : g.edges[i]? = some g.edges[i] := List.getElem?_eq_getElem h
    simp [removeEdge, rawEdges, hget]

end ListGraph

end Petgraph
