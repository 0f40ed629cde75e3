import Mathlib.Data.Multiset.Filter
import MemoryGraph.Petgraph.Interface

/-!
# Petgraph — a graph without its numbering

petgraph numbers nodes and edges, and renumbers some of them on every removal. Give each node
a name. Up to numbering, a graph is a multiset of nodes and a multiset of **links**: edges with
their ends by name (`named`). As long as the names are distinct and every edge has its ends in
range (`EndsInRange`, which every operation keeps), each operation of petgraph does to the named
graph what its documentation says, and no renumbering shows.

The names are a function of the node weights; nothing else is assumed of them.
-/

namespace Petgraph

variable {V N E : Type}

/-- An edge with its ends by name. -/
structure Link (V E : Type) where
  source : V
  target : V
  weight : E
  deriving DecidableEq

def Link.Incident (v : V) (l : Link V E) : Prop := l.source = v ∨ l.target = v

instance [DecidableEq V] (v : V) (l : Link V E) : Decidable (l.Incident v) := by
  unfold Link.Incident; infer_instance

/-- The edge with its ends looked up among the names, when both are in range. -/
def link? (names : List V) (e : Edge E) : Option (Link V E) :=
  names[e.source]?.bind fun source => names[e.target]?.map fun target => ⟨source, target, e.weight⟩

/-- A link has the names of the ends of its edge, and its weight. -/
theorem link?_eq_some {names : List V} {e : Edge E} {l : Link V E} :
    link? names e = some l ↔
      names[e.source]? = some l.source ∧ names[e.target]? = some l.target ∧
        e.weight = l.weight := by
  obtain ⟨source, target, weight⟩ := l
  rw [link?]
  cases names[e.source]? <;> cases names[e.target]? <;> simp

theorem link?_isSome {names : List V} {e : Edge E} (hsource : e.source < names.length)
    (htarget : e.target < names.length) : ∃ l, link? names e = some l :=
  ⟨⟨names[e.source], names[e.target], e.weight⟩, by
    simp [link?, List.getElem?_eq_getElem hsource, List.getElem?_eq_getElem htarget]⟩

/-- More names at the end do not matter to an edge that has its ends in range. -/
theorem link?_append {names : List V} {e : Edge E} (hsource : e.source < names.length)
    (htarget : e.target < names.length) (more : List V) :
    link? (names ++ more) e = link? names e := by
  rw [link?, link?, List.getElem?_append_left hsource, List.getElem?_append_left htarget]

/-- A graph up to numbering. -/
structure Named (V N E : Type) where
  nodes : Multiset N
  links : Multiset (Link V E)

namespace Named

def addNode (n : N) (g : Named V N E) : Named V N E := { g with nodes := n ::ₘ g.nodes }

def setNode [DecidableEq N] (n n' : N) (g : Named V N E) : Named V N E :=
  { g with nodes := n' ::ₘ g.nodes.erase n }

/-- The nodes named `v` leave with the links that end in them. -/
def dropNode [DecidableEq V] (name : N → V) (v : V) (g : Named V N E) : Named V N E where
  nodes := g.nodes.filter fun n => name n ≠ v
  links := g.links.filter fun l => ¬ l.Incident v

def addLink (l : Link V E) (g : Named V N E) : Named V N E := { g with links := l ::ₘ g.links }

def setLink [DecidableEq V] [DecidableEq E] (l l' : Link V E) (g : Named V N E) : Named V N E :=
  { g with links := l' ::ₘ g.links.erase l }

def dropLink [DecidableEq V] [DecidableEq E] (l : Link V E) (g : Named V N E) : Named V N E :=
  { g with links := g.links.erase l }

end Named

/-! ## What `remove_node` does to the edges -/

/-- Removing the incident edges one by one leaves the others, in some order. -/
theorem DropsIncident.perm {a : Nat} {es es' : List (Edge E)} (h : DropsIncident a es es') :
    es'.Perm (es.filter fun e => ¬ e.Incident a) := by
  induction h with
  | @done es hnone =>
    rw [List.filter_eq_self.mpr fun e he => by simpa using hnone e he]
  | @drop es es' i e hget hincident _ ih =>
    refine ih.trans ?_
    have hperm := (perm_cons_swapRemove hget).filter fun e => decide (¬ e.Incident a)
    rw [List.filter_cons_of_neg (by simpa using hincident)] at hperm
    exact hperm.symm

/-! ## The operations by name -/

section Laws

open Petgraph.Graph

variable {G : Type} [Graph G N E] {g g' : G}

/-- The graph `g` without its numbering. -/
def named (name : N → V) (g : G) : Named V N E where
  nodes := rawNodes g
  links := (rawEdges g).filterMap (link? ((rawNodes g).map name))

/-- Every edge has both its ends among the nodes. -/
def EndsInRange (g : G) : Prop :=
  ∀ e ∈ rawEdges g, e.source < (rawNodes g).length ∧ e.target < (rawNodes g).length

theorem EndsInRange.of_isEmpty (h : Graph.IsEmpty g) : EndsInRange g := by
  simp [EndsInRange, h.2]

/-- In a graph with its ends in range every edge is a link. -/
theorem EndsInRange.exists_link (h : EndsInRange g) (name : N → V) {e : Edge E}
    (he : e ∈ rawEdges g) : ∃ l, link? ((rawNodes g).map name) e = some l := by
  obtain ⟨hsource, htarget⟩ := h e he
  exact link?_isSome (by simpa using hsource) (by simpa using htarget)

/-- With all ends in range, the named graph has as many links as the graph has edges. -/
theorem EndsInRange.card_links (h : EndsInRange g) (name : N → V) :
    (named name g).links.card = (rawEdges g).length := by
  refine List.filterMap_length_eq_length.mpr fun e he => ?_
  obtain ⟨l, hl⟩ := h.exists_link name he
  rw [hl]
  rfl

variable [LawfulGraph G] {name : N → V}

/-- A new node comes at the end, so the ends of the edges stay what they were. -/
theorem EndsInRange.addNode (h : EndsInRange g) (n : N) : EndsInRange (addNode g n).2 := by
  intro e he
  rw [LawfulGraph.rawEdges_addNode] at he
  rw [LawfulGraph.rawNodes_addNode, List.length_append]
  obtain ⟨hsource, htarget⟩ := h e he
  exact ⟨by omega, by omega⟩

theorem named_addNode (h : EndsInRange g) (n : N) :
    named name (addNode g n).2 = (named name g).addNode n := by
  have hlinks : ∀ e ∈ rawEdges g,
      link? ((rawNodes g ++ [n]).map name) e = link? ((rawNodes g).map name) e := by
    intro e he
    obtain ⟨hsource, htarget⟩ := h e he
    rw [List.map_append, link?_append (by simpa using hsource) (by simpa using htarget)]
  rw [named, LawfulGraph.rawNodes_addNode, LawfulGraph.rawEdges_addNode,
    List.filterMap_congr hlinks]
  simp only [Named.addNode, named, Named.mk.injEq, and_true]
  exact Multiset.coe_eq_coe.mpr (List.perm_append_singleton n _)

/-- What `remove_node` leaves of the edges: those without an end in the node, renumbered. -/
theorem exists_edges_removeNode {a : Nat} (ha : a < (rawNodes g).length) :
    ∃ es : List (Edge E), es.Perm ((rawEdges g).filter fun e => ¬ e.Incident a) ∧
      rawEdges (removeNode g a).2 = es.map (Edge.renumber ((rawNodes g).length - 1) a) ∧
      ∀ e ∈ es, e ∈ rawEdges g ∧ ¬ e.Incident a := by
  obtain ⟨es, hdrops, hedges⟩ := LawfulGraph.rawEdges_removeNode ha
  refine ⟨es, hdrops.perm, hedges, fun e he => ?_⟩
  simpa using List.mem_filter.mp (hdrops.perm.mem_iff.mp he)

/-- The edges that are left are renumbered like the node that moves. -/
theorem EndsInRange.removeNode (h : EndsInRange g) (a : Nat) :
    EndsInRange (Graph.removeNode g a).2 := by
  rcases Nat.lt_or_ge a (rawNodes g).length with ha | ha
  · obtain ⟨es, -, hedges, hes⟩ := exists_edges_removeNode ha
    intro e' he'
    rw [hedges] at he'
    obtain ⟨e, he, rfl⟩ := List.mem_map.mp he'
    obtain ⟨hmem, hnot⟩ := hes e he
    obtain ⟨hsource, htarget⟩ := h e hmem
    have hlen := length_swapRemove ha
    rw [LawfulGraph.rawNodes_removeNode ha]
    -- an end in the last node is now at `a`, which is not the last index
    obtain ⟨hsource', htarget'⟩ : e.source ≠ a ∧ e.target ≠ a := not_or.mp hnot
    simp only [Edge.source_renumber, Edge.target_renumber, renumber]
    constructor <;> split <;> omega
  · rw [LawfulGraph.removeNode_out_of_range ha]
    exact h

/-- Where no two nodes share a name, an end is in the node exactly when it has its name. -/
theorem link?_incident {names : List V} (hnames : names.Nodup) {a : Nat} {v : V}
    (ha : names[a]? = some v) {e : Edge E} {l : Link V E} (hl : link? names e = some l) :
    l.Incident v ↔ e.Incident a := by
  obtain ⟨hsource, htarget, -⟩ := link?_eq_some.mp hl
  have hend : ∀ {i w}, names[i]? = some w → (w = v ↔ i = a) := by
    intro i w hi
    constructor
    · rintro rfl
      exact (List.getElem?_inj (List.getElem?_eq_some_iff.mp hi).1 hnames).mp (hi.trans ha.symm)
    · rintro rfl
      exact Option.some.inj (hi.symm.trans ha)
  exact or_congr (hend hsource) (hend htarget)

/-- After a removal an edge that is left joins the same names, though an end of it may have moved.
-/
theorem link?_renumber {names : List V} {a : Nat} (ha : a < names.length) {e : Edge E}
    (hnot : ¬ e.Incident a) (hsource : e.source < names.length)
    (htarget : e.target < names.length) :
    link? (swapRemove names a) (e.renumber (names.length - 1) a) = link? names e := by
  obtain ⟨hsource', htarget'⟩ : e.source ≠ a ∧ e.target ≠ a := not_or.mp hnot
  rw [link?, link?, Edge.source_renumber, Edge.target_renumber, Edge.weight_renumber,
    getElem?_swapRemove_renumber ha hsource' hsource,
    getElem?_swapRemove_renumber ha htarget' htarget]

/-- Removing the node at an index drops the node of that name, and the links that name it. -/
theorem named_removeNode [DecidableEq V] (h : EndsInRange g)
    (hnames : ((rawNodes g).map name).Nodup) {a : Nat} {n : N} (hn : (rawNodes g)[a]? = some n) :
    named name (removeNode g a).2 = (named name g).dropNode name (name n) := by
  have ha : a < (rawNodes g).length := (List.getElem?_eq_some_iff.mp hn).1
  obtain ⟨es, hperm, hedges, hes⟩ := exists_edges_removeNode ha
  rw [named, LawfulGraph.rawNodes_removeNode ha, hedges]
  simp only [Named.dropNode, named, Named.mk.injEq]
  constructor
  -- the names are distinct, so the node is the only one of its name
  · have hrest := perm_cons_swapRemove hn
    have hnot : ∀ m ∈ swapRemove (rawNodes g) a, name m ≠ name n := by
      intro m hm heq
      have hnodup := (hrest.map name).nodup_iff.mp hnames
      rw [List.map_cons, List.nodup_cons] at hnodup
      exact hnodup.1 (heq ▸ List.mem_map_of_mem hm)
    rw [show (↑(rawNodes g) : Multiset N) = n ::ₘ ↑(swapRemove (rawNodes g) a) from
      Multiset.coe_eq_coe.mpr hrest, Multiset.filter_cons_of_neg _ (by simp),
      Multiset.filter_eq_self.mpr hnot]
  -- the other edges keep the names of their ends, although the last node has moved
  · have hlen : (rawNodes g).length = ((rawNodes g).map name).length := by simp
    have hname : ((rawNodes g).map name)[a]? = some (name n) := by simp [hn]
    have hkept : ∀ e ∈ es, (link? (swapRemove ((rawNodes g).map name) a) ∘
        Edge.renumber ((rawNodes g).length - 1) a) e = link? ((rawNodes g).map name) e := by
      intro e he
      obtain ⟨hmem, hnot⟩ := hes e he
      rw [Function.comp_apply, hlen]
      exact link?_renumber (hlen ▸ ha) hnot (hlen ▸ (h e hmem).1) (hlen ▸ (h e hmem).2)
    rw [map_swapRemove, List.filterMap_map, List.filterMap_congr hkept, Multiset.filter_coe]
    refine Multiset.coe_eq_coe.mpr ((hperm.filterMap _).trans (List.Perm.of_eq ?_))
    rw [List.filterMap_filter, List.filter_filterMap]
    refine List.filterMap_congr fun e he => ?_
    obtain ⟨l, hl⟩ := h.exists_link name he
    have hincident := link?_incident hnames hname hl
    rw [hl]
    by_cases he' : e.Incident a <;> simp [he', hincident, Option.filter]

/-- petgraph checks the ends of a new edge. -/
theorem EndsInRange.addEdge (h : EndsInRange g) {a b i : Nat} {e : E}
    (hadd : Graph.addEdge g a b e = some (i, g')) : EndsInRange g' := by
  obtain ⟨ha, hb, -, hnodes, hedges⟩ := LawfulGraph.addEdge_eq_some hadd
  intro e' he'
  rw [hedges] at he'
  rw [hnodes]
  rcases List.mem_append.mp he' with he' | he'
  · exact h e' he'
  · obtain rfl : e' = ⟨e, a, b⟩ := by simpa using he'
    exact ⟨ha, hb⟩

/-- Adding an edge adds a link between the names at the two indices. -/
theorem named_addEdge {a b i : Nat} {e : E} (hadd : addEdge g a b e = some (i, g')) {m n : N}
    (hm : (rawNodes g)[a]? = some m) (hn : (rawNodes g)[b]? = some n) :
    named name g' = (named name g).addLink ⟨name m, name n, e⟩ := by
  obtain ⟨-, -, -, hnodes, hedges⟩ := LawfulGraph.addEdge_eq_some hadd
  have hlink : link? ((rawNodes g).map name) ⟨e, a, b⟩ = some ⟨name m, name n, e⟩ := by
    simp [link?, hm, hn]
  rw [named, hnodes, hedges, List.filterMap_append]
  simp only [Named.addLink, named, Named.mk.injEq, true_and]
  refine Multiset.coe_eq_coe.mpr ?_
  rw [List.filterMap_cons_some hlink, List.filterMap_nil]
  exact List.perm_append_singleton _ _

/-- The edges that are left keep their ends. -/
theorem EndsInRange.removeEdge (h : EndsInRange g) (i : Nat) :
    EndsInRange (Graph.removeEdge g i).2 := by
  rcases Nat.lt_or_ge i (rawEdges g).length with hi | hi
  · intro e he
    rw [LawfulGraph.rawEdges_removeEdge hi] at he
    rw [LawfulGraph.rawNodes_removeEdge]
    exact h e (mem_of_mem_swapRemove hi he)
  · rw [LawfulGraph.removeEdge_out_of_range hi]
    exact h

/-- Removing the edge at an index drops its link, once. -/
theorem named_removeEdge [DecidableEq V] [DecidableEq E] {i : Nat} {e : Edge E}
    (he : (rawEdges g)[i]? = some e) {l : Link V E}
    (hl : link? ((rawNodes g).map name) e = some l) :
    named name (removeEdge g i).2 = (named name g).dropLink l := by
  have hi : i < (rawEdges g).length := (List.getElem?_eq_some_iff.mp he).1
  rw [named, LawfulGraph.rawNodes_removeEdge, LawfulGraph.rawEdges_removeEdge hi]
  simp only [Named.dropLink, named, Named.mk.injEq, true_and]
  have hperm := (perm_cons_swapRemove he).filterMap (link? ((rawNodes g).map name))
  rw [List.filterMap_cons_some hl] at hperm
  rw [Multiset.coe_eq_coe.mpr hperm, ← Multiset.cons_coe, Multiset.erase_cons_head]

theorem EndsInRange.nodeWeightMut (h : EndsInRange g) {i : Nat} {n : N} {put : N → G}
    (hborrow : Graph.nodeWeightMut g i = some (n, put)) (n' : N) : EndsInRange (put n') := by
  rw [EndsInRange, LawfulGraph.rawNodes_nodeWeightMut hborrow,
    LawfulGraph.rawEdges_nodeWeightMut hborrow, List.length_set]
  exact h

/-- A node keeps its links when its name stays. -/
theorem named_nodeWeightMut [DecidableEq N] {i : Nat} {n n' : N} {put : N → G}
    (hborrow : nodeWeightMut g i = some (n, put)) (hname : name n' = name n) :
    named name (put n') = (named name g).setNode n n' := by
  obtain ⟨hi, hn⟩ := List.getElem?_eq_some_iff.mp (LawfulGraph.nodeWeightMut_eq_some hborrow)
  have hnames : ((rawNodes g).set i n').map name = (rawNodes g).map name := by
    rw [List.map_set, hname, ← hn, ← List.getElem_map name (h := by simpa using hi),
      List.set_getElem_self]
  rw [named, LawfulGraph.rawNodes_nodeWeightMut hborrow, LawfulGraph.rawEdges_nodeWeightMut hborrow,
    hnames]
  simp only [Named.setNode, named, Named.mk.injEq, and_true]
  rw [Multiset.coe_eq_coe.mpr (List.set_perm_cons_eraseIdx hi n'), ← Multiset.cons_coe,
    ← Multiset.coe_eq_coe.mpr (List.getElem_cons_eraseIdx_perm hi), hn, ← Multiset.cons_coe,
    Multiset.erase_cons_head]

/-- The edges after a write-back, as one `set`. -/
theorem rawEdges_put {i : Nat} {e : E} {put : E → G} (hborrow : edgeWeightMut g i = some (e, put))
    {x : Edge E} (hx : (rawEdges g)[i]? = some x) (e' : E) :
    rawEdges (put e') = (rawEdges g).set i { x with weight := e' } := by
  rw [LawfulGraph.rawEdges_edgeWeightMut hborrow, List.modify_eq_set_getElem?, hx]
  rfl

theorem EndsInRange.edgeWeightMut (h : EndsInRange g) {i : Nat} {e : E} {put : E → G}
    (hborrow : Graph.edgeWeightMut g i = some (e, put)) (e' : E) : EndsInRange (put e') := by
  obtain ⟨x, hx, -⟩ := LawfulGraph.edgeWeightMut_eq_some hborrow
  intro y hy
  rw [rawEdges_put hborrow hx] at hy
  rw [LawfulGraph.rawNodes_edgeWeightMut hborrow]
  rcases List.mem_or_eq_of_mem_set hy with hy | rfl
  · exact h y hy
  · exact h x (List.mem_of_getElem? hx)

/-- Writing the weight of the edge at an index writes that of its link. -/
theorem named_edgeWeightMut [DecidableEq V] [DecidableEq E] {i : Nat} {e : E} {put : E → G}
    (hborrow : edgeWeightMut g i = some (e, put)) {x : Edge E} (hx : (rawEdges g)[i]? = some x)
    {l : Link V E} (hl : link? ((rawNodes g).map name) x = some l) (e' : E) :
    named name (put e') = (named name g).setLink l { l with weight := e' } := by
  obtain ⟨hi, rfl⟩ := List.getElem?_eq_some_iff.mp hx
  obtain ⟨hsource, htarget, -⟩ := link?_eq_some.mp hl
  have hl' : link? ((rawNodes g).map name) { (rawEdges g)[i] with weight := e' }
      = some { l with weight := e' } :=
    link?_eq_some.mpr ⟨hsource, htarget, rfl⟩
  rw [named, LawfulGraph.rawNodes_edgeWeightMut hborrow, rawEdges_put hborrow hx]
  simp only [Named.setLink, named, Named.mk.injEq, true_and]
  have hnew := (List.set_perm_cons_eraseIdx hi { (rawEdges g)[i] with weight := e' }).filterMap
    (link? ((rawNodes g).map name))
  have hold := (List.getElem_cons_eraseIdx_perm hi).filterMap (link? ((rawNodes g).map name))
  rw [List.filterMap_cons_some hl'] at hnew
  rw [List.filterMap_cons_some hl] at hold
  rw [Multiset.coe_eq_coe.mpr hnew, ← Multiset.cons_coe, ← Multiset.coe_eq_coe.mpr hold,
    ← Multiset.cons_coe, Multiset.erase_cons_head]

end Laws

end Petgraph
