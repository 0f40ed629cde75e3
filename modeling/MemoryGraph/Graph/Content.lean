import MemoryGraph.Graph.ByName

/-!
# MemoryGraph — vids and joined pairs

The content of a graph, without data, weights and numbering: which vids it has, and which pairs
of vids an edge joins, with multiplicity. Actions on the named graph are actions on its content.

* **`content_run`** — what a call does to the content, removals and stale entries included.
-/

namespace MemoryGraph

open Petgraph

variable {G : Type} [Graph G NodeM EdgeM] {segment : String}

@[ext]
structure Content where
  vids : Multiset String
  ends : Multiset (String × String)

namespace Content

def addVid (vid : String) (c : Content) : Content := { c with vids := vid ::ₘ c.vids }

/-- The vid leaves with the pairs it is in. -/
def dropVid (vid : String) (c : Content) : Content where
  vids := c.vids.filter (· ≠ vid)
  ends := c.ends.filter fun p => ¬ (p.1 = vid ∨ p.2 = vid)

def addEnds (p : String × String) (c : Content) : Content := { c with ends := p ::ₘ c.ends }

def dropEnds (p : String × String) (c : Content) : Content := { c with ends := c.ends.erase p }

/-- How many nodes and edges there are. -/
def size (c : Content) : Nat := c.vids.card + c.ends.card

@[simp] theorem size_addVid (vid : String) (c : Content) : (c.addVid vid).size = c.size + 1 := by
  simp only [size, addVid, Multiset.card_cons]
  omega

@[simp] theorem size_addEnds (p : String × String) (c : Content) :
    (c.addEnds p).size = c.size + 1 := by
  simp only [size, addEnds, Multiset.card_cons]
  omega

/-- With a vid go the pairs that name it, so the content does not grow. -/
theorem size_dropVid_le (vid : String) (c : Content) : (c.dropVid vid).size ≤ c.size :=
  Nat.add_le_add (Multiset.card_le_card (Multiset.filter_le _ _))
    (Multiset.card_le_card (Multiset.filter_le _ _))

theorem size_dropEnds_le (p : String × String) (c : Content) : (c.dropEnds p).size ≤ c.size :=
  Nat.add_le_add_left (Multiset.card_le_card (Multiset.erase_le _ _)) _

end Content

def linkEnds (l : LiveEdge) : String × String := (l.source, l.target)

def NamedGraph.content (g : NamedGraph) : Content where
  vids := g.nodes.map NodeM.vid
  ends := g.links.map linkEnds

def Store.content (s : Store G) : Content := NamedGraph.content s.named

namespace Action

/-- What the action does to the content. -/
def onContent : Action → Content → Content
  | keep, c => c
  | addNode node, c => c.addVid node.vid
  | setNode _ _, c => c
  | dropNode vid, c => c.dropVid vid
  | addLink l, c => c.addEnds (linkEnds l)
  | setLink _ _, c => c
  | dropLink l, c => c.dropEnds (linkEnds l)

/-- An action adds one node or edge at most. -/
theorem size_onContent_le (action : Action) (c : Content) :
    (action.onContent c).size ≤ c.size + 1 := by
  cases action with
  | addNode node => exact (c.size_addVid node.vid).le
  | addLink l => exact (c.size_addEnds (linkEnds l)).le
  | dropNode vid => exact Nat.le_succ_of_le (c.size_dropVid_le vid)
  | dropLink l => exact Nat.le_succ_of_le (c.size_dropEnds_le (linkEnds l))
  | _ => exact Nat.le_succ _

/-- What the action changes or drops is there. -/
def Applies (g : NamedGraph) : Action → Prop
  | setNode node _ => node ∈ g.nodes
  | setLink l _ => l ∈ g.links
  | dropLink l => l ∈ g.links
  | _ => True

/-- An action on a named graph, seen on its content. -/
theorem content_apply {g : NamedGraph} {action : Action} (h : action.Applies g) :
    NamedGraph.content (action.apply g) = action.onContent (NamedGraph.content g) := by
  cases action with
  | keep => rfl
  | addNode node => simp [apply, Named.addNode, NamedGraph.content, onContent, Content.addVid]
  -- the node is there, so with its new data it gives the vid back that it takes
  | setNode node data =>
    have hnode : node ∈ g.nodes := h
    have hvids : (g.nodes.erase node).map NodeM.vid = (g.nodes.map NodeM.vid).erase node.vid :=
      Multiset.map_erase_of_mem _ _ hnode
    simp [apply, Named.setNode, NamedGraph.content, onContent, hvids,
      Multiset.cons_erase (Multiset.mem_map_of_mem NodeM.vid hnode)]
  | dropNode vid =>
    simp only [apply, Named.dropNode, NamedGraph.content, onContent, Content.dropVid,
      Multiset.filter_map]
    rfl
  | addLink l => simp [apply, Named.addLink, NamedGraph.content, onContent, Content.addEnds]
  | setLink l data =>
    have hl : l ∈ g.links := h
    have hends : (g.links.erase l).map linkEnds = (g.links.map linkEnds).erase (linkEnds l) :=
      Multiset.map_erase_of_mem _ _ hl
    have hmem : linkEnds l ∈ g.links.map linkEnds := Multiset.mem_map_of_mem linkEnds hl
    simp only [apply, Named.setLink, NamedGraph.content, onContent, Multiset.map_cons, hends]
    exact Content.ext rfl (Multiset.cons_erase hmem)
  | dropLink l =>
    have hl : l ∈ g.links := h
    simp only [apply, Named.dropLink, NamedGraph.content, onContent, Content.dropEnds,
      Multiset.map_erase_of_mem linkEnds _ hl]

end Action

theorem Store.mem_nodes_of_node? {s : Store G} {vid : String} {node : NodeM}
    (h : s.node? vid = some node) : node ∈ s.named.nodes := by
  obtain ⟨idx, -, hnode⟩ := Option.bind_eq_some_iff.mp h
  exact List.mem_of_getElem? hnode

theorem Store.mem_links_of_edge? {s : Store G} {key : String} {l : LiveEdge}
    (h : s.edge? key = some l) : l ∈ s.named.links := by
  obtain ⟨idx, -, hat⟩ := Option.bind_eq_some_iff.mp h
  obtain ⟨e, he, hl⟩ := Option.bind_eq_some_iff.mp hat
  exact List.mem_filterMap.mpr ⟨e, List.mem_of_getElem? he, hl⟩

/-- The caches resolve a call to something that is there. -/
theorem applies_action (s : Store G) (op : Op) : (s.action segment op).Applies s.named := by
  have hset : ∀ key data, ((s.edge? key).elim .keep fun l => Action.setLink l data).Applies
      s.named := fun key data => by
    cases hl : s.edge? key with
    | none => trivial
    | some l => exact s.mem_links_of_edge? hl
  have hdrop : ∀ key, ((s.edge? key).elim .keep Action.dropLink).Applies s.named := fun key => by
    cases hl : s.edge? key with
    | none => trivial
    | some l => exact s.mem_links_of_edge? hl
  -- updates and removals act on what the caches resolve to; the rest needs nothing
  cases op with
  | addNode node => rw [Store.action]; split <;> trivial
  | findNodeByVid vid => trivial
  | removeNode vid => rw [Store.action]; cases s.node? vid <;> trivial
  | updateNode vid data =>
    rw [Store.action]
    cases hnode : s.node? vid with
    | none => trivial
    | some node => exact s.mem_nodes_of_node? hnode
  | addEdge fromVid toVid edge =>
    rw [Store.action]
    split
    · trivial
    · split <;> trivial
  | updateEdge edgeVid data => exact hset _ _
  | updateEdgeByNode fromVid toVid data => exact hset _ _
  | removeEdge edgeVid => exact hdrop _
  | removeEdgeByNode fromVid toVid => exact hdrop _

/-- **Content.** A call does to the content what its action does. -/
theorem content_run [LawfulGraph G] {s : Store G} (h : EndsInRange s.inner) (hvids : s.vids.Nodup)
    (op : Op) : (op.run segment s).1.content = (s.action segment op).onContent s.content := by
  rw [Store.content, named_run h hvids, Action.content_apply (applies_action s op)]
  rfl

end MemoryGraph
