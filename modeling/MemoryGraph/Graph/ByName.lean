import MemoryGraph.Conc.Between
import MemoryGraph.Graph.Concurrent
import MemoryGraph.Graph.Lookup
import MemoryGraph.Petgraph.Named

/-!
# MemoryGraph — the graph by names

Removals leave the caches behind: a vid or an edge key may resolve to nothing, or to something
else. What they never do is harm the graph itself. With every node named by its vid
(`Store.named`), a call of any of the nine operations makes one change of the list `Action`, or
none; which one is decided by what the caches resolve its arguments to (`Store.action`).

* **`named_run`** — one call alone does to the named graph what its action says;
* **`section_acts_by_name`** — so does every lock section of every interleaving, and no edge
  ever dangles, so the named graph has all edges there are.
-/

namespace MemoryGraph

open Conc Petgraph

variable {G : Type} [Graph G NodeM EdgeM] {segment : String}

abbrev NamedGraph := Named String NodeM EdgeM

/-- What a call can do to a graph whose nodes are named. -/
inductive Action where
  | keep
  | addNode (node : NodeM)
  | setNode (node : NodeM) (data : Dict String)
  | dropNode (vid : String)
  | addLink (l : LiveEdge)
  | setLink (l : LiveEdge) (data : Dict String)
  | dropLink (l : LiveEdge)

namespace Action

def apply : Action → NamedGraph → NamedGraph
  | keep, g => g
  | addNode node, g => g.addNode node
  | setNode node data, g => g.setNode node { node with data := data }
  | dropNode vid, g => g.dropNode NodeM.vid vid
  | addLink l, g => g.addLink l
  | setLink l data, g => g.setLink l (l.extend data)
  | dropLink l, g => g.dropLink l

end Action

namespace Store

def named (s : Store G) : NamedGraph := Petgraph.named NodeM.vid s.inner

/-- What the call means for the named graph, its arguments resolved by the caches of `s`. -/
def action (segment : String) (s : Store G) : Op → Action
  | .addNode node => if node.vid ∈ s.nodeCache then .keep else .addNode node
  | .findNodeByVid _ => .keep
  | .removeNode vid => (s.node? vid).elim .keep fun node => .dropNode node.vid
  | .updateNode vid data => (s.node? vid).elim .keep fun node => .setNode node data
  | .addEdge fromVid toVid edge =>
    if edgeKey segment fromVid toVid ∈ s.edgeCache then .keep
    else
      match s.node? fromVid, s.node? toVid with
      | some a, some b => .addLink ⟨a.vid, b.vid, edge⟩
      | _, _ => .keep
  | .updateEdge edgeVid data => (s.edge? edgeVid).elim .keep fun l => .setLink l data
  | .updateEdgeByNode fromVid toVid data =>
    (s.edge? (edgeKey segment fromVid toVid)).elim .keep fun l => .setLink l data
  | .removeEdge edgeVid => (s.edge? edgeVid).elim .keep .dropLink
  | .removeEdgeByNode fromVid toVid =>
    (s.edge? (edgeKey segment fromVid toVid)).elim .keep .dropLink

end Store

section Laws

variable [LawfulGraph G]

/-- No operation leaves an edge with an end out of range. -/
theorem endsInRange_change {s s' : Store G} {op : Op} (h : EndsInRange s.inner)
    (hchange : Change segment s op s') : EndsInRange s'.inner := by
  cases hchange with
  | same => exact h
  | nodeAdded _ _ => exact h.addNode _
  | nodeUpdated _ _ hborrow => exact h.nodeWeightMut hborrow _
  | nodeRemoved _ _ => exact h.removeNode _
  | edgeAdded _ _ _ _ hadd => exact h.addEdge hadd
  | edgeUpdated _ _ hborrow => exact h.edgeWeightMut hborrow _
  | edgeRemoved _ _ => exact h.removeEdge _

/-- Ends stay in range, because `add_edge` panics on an index that is not, and a removal renumbers
the ends of the edges it moves. -/
theorem endsInRange_runAll {s : Store G} (h : EndsInRange s.inner) (ops : List Op) :
    EndsInRange (runAll segment ops s).1.inner :=
  runAll_induction (motive := fun s => EndsInRange s.inner) h
    fun op _ s' hs' => endsInRange_change hs' (run_change op s')

omit [LawfulGraph G] in
theorem Store.node?_of_lookup {s : Store G} {vid : String} {idx : Nat}
    (hidx : s.nodeCache.lookup vid = some idx) : s.node? vid = (Graph.rawNodes s.inner)[idx]? := by
  rw [Store.node?, hidx, Option.bind_some]

omit [LawfulGraph G] in
theorem Store.edge?_of_lookup {s : Store G} {key : String} {idx : Nat}
    (hidx : s.edgeCache.lookup key = some idx) :
    s.edge? key = (Graph.rawEdges s.inner)[idx]?.bind (link? s.vids) := by
  rw [Store.edge?, hidx, Option.bind_some, Store.edgeAt]

/-- `remove_node` drops the node that the cached index leads to, with the edges at its vid. Vids
have to be distinct for the vid to say which edges these are. -/
theorem named_removeNode_run {s : Store G} (h : EndsInRange s.inner) (hvids : s.vids.Nodup)
    (vid : String) : ((Op.removeNode vid).run segment s).1.named
      = ((s.node? vid).elim .keep fun node => Action.dropNode node.vid).apply s.named := by
  rw [run_removeNode]
  cases hidx : s.nodeCache.lookup vid with
  | none => simp [Store.node?, hidx, Action.apply]
  | some idx =>
    rw [Store.node?_of_lookup hidx]
    cases hnode : (Graph.rawNodes s.inner)[idx]? with
    -- a stale index beyond the nodes: petgraph removes nothing
    | none =>
      change ({ s with inner := (Graph.removeNode s.inner idx).2 } : Store G).named = s.named
      rw [LawfulGraph.removeNode_out_of_range (List.getElem?_eq_none_iff.mp hnode)]
    | some node => exact Petgraph.named_removeNode h hvids hnode

/-- `update_node` sets the data of the node that the cached index leads to. -/
theorem named_updateNode_run (s : Store G) (vid : String) (data : Dict String) :
    ((Op.updateNode vid data).run segment s).1.named
      = ((s.node? vid).elim .keep fun node => Action.setNode node data).apply s.named := by
  rw [run_updateNode]
  cases hidx : s.nodeCache.lookup vid with
  | none => simp [Store.node?, hidx, Action.apply]
  | some idx =>
    rw [Store.node?_of_lookup hidx, Option.bind_some]
    cases hborrow : Graph.nodeWeightMut s.inner idx with
    | none =>
      rw [LawfulGraph.nodeWeightMut_eq_none hborrow]
      rfl
    | some borrow =>
      rw [LawfulGraph.nodeWeightMut_eq_some hborrow]
      exact named_nodeWeightMut hborrow rfl

/-- `add_edge` adds a link between the vids at the two cached indices, which need not be the vids it
was given. -/
theorem named_addEdge_run (s : Store G) (fromVid toVid : String) (edge : EdgeM) :
    ((Op.addEdge fromVid toVid edge).run segment s).1.named
      = (s.action segment (.addEdge fromVid toVid edge)).apply s.named := by
  have hexit := run_addEdge_exit segment fromVid toVid edge s
  generalize (Op.addEdge fromVid toVid edge).run segment s = out at hexit ⊢
  rw [Store.action]
  cases hexit with
  | taken hkey => rw [if_pos hkey]; rfl
  | noFrom hkey hfrom =>
    rw [if_neg hkey, Store.node?, Finmap.lookup_eq_none.mpr hfrom]
    rfl
  | noTo hkey _ hto =>
    have hnone : s.node? toVid = none := by
      rw [Store.node?, Finmap.lookup_eq_none.mpr hto, Option.bind_none]
    rw [if_neg hkey, hnone]
    cases s.node? fromVid <;> rfl
  | @panicked a b hkey hfrom hto hadd =>
    rw [if_neg hkey, Store.node?_of_lookup hfrom, Store.node?_of_lookup hto]
    -- petgraph panics on an end out of range only
    cases ha : (Graph.rawNodes s.inner)[a]? with
    | none => rfl
    | some m =>
      cases hb : (Graph.rawNodes s.inner)[b]? with
      | none => rfl
      | some n =>
        obtain ⟨g', hadd', -⟩ := LawfulGraph.addEdge_in_range (e := edge)
          (List.getElem?_eq_some_iff.mp ha).1 (List.getElem?_eq_some_iff.mp hb).1
        simp [hadd] at hadd'
  | @added a b index graph hkey hfrom hto hadd =>
    obtain ⟨ha, hb, -⟩ := LawfulGraph.addEdge_eq_some hadd
    have hm := List.getElem?_eq_getElem ha
    have hn := List.getElem?_eq_getElem hb
    rw [if_neg hkey, Store.node?_of_lookup hfrom, Store.node?_of_lookup hto, hm, hn]
    exact Petgraph.named_addEdge hadd hm hn

/-- An edge update extends the data of the edge that the cached index leads to. -/
theorem named_updateEdgeAt_run {s : Store G} (h : EndsInRange s.inner) (key : String)
    (missing : GraphError) (data : Dict String) :
    ((updateEdgeAt key missing data).run s).1.named
      = ((s.edge? key).elim .keep fun l => Action.setLink l data).apply s.named := by
  rw [run_updateEdgeAt]
  cases hidx : s.edgeCache.lookup key with
  | none => simp [Store.edge?, hidx, Action.apply]
  | some idx =>
    rw [Store.edge?_of_lookup hidx, Option.bind_some]
    cases hborrow : Graph.edgeWeightMut s.inner idx with
    | none =>
      rw [LawfulGraph.edgeWeightMut_eq_none hborrow]
      rfl
    | some borrow =>
      obtain ⟨edge, put⟩ := borrow
      obtain ⟨x, hx, hweight⟩ := LawfulGraph.edgeWeightMut_eq_some hborrow
      obtain ⟨l, hl⟩ := h.exists_link NodeM.vid (List.mem_of_getElem? hx)
      obtain rfl : edge = l.weight := hweight.symm.trans (link?_eq_some.mp hl).2.2
      rw [hx, Option.bind_some, show link? s.vids x = some l from hl]
      exact named_edgeWeightMut hborrow hx hl _

/-- An edge removal drops the edge that the cached index leads to. -/
theorem named_removeEdgeAt_run {s : Store G} (h : EndsInRange s.inner) (key : String) :
    ((removeEdgeAt key).run s).1.named
      = ((s.edge? key).elim .keep Action.dropLink).apply s.named := by
  rw [run_removeEdgeAt]
  cases hidx : s.edgeCache.lookup key with
  | none => simp [Store.edge?, hidx, Action.apply]
  | some idx =>
    rw [Store.edge?_of_lookup hidx]
    cases hx : (Graph.rawEdges s.inner)[idx]? with
    | none =>
      change ({ s with inner := (Graph.removeEdge s.inner idx).2 } : Store G).named = s.named
      rw [LawfulGraph.removeEdge_out_of_range (List.getElem?_eq_none_iff.mp hx)]
    | some x =>
      obtain ⟨l, hl⟩ := h.exists_link NodeM.vid (List.mem_of_getElem? hx)
      rw [Option.bind_some, show link? s.vids x = some l from hl]
      exact Petgraph.named_removeEdge hx hl

/-- **Call.** Alone, a call does to the named graph what its action says. -/
theorem named_run {s : Store G} (h : EndsInRange s.inner) (hvids : s.vids.Nodup) (op : Op) :
    (op.run segment s).1.named = (s.action segment op).apply s.named := by
  cases op with
  | addNode node =>
    rw [run_addNode, Store.action]
    by_cases hvid : node.vid ∈ s.nodeCache
    · rw [if_pos hvid, if_pos hvid]
      rfl
    · rw [if_neg hvid, if_neg hvid]
      exact Petgraph.named_addNode h node
  | findNodeByVid vid =>
    rw [run_findNodeByVid]
    rfl
  | removeNode vid => exact named_removeNode_run h hvids vid
  | updateNode vid data => exact named_updateNode_run s vid data
  | addEdge fromVid toVid edge => exact named_addEdge_run s fromVid toVid edge
  | updateEdge edgeVid data => exact named_updateEdgeAt_run h edgeVid _ data
  | updateEdgeByNode fromVid toVid data => exact named_updateEdgeAt_run h _ _ data
  | removeEdge edgeVid => exact named_removeEdgeAt_run h edgeVid
  | removeEdgeByNode fromVid toVid => exact named_removeEdgeAt_run h _

/-- **Every section acts by name.** On a new instance over an empty graph, in every state of every
interleaving of the nine operations, removals included: no two nodes share a vid, every edge has
both its ends among the nodes, and so every edge is a link of the named graph. A lock section
leaves the graph as it is, up to numbering, or does to it the one action that the caches then
resolve its call to. -/
theorem section_acts_by_name {ι : Type} [DecidableEq ι] (nodeCap edgeCap : Nat) {g : G}
    (hg : Graph.IsEmpty g) {ops : ι → Op} {tr : List (Event ι)}
    {c : Config ι (Store G) Lock Reply}
    (hrun : Run ((GraphInstance.new nodeCap edgeCap g).calls ops)
      (GraphInstance.new nodeCap edgeCap g).store tr c) :
    (c.store.named.nodes.map NodeM.vid).Nodup ∧
    EndsInRange c.store.inner ∧
    c.store.named.links.card = (Graph.rawEdges c.store.inner).length ∧
    ∀ ev c', Step ((GraphInstance.new nodeCap edgeCap g).calls ops) c ev c' →
      c'.store.named = c.store.named ∨
      ∃ t, ev = .enter t ∧ c'.store.named = (c.store.action "_" (ops t)).apply c.store.named := by
  have hvids : c.store.vids.Nodup := store_induction (motive := fun s => s.vids.Nodup) hrun
    fun order => ((Distinct.empty hg).runAll (order.map ops)).nodup
  have hends : EndsInRange c.store.inner :=
    store_induction (motive := fun s => EndsInRange s.inner) hrun
      fun order => endsInRange_runAll (.of_isEmpty hg) (order.map ops)
  refine ⟨Multiset.coe_nodup.mpr hvids, hends, hends.card_links NodeM.vid, ?_⟩
  intro ev c' hstep
  rcases hrun.store_step (fun t => commits_call (ops t)) hstep with hkeep | ⟨t, rfl, hrun'⟩
  · exact Or.inl (by rw [hkeep])
  · exact Or.inr ⟨t, rfl, by rw [hrun']; exact named_run hends hvids (ops t)⟩

end Laws

/-- With `"a"` removed, the entry of `"c"` in `node_cache` comes to point at `"d"`. -/
def straying : Fin 6 → Op
  | 0 => .addNode ⟨"a", ∅⟩
  | 1 => .addNode ⟨"b", ∅⟩
  | 2 => .addNode ⟨"c", ∅⟩
  | 3 => .removeNode "a"
  | 4 => .addNode ⟨"d", ∅⟩
  | 5 => .removeNode "c"

/-- All calls but the last run to their ends, and the last one has looked its index up. -/
def strayingTrace : List (Event (Fin 6)) :=
  [.begin 0, .enter 0, .enter 0, .begin 1, .enter 1, .enter 1, .begin 2, .enter 2, .enter 2,
    .begin 3, .enter 3, .enter 3, .begin 4, .enter 4, .enter 4, .begin 5, .enter 5]

/-- The second `remove_node` is called with `"c"`, and drops `"d"`. -/
theorem straying_acts_by_name : ∃ c c', Run (GraphInstance.blank.calls straying)
    GraphInstance.blank.store strayingTrace c ∧
    Step (GraphInstance.blank.calls straying) c (.enter 5) c' ∧
    c'.store.named = (Action.dropNode "d").apply c.store.named := by
  have hrun : ∃ c c', Run (GraphInstance.blank.calls straying) GraphInstance.blank.store
      strayingTrace c ∧ Step (GraphInstance.blank.calls straying) c (.enter 5) c' ∧
      c.store.action "_" (straying 5) = .dropNode "d" ∧
      c.store.named.nodes.card = 3 ∧ c'.store.named.nodes.card = 2 :=
    ⟨_, _, Run.of_replay rfl, step_iff_next?.mpr rfl, rfl, rfl, rfl⟩
  obtain ⟨c, c', hrun, hstep, haction, hthree, htwo⟩ := hrun
  obtain ⟨-, -, -, hacts⟩ := section_acts_by_name 0 0 ⟨rfl, rfl⟩ hrun
  refine ⟨c, c', hrun, hstep, ?_⟩
  rcases hacts _ _ hstep with hkeep | ⟨t, ht, hacted⟩
  · rw [hkeep, hthree] at htwo
    simp at htwo
  · obtain rfl : 5 = t := by simpa using ht
    rw [hacted, haction]

end MemoryGraph
