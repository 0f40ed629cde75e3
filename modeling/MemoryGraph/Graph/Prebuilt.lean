import MemoryGraph.Graph.Keys
import MemoryGraph.Graph.Known
import MemoryGraph.Graph.Rebuild
import MemoryGraph.Refine.Spec

/-!
# MemoryGraph — an instance on a graph that is there already

`GraphInstance::new` takes any graph and starts with empty caches, so what the graph brings along
is not known to the instance: its vids are not found and may be added a second time. The instance
to compare it with is rebuilt call by call on an empty graph.

* **`Op.touches`** — the calls that deal with what the graph brought along;
* **`PrebuiltSim.agree`**, **`PrebuiltSim.differ`** — a call that does not does the same on both
  instances, and a call that does replies differently;
* **`prebuilt_follows_rebuilt_iff`** — the same for sequences of calls.
-/

namespace MemoryGraph

open Conc Petgraph Refine

variable {G : Type} [Graph G NodeM EdgeM] {segment : String}

/-- The two graphs have the same nodes and the same edges at the same indices. -/
structure SameGraph (s s' : Store G) : Prop where
  nodes : Graph.rawNodes s.inner = Graph.rawNodes s'.inner
  edges : Graph.rawEdges s.inner = Graph.rawEdges s'.inner

/-- Whether a call deals with something that the graph brought along, its vids `oldVids` or the
keys `oldKeys` of its edges. `known` and `taken` tell which vids and keys there are by now. -/
def Op.touches (segment : String) (oldVids oldKeys : List String) (known taken : String → Bool) :
    Op → Bool
  | .addNode node => node.vid ∈ oldVids
  | .findNodeByVid vid | .updateNode vid _ => vid ∈ oldVids
  | .addEdge fromVid toVid _ =>
    edgeKey segment fromVid toVid ∈ oldKeys ||
      -- a key taken since then is refused before the vids are looked up
      !taken (edgeKey segment fromVid toVid) &&
        (fromVid ∈ oldVids || known fromVid && toVid ∈ oldVids)
  | .updateEdge edgeVid _ => edgeVid ∈ oldKeys
  | .updateEdgeByNode fromVid toVid _ => edgeKey segment fromVid toVid ∈ oldKeys
  | _ => false

/-- The rebuilt instance as the model of the one on the ready-made graph. -/
def rebuiltSpec (segment : String) : Spec (Store G) (Store G) Op Reply :=
  .ofMachine (fun r op => op.run segment r) SameGraph

/-- The instance `p` on the ready-made graph has the graph of the rebuilt instance `r`, and knows
what `r` knows but the old vids and keys. -/
structure PrebuiltSim (segment : String) (oldVids oldKeys : List String) (r p : Store G) :
    Prop where
  indexed : Indexed segment r
  same : SameGraph p r
  node : ∀ vid, p.nodeCache.lookup vid = if vid ∈ oldVids then none else r.nodeCache.lookup vid
  edge : ∀ key, p.edgeCache.lookup key = if key ∈ oldKeys then none else r.edgeCache.lookup key
  oldVid : ∀ vid ∈ oldVids, vid ∈ r.nodeCache
  oldKey : ∀ key ∈ oldKeys, key ∈ r.edgeCache

/-- The same new entry on both sides, under a key that is not old. -/
theorem lookup_insert_unless {m m' : Dict Nat} {old : List String}
    (h : ∀ key, m'.lookup key = if key ∈ old then none else m.lookup key) {new : String}
    (hnew : new ∉ old) (v : Nat) (key : String) :
    (m'.insert new v).lookup key = if key ∈ old then none else (m.insert new v).lookup key := by
  rcases eq_or_ne key new with rfl | hne
  · rw [Finmap.lookup_insert, if_neg hnew, Finmap.lookup_insert]
  · rw [Finmap.lookup_insert_of_ne _ hne, Finmap.lookup_insert_of_ne _ hne, h]

namespace PrebuiltSim

variable {oldVids oldKeys : List String} {r p r' p' : Store G}
  (h : PrebuiltSim segment oldVids oldKeys r p)
include h

/-- The two graphs change, the caches do not. -/
theorem graph (hindexed : Indexed segment r') (hsame : SameGraph p' r')
    (hrnode : r'.nodeCache = r.nodeCache) (hredge : r'.edgeCache = r.edgeCache)
    (hpnode : p'.nodeCache = p.nodeCache) (hpedge : p'.edgeCache = p.edgeCache) :
    PrebuiltSim segment oldVids oldKeys r' p' where
  indexed := hindexed
  same := hsame
  node := by rw [hpnode, hrnode]; exact h.node
  edge := by rw [hpedge, hredge]; exact h.edge
  oldVid := by rw [hrnode]; exact h.oldVid
  oldKey := by rw [hredge]; exact h.oldKey

theorem node?_eq {vid : String} (hvid : vid ∉ oldVids) : p.node? vid = r.node? vid := by
  rw [Store.node?, Store.node?, h.node, if_neg hvid, h.same.nodes]

theorem node?_old {vid : String} (hvid : vid ∈ oldVids) :
    p.node? vid = none ∧ (r.node? vid).isSome := by
  refine ⟨by rw [Store.node?, h.node, if_pos hvid, Option.bind_none], ?_⟩
  rw [h.indexed.isSome_node?]
  exact h.oldVid vid hvid

theorem mem_nodeCache_iff {vid : String} :
    vid ∈ p.nodeCache ↔ vid ∉ oldVids ∧ vid ∈ r.nodeCache := by
  rw [Finmap.mem_iff, h.node]
  split <;> simp_all [Finmap.mem_iff]

theorem mem_edgeCache_iff {key : String} :
    key ∈ p.edgeCache ↔ key ∉ oldKeys ∧ key ∈ r.edgeCache := by
  rw [Finmap.mem_iff, h.edge]
  split <;> simp_all [Finmap.mem_iff]

variable [LawfulGraph G]

/-! ### Calls that leave alone what is old -/

/-- A node with a new vid gets the same index on both sides, because the graphs have the same nodes.
-/
theorem addNode {node : NodeM} (hnew : node.vid ∉ oldVids) :
    ((Op.addNode node).run segment p).2 = ((Op.addNode node).run segment r).2 ∧
    PrebuiltSim segment oldVids oldKeys ((Op.addNode node).run segment r).1
      ((Op.addNode node).run segment p).1 := by
  by_cases hcached : node.vid ∈ r.nodeCache
  · rw [run_addNode, run_addNode, if_pos hcached, if_pos (h.mem_nodeCache_iff.mpr ⟨hnew, hcached⟩)]
    exact ⟨rfl, h⟩
  · have hindexed : Indexed segment ((Op.addNode node).run segment r).1 := h.indexed.step rfl
    have hidx : (Graph.addNode p.inner node).1 = (Graph.addNode r.inner node).1 := by
      rw [LawfulGraph.addNode_index, LawfulGraph.addNode_index, h.same.nodes]
    rw [run_addNode node r, if_neg hcached] at hindexed ⊢
    rw [run_addNode node p, if_neg fun hmem => hcached (h.mem_nodeCache_iff.mp hmem).2, hidx]
    refine ⟨rfl, hindexed, ⟨?_, ?_⟩, lookup_insert_unless h.node hnew _, h.edge, fun vid hvid => ?_,
      h.oldKey⟩
    · rw [LawfulGraph.rawNodes_addNode, LawfulGraph.rawNodes_addNode, h.same.nodes]
    · rw [LawfulGraph.rawEdges_addNode, LawfulGraph.rawEdges_addNode, h.same.edges]
    · exact Finmap.mem_insert.mpr (Or.inr (h.oldVid vid hvid))

theorem updateNode {vid : String} (hnew : vid ∉ oldVids) (data : Dict String) :
    ((Op.updateNode vid data).run segment p).2 = ((Op.updateNode vid data).run segment r).2 ∧
    PrebuiltSim segment oldVids oldKeys ((Op.updateNode vid data).run segment r).1
      ((Op.updateNode vid data).run segment p).1 := by
  have hindexed : Indexed segment ((Op.updateNode vid data).run segment r).1 := h.indexed.step rfl
  obtain ⟨p', hp, hpnode, hpedge, hpnodes, hpedges⟩ := run_updateNode_eq (G := G) vid data p
  obtain ⟨r', hr, hrnode, hredge, hrnodes, hredges⟩ := run_updateNode_eq (G := G) vid data r
  rw [hr] at hindexed
  rw [hp, hr, h.node?_eq hnew]
  refine ⟨rfl, h.graph hindexed ⟨?_, ?_⟩ hrnode hredge hpnode hpedge⟩
  · rw [hpnodes, hrnodes, h.node, if_neg hnew, h.same.nodes]
  · rw [hpedges, hredges, h.same.edges]

theorem updateEdgeAt {key : String} (hnew : key ∉ oldKeys) (missing : GraphError)
    (data : Dict String) (hindexed : Indexed segment ((updateEdgeAt key missing data).run r).1) :
    ((updateEdgeAt key missing data).run p).2 = ((updateEdgeAt key missing data).run r).2 ∧
    PrebuiltSim segment oldVids oldKeys ((updateEdgeAt key missing data).run r).1
      ((updateEdgeAt key missing data).run p).1 := by
  have hlookup : p.edgeCache.lookup key = r.edgeCache.lookup key := by rw [h.edge, if_neg hnew]
  obtain ⟨p', hp, hpnode, hpedge, hpnodes, hpedges⟩ := run_updateEdgeAt_eq key missing data p
  obtain ⟨r', hr, hrnode, hredge, hrnodes, hredges⟩ := run_updateEdgeAt_eq key missing data r
  rw [hr] at hindexed
  rw [hp, hr, Store.rawEdge?, Store.rawEdge?, hlookup, h.same.edges]
  refine ⟨rfl, h.graph hindexed ⟨?_, ?_⟩ hrnode hredge hpnode hpedge⟩
  · rw [hpnodes, hrnodes, h.same.nodes]
  · rw [hpedges, hredges, hlookup, h.same.edges]

/-- An edge under a new key gets the same reply on both sides, if no end that is looked up is old.
The target is looked up only where the source is known. -/
theorem addEdge {fromVid toVid : String} (edge : EdgeM)
    (hkey : edgeKey segment fromVid toVid ∉ oldKeys)
    (hends : edgeKey segment fromVid toVid ∉ r.edgeCache →
      fromVid ∉ oldVids ∧ (fromVid ∈ r.nodeCache → toVid ∉ oldVids)) :
    ((Op.addEdge fromVid toVid edge).run segment p).2
      = ((Op.addEdge fromVid toVid edge).run segment r).2 ∧
    PrebuiltSim segment oldVids oldKeys ((Op.addEdge fromVid toVid edge).run segment r).1
      ((Op.addEdge fromVid toVid edge).run segment p).1 := by
  have hindexed : Indexed segment ((Op.addEdge fromVid toVid edge).run segment r).1 :=
    h.indexed.step rfl
  by_cases hcached : edgeKey segment fromVid toVid ∈ r.edgeCache
  · rw [run_addEdge, run_addEdge, if_pos hcached, if_pos (h.mem_edgeCache_iff.mpr ⟨hkey, hcached⟩)]
    exact ⟨rfl, h⟩
  · obtain ⟨hfromNew, htoNew⟩ := hends hcached
    rw [run_addEdge _ _ edge r, if_neg hcached] at hindexed ⊢
    rw [run_addEdge _ _ edge p, if_neg fun hmem => hcached (h.mem_edgeCache_iff.mp hmem).2, h.node,
      if_neg hfromNew]
    cases hfrom : r.nodeCache.lookup fromVid with
    | none => exact ⟨rfl, h⟩
    | some a =>
      rw [h.node, if_neg (htoNew (Finmap.mem_of_lookup_eq_some hfrom))]
      cases hto : r.nodeCache.lookup toVid with
      | none => exact ⟨rfl, h⟩
      | some b =>
        -- both ends are in range of the two graphs, so neither panics
        have ha := h.indexed.nodesInRange _ _ hfrom
        have hb := h.indexed.nodesInRange _ _ hto
        obtain ⟨gr, haddr, hrnodes, hredges⟩ := LawfulGraph.addEdge_in_range (e := edge) ha hb
        rw [← h.same.nodes] at ha hb
        obtain ⟨gp, haddp, hpnodes, hpedges⟩ := LawfulGraph.addEdge_in_range (e := edge) ha hb
        rw [hfrom, hto] at hindexed
        simp only [haddr] at hindexed
        simp only [haddr, haddp, h.same.edges]
        refine ⟨trivial, hindexed, ⟨?_, ?_⟩, h.node, lookup_insert_unless h.edge hkey _, h.oldVid,
          fun key hold => ?_⟩
        · rw [hpnodes, hrnodes, h.same.nodes]
        · rw [hpedges, hredges, h.same.edges]
        · exact Finmap.mem_insert.mpr (Or.inr (h.oldKey key hold))

/-- A call that leaves alone what is old does the same on both sides. -/
theorem agree {op : Op} (hop : op.isRemoval = false)
    (huntouched : op.touches segment oldVids oldKeys (· ∈ r.nodeCache) (· ∈ r.edgeCache) = false) :
    (op.run segment p).2 = (op.run segment r).2 ∧
    PrebuiltSim segment oldVids oldKeys (op.run segment r).1 (op.run segment p).1 := by
  have hindexed : Indexed segment (op.run segment r).1 := h.indexed.step hop
  -- `touches` says of each call what it looks up, and nothing of that is old
  cases op with
  | addNode node => exact h.addNode (by simpa [Op.touches] using huntouched)
  | findNodeByVid vid =>
    rw [reply_findNodeByVid, reply_findNodeByVid, run_findNodeByVid, run_findNodeByVid,
      h.node?_eq (by simpa [Op.touches] using huntouched)]
    exact ⟨rfl, h⟩
  | updateNode vid data => exact h.updateNode (by simpa [Op.touches] using huntouched) data
  | addEdge fromVid toVid edge =>
    obtain ⟨hkey, hends⟩ : edgeKey segment fromVid toVid ∉ oldKeys ∧
        (edgeKey segment fromVid toVid ∉ r.edgeCache →
          fromVid ∉ oldVids ∧ (fromVid ∈ r.nodeCache → toVid ∉ oldVids)) := by
      simpa [Op.touches] using huntouched
    exact h.addEdge edge hkey hends
  | updateEdge edgeVid data =>
    exact h.updateEdgeAt (by simpa [Op.touches] using huntouched) _ data hindexed
  | updateEdgeByNode fromVid toVid data =>
    exact h.updateEdgeAt (by simpa [Op.touches] using huntouched) _ data hindexed
  | removeNode vid | removeEdge edgeVid | removeEdgeByNode fromVid toVid =>
    simp [Op.isRemoval] at hop

/-! ### Calls that do not -/

omit h [LawfulGraph G] in
/-- `EdgeExists` is the reply for a cached key only. -/
theorem reply_addEdge_ne_exists {s : Store G} {fromVid toVid : String} (edge : EdgeM)
    (hkey : edgeKey segment fromVid toVid ∉ s.edgeCache) :
    ((Op.addEdge fromVid toVid edge).run segment s).2
      ≠ .edgeIndex (.error (.edgeExists fromVid toVid)) := by
  have hexit := run_addEdge_exit segment fromVid toVid edge s
  generalize (Op.addEdge fromVid toVid edge).run segment s = out at hexit ⊢
  cases hexit with
  | taken htaken => exact absurd htaken hkey
  | _ => simp

omit h [LawfulGraph G] in
/-- From a cached vid, only the other end can be missing. -/
theorem notFound_addEdge {s : Store G} {fromVid toVid vid : String} {edge : EdgeM}
    (hfrom : fromVid ∈ s.nodeCache)
    (hreply : ((Op.addEdge fromVid toVid edge).run segment s).2
      = .edgeIndex (.error (.nodeNotFound vid))) : vid = toVid ∧ toVid ∉ s.nodeCache := by
  have hexit := run_addEdge_exit segment fromVid toVid edge s
  generalize (Op.addEdge fromVid toVid edge).run segment s = out at hexit hreply
  cases hexit with
  | noFrom _ hnone => exact absurd hfrom hnone
  | noTo _ _ hto => exact ⟨by simpa [eq_comm] using hreply, hto⟩
  | _ => simp at hreply

omit [LawfulGraph G] in
/-- An old key, or an old end that is looked up, shows in the reply: the prebuilt instance does not
know it. -/
theorem differ_addEdge {fromVid toVid : String} (edge : EdgeM)
    (htouched : edgeKey segment fromVid toVid ∈ oldKeys ∨
      edgeKey segment fromVid toVid ∉ r.edgeCache ∧
      (fromVid ∈ oldVids ∨ fromVid ∈ r.nodeCache ∧ toVid ∈ oldVids)) :
    ((Op.addEdge fromVid toVid edge).run segment p).2
      ≠ ((Op.addEdge fromVid toVid edge).run segment r).2 := by
  intro heq
  rcases htouched with hkey | ⟨hkey, hold⟩
  · -- the old key is refused by the rebuilt instance only
    have hrefused : ((Op.addEdge fromVid toVid edge).run segment r).2
        = .edgeIndex (.error (.edgeExists fromVid toVid)) := by
      rw [run_addEdge, if_pos (h.oldKey _ hkey)]
    have hunknown : edgeKey segment fromVid toVid ∉ p.edgeCache := fun hmem =>
      (h.mem_edgeCache_iff.mp hmem).1 hkey
    exact reply_addEdge_ne_exists edge hunknown (heq.trans hrefused)
  · -- the old end is missing for the instance on the ready-made graph only
    have hfrom : fromVid ∈ r.nodeCache := hold.elim (h.oldVid _) And.left
    have hmissing : ∃ vid ∈ oldVids, ((Op.addEdge fromVid toVid edge).run segment p).2
        = .edgeIndex (.error (.nodeNotFound vid)) := by
      rw [run_addEdge, if_neg fun hmem => hkey (h.mem_edgeCache_iff.mp hmem).2, h.node, h.node]
      by_cases hfromOld : fromVid ∈ oldVids
      · exact ⟨fromVid, hfromOld, by rw [if_pos hfromOld]⟩
      · obtain ⟨-, htoOld⟩ := hold.resolve_left hfromOld
        obtain ⟨a, ha⟩ := Finmap.mem_iff.mp hfrom
        exact ⟨toVid, htoOld, by rw [if_neg hfromOld, if_pos htoOld, ha]⟩
    obtain ⟨vid, hvid, hreply⟩ := hmissing
    obtain ⟨rfl, hnot⟩ := notFound_addEdge hfrom (heq.symm.trans hreply)
    exact hnot (h.oldVid _ hvid)

/-- An old key shows in the reply: the rebuilt instance updates its edge, and the prebuilt one
reports it missing. -/
theorem differ_updateEdgeAt {key : String} (hkey : key ∈ oldKeys) (missing : GraphError)
    (data : Dict String) :
    ((MemoryGraph.updateEdgeAt key missing data).run p).2
      ≠ ((MemoryGraph.updateEdgeAt key missing data).run r).2 := by
  have hnone : p.edgeCache.lookup key = none := by rw [h.edge, if_pos hkey]
  rw [(h.indexed.updateEdgeAt_ok_iff key missing data).mpr (h.oldKey key hkey), run_updateEdgeAt,
    hnone]
  simp

/-- A call that deals with something old replies differently on the two sides. -/
theorem differ {op : Op}
    (htouched : op.touches segment oldVids oldKeys (· ∈ r.nodeCache) (· ∈ r.edgeCache) = true) :
    (op.run segment p).2 ≠ (op.run segment r).2 := by
  cases op with
  | addNode node =>
    have hold : node.vid ∈ oldVids := by simpa [Op.touches] using htouched
    rw [run_addNode node p, if_neg fun hmem => (h.mem_nodeCache_iff.mp hmem).1 hold,
      run_addNode node r, if_pos (h.oldVid _ hold)]
    simp
  | findNodeByVid vid =>
    obtain ⟨hnone, hsome⟩ := h.node?_old (show vid ∈ oldVids by simpa [Op.touches] using htouched)
    rw [reply_findNodeByVid, reply_findNodeByVid, hnone]
    intro heq
    rw [← Reply.node.inj heq] at hsome
    simp at hsome
  | updateNode vid data =>
    obtain ⟨hnone, hsome⟩ := h.node?_old (show vid ∈ oldVids by simpa [Op.touches] using htouched)
    rw [reply_updateNode, reply_updateNode, hnone, hsome]
    simp
  | addEdge fromVid toVid edge => exact h.differ_addEdge edge (by simpa [Op.touches] using htouched)
  | updateEdge edgeVid data =>
    exact h.differ_updateEdgeAt (by simpa [Op.touches] using htouched) _ data
  | updateEdgeByNode fromVid toVid data =>
    exact h.differ_updateEdgeAt (by simpa [Op.touches] using htouched) _ data
  | _ => simp [Op.touches] at htouched

/-- The rebuilt instance allows a call of the other one exactly when the call leaves alone what is
old. -/
theorem allows_iff {op : Op} (hop : op.isRemoval = false) :
    (rebuiltSpec segment).Allows r op (op.run segment p) ↔
      ¬ op.touches segment oldVids oldKeys (· ∈ r.nodeCache) (· ∈ r.edgeCache) = true := by
  constructor
  · rintro ⟨hreply, -⟩ htouched
    exact h.differ htouched hreply
  · intro huntouched
    obtain ⟨hreply, hsim⟩ := h.agree hop (Bool.eq_false_of_not_eq_true huntouched)
    exact ⟨hreply, hsim.same⟩

end PrebuiltSim

/-! ## Sequences of calls -/

/-- No call of the sequence deals with what the graph brought along. `vids` and `keys` are the vids
and keys there are when the sequence begins. -/
def keepsClear (segment : String) (oldVids oldKeys : List String) :
    List String → List String → List Op → Bool
  | _, _, [] => true
  | vids, keys, op :: ops =>
    !op.touches segment oldVids oldKeys (· ∈ vids) (· ∈ keys) &&
      keepsClear segment oldVids oldKeys (vids ++ op.addsVid?.toList)
        (keys ++ ((op.joins? vids).map fun p => edgeKey segment p.1 p.2).toList) ops

section Laws

variable [LawfulGraph G]

/-- The rebuilt instance knows the vids and keys that can be read off the calls. -/
theorem avoids_iff_keepsClear {oldVids oldKeys vids keys : List String} {r : Store G}
    (h : Indexed segment r) (hvids : ∀ vid, vid ∈ r.nodeCache ↔ vid ∈ vids)
    (hkeys : ∀ key, key ∈ r.edgeCache ↔ key ∈ keys) {ops : List Op}
    (hops : ∀ op ∈ ops, op.isRemoval = false) :
    (rebuiltSpec (G := G) segment).Avoids (fun r op =>
      op.touches segment oldVids oldKeys (· ∈ r.nodeCache) (· ∈ r.edgeCache) = true) r ops ↔
    keepsClear segment oldVids oldKeys vids keys ops = true := by
  induction ops generalizing r vids keys with
  | nil => exact iff_of_true trivial rfl
  | cons op ops ih =>
    have hop := hops op List.mem_cons_self
    -- the lists go along with what the rebuilt instance knows
    have hvids' : ∀ vid, vid ∈ (op.run segment r).1.nodeCache ↔
        vid ∈ vids ++ op.addsVid?.toList := by
      intro vid
      rw [mem_nodeCache_run_iff, hvids, List.mem_append, Option.mem_toList]
    have hkeys' : ∀ key, key ∈ (op.run segment r).1.edgeCache ↔
        key ∈ keys ++ ((op.joins? vids).map fun p => edgeKey segment p.1 p.2).toList := by
      intro key
      rw [h.nodesInRange.mem_edgeCache_run_iff op hvids, hkeys, List.mem_append]
      simp
    have hrest := ih (h.step hop) hvids' hkeys' fun op' hmem =>
      hops op' (List.mem_cons_of_mem op hmem)
    rw [Spec.Avoids, keepsClear, Bool.and_eq_true, ← hrest]
    simp only [hvids, hkeys, Bool.not_eq_true, Bool.not_eq_eq_eq_not]
    rfl

omit [LawfulGraph G] in
/-- At the start everything that the rebuilt instance knows is old. -/
theorem Knows.prebuiltSim {g : G} {r : Store G} (h : Knows segment r g) :
    PrebuiltSim segment (⟨g, ∅, ∅⟩ : Store G).vids ((⟨g, ∅, ∅⟩ : Store G).keys segment) r
      ⟨g, ∅, ∅⟩ where
  indexed := h.indexed
  same := ⟨h.nodes.symm, h.edges.symm⟩
  node vid := by
    split
    · rfl
    · rename_i hnew
      exact (Finmap.lookup_eq_none.mpr ((h.mem_nodeCache vid).not.mpr hnew)).symm
  edge key := by
    split
    · rfl
    · rename_i hnew
      exact (Finmap.lookup_eq_none.mpr ((h.mem_edgeCache key).not.mpr hnew)).symm
  oldVid vid := (h.mem_nodeCache vid).mpr
  oldKey key := (h.mem_edgeCache key).mpr

/-- **A ready-made graph is as good as a rebuilt one for calls that keep clear of it.** Take any
graph whose nodes have distinct vids and whose edges have distinct keys, and any sequence of
insertions, lookups and updates. The instance made on this graph gives the replies of the instance
rebuilt call by call, and has the same graph after each call, if and only if no call of the
sequence deals with what the graph brought along. -/
theorem prebuilt_follows_rebuilt_iff (nodeCap edgeCap nodeCap' edgeCap' : Nat) {g g₀ : G}
    (hg₀ : Graph.IsEmpty g₀)
    (hends : ∀ e ∈ Graph.rawEdges g,
      e.source < (Graph.rawNodes g).length ∧ e.target < (Graph.rawNodes g).length)
    (hvids : (GraphInstance.new nodeCap edgeCap g).store.vids.Nodup)
    (hkeys : ((GraphInstance.new nodeCap edgeCap g).store.keys "_").Nodup)
    {ops : List Op} (hops : ∀ op ∈ ops, op.isRemoval = false) :
    (rebuiltSpec "_").Follows (fun p op => op.run "_" p)
      ((GraphInstance.new nodeCap' edgeCap' g₀).runAll
        (GraphInstance.new nodeCap edgeCap g).store.rebuild).1
      (GraphInstance.new nodeCap edgeCap g).store ops ↔
    keepsClear "_" (GraphInstance.new nodeCap edgeCap g).store.vids
      ((GraphInstance.new nodeCap edgeCap g).store.keys "_")
      (GraphInstance.new nodeCap edgeCap g).store.vids
      ((GraphInstance.new nodeCap edgeCap g).store.keys "_") ops = true := by
  have hknows : Knows "_" ((GraphInstance.new nodeCap' edgeCap' g₀).runAll
      (GraphInstance.new nodeCap edgeCap g).store.rebuild).1 g :=
    knows_rebuild hg₀ hvids hkeys hends
  refine (Spec.follows_iff (fun hsim hop => hsim.allows_iff hop) (fun hsim hop huntouched => ?_)
    hknows.prebuiltSim hops).trans
      (avoids_iff_keepsClear hknows.indexed hknows.mem_nodeCache hknows.mem_edgeCache hops)
  exact (hsim.agree hop (Bool.eq_false_of_not_eq_true huntouched)).2

end Laws

/-- A ready-made graph of one edge from `"a"` to `"b"`. -/
def readyMade : ListGraph true NodeM EdgeM where
  nodes := [⟨"a", ∅⟩, ⟨"b", ∅⟩]
  edges := [⟨⟨1, "a", "b", ∅⟩, 0, 1⟩]

/-- New nodes and edges among them, and an edge from a missing vid to an old one. -/
theorem prebuilt_follows_rebuilt_clear :
    (rebuiltSpec "_").Follows (fun p op => op.run "_" p)
      (GraphInstance.blank.runAll (GraphInstance.new 0 0 readyMade).store.rebuild).1
      (GraphInstance.new 0 0 readyMade).store
      [.addEdge "c" "a" ⟨1, "c", "a", ∅⟩, .addNode ⟨"c", ∅⟩, .addEdge "c" "c" ⟨1, "c", "c", ∅⟩,
        .updateEdge "c_c" ∅, .findNodeByVid "c"] := by
  refine (prebuilt_follows_rebuilt_iff 0 0 0 0 ⟨rfl, rfl⟩ (by decide) (by decide) (by decide)
    (by decide)).mpr ?_
  decide

/-- The node `"a"` of the graph is not found. -/
theorem prebuilt_node_not_found :
    (∀ e ∈ Graph.rawEdges readyMade, e.source < (Graph.rawNodes readyMade).length ∧
      e.target < (Graph.rawNodes readyMade).length) ∧
    (GraphInstance.new 0 0 readyMade).store.vids.Nodup ∧
    ((GraphInstance.new 0 0 readyMade).store.keys "_").Nodup ∧
    (∀ op ∈ [Op.findNodeByVid "a"], op.isRemoval = false) ∧
    ¬ (rebuiltSpec "_").Follows (fun p op => op.run "_" p)
      (GraphInstance.blank.runAll (GraphInstance.new 0 0 readyMade).store.rebuild).1
      (GraphInstance.new 0 0 readyMade).store [.findNodeByVid "a"] := by
  refine ⟨by decide, by decide, by decide, by decide, ?_⟩
  rintro ⟨⟨hfind, -⟩, -⟩
  have hreply : Reply.node none = Reply.node (some ⟨"a", ∅⟩) := hfind
  simp at hreply

end MemoryGraph
