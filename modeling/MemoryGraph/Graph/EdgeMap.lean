import MemoryGraph.Graph.Lookup
import MemoryGraph.Refine.Spec

/-!
# MemoryGraph — the edge store against a finite map

For a fixed set of nodes, `add_edge`, the two updates and the two removals are meant to be the
operations of a finite map from edge keys to edges, and the edges of the graph are meant to be
the values of that map. `edgeSpec` is the map. A key is **live** while it is a key of it.

The store follows the map as long as no removal hits a live key. After one, the key is gone
from the map and still in `edge_cache`: an `add_edge` under it is refused, and an update or a
removal under it works on whichever edge has moved to the stale index.

* **`edge_simulation`**, **`edge_trap`** — the two halves, for `Refine.Spec.follows_next_iff`;
* **`edge_store_follows_map_iff`** — the exact condition on the sequence of calls.
-/

namespace MemoryGraph

open Conc Petgraph Refine

variable {G : Type} [Graph G NodeM EdgeM] {segment : String} {vids : List String}

def Op.isEdgeOp : Op → Bool
  | .addEdge _ _ _ | .updateEdge _ _ | .updateEdgeByNode _ _ _ | .removeEdge _
  | .removeEdgeByNode _ _ => true
  | _ => false

abbrev EdgeMap := Dict LiveEdge

/-- More data for the edge under a key, if it is live. -/
def EdgeMap.extend (live : EdgeMap) (key : String) (data : Dict String) : EdgeMap :=
  match live.lookup key with
  | some l => live.insert key (l.extend data)
  | none => live

/-- What the edge store is for, over the nodes `vids`: a finite map from edge keys to edges. -/
def edgeNext (segment : String) (vids : List String) (live : EdgeMap) : Op → EdgeMap
  | .addEdge fromVid toVid edge =>
    if fromVid ∈ vids ∧ toVid ∈ vids ∧ edgeKey segment fromVid toVid ∉ live then
      live.insert (edgeKey segment fromVid toVid) ⟨fromVid, toVid, edge⟩
    else live
  | .updateEdge edgeVid data => live.extend edgeVid data
  | .updateEdgeByNode fromVid toVid data => live.extend (edgeKey segment fromVid toVid) data
  | .removeEdge edgeVid => live.erase edgeVid
  | .removeEdgeByNode fromVid toVid => live.erase (edgeKey segment fromVid toVid)
  | _ => live

/-- An update of a key succeeds exactly on a live one. -/
def UpdateReply (live : EdgeMap) (key : String) (reply : Reply) : Prop :=
  if key ∈ live then reply = .unit (.ok ()) else ∃ error, reply = .unit (.error error)

/-- The replies of the map. For `add_edge` only calls between nodes that exist count, and the
index in a successful reply is left open. -/
def EdgeReply (segment : String) (vids : List String) (live : EdgeMap) (op : Op)
    (reply : Reply) : Prop :=
  match op with
  | .addEdge fromVid toVid _ => fromVid ∈ vids → toVid ∈ vids →
    if edgeKey segment fromVid toVid ∈ live then
      reply = .edgeIndex (.error (.edgeExists fromVid toVid))
    else ∃ idx, reply = .edgeIndex (.ok idx)
  | .updateEdge edgeVid _ => UpdateReply live edgeVid reply
  | .updateEdgeByNode fromVid toVid _ => UpdateReply live (edgeKey segment fromVid toVid) reply
  | .removeEdge edgeVid => reply = .flag (edgeVid ∈ live)
  | .removeEdgeByNode fromVid toVid => reply = .flag (edgeKey segment fromVid toVid ∈ live)
  | _ => True

/-- The edges of the graph, ends and weights included, are exactly the live ones: the live keys
can be listed without repetition so that they name the edges in index order. -/
def Store.HasEdges (s : Store G) (live : EdgeMap) : Prop :=
  ∃ keys : List String, keys.Nodup ∧ (∀ key, key ∈ keys ↔ key ∈ live) ∧
    s.seen = keys.map live.lookup

/-- The map as a specification: its replies, and the graph after the call. -/
def edgeSpec (segment : String) (vids : List String) : Spec EdgeMap (Store G) Op Reply where
  next := edgeNext segment vids
  Allows live op outcome :=
    EdgeReply segment vids live op outcome.2 ∧ outcome.1.HasEdges (edgeNext segment vids live op)

/-- The caches are exact, the nodes are `vids`, and the keys resolve to the live edges. -/
structure EdgeSim (segment : String) (vids : List String) (live : EdgeMap) (s : Store G) :
    Prop where
  indexed : Indexed segment s
  nodes : ∀ vid, vid ∈ s.nodeCache ↔ vid ∈ vids
  lookup : ∀ key, live.lookup key = s.edge? key

/-- Some key of a pair of nodes is cached and not live. -/
def StaleKey (segment : String) (vids : List String) (live : EdgeMap) (s : Store G) : Prop :=
  ∃ fromVid ∈ vids, ∃ toVid ∈ vids, edgeKey segment fromVid toVid ∈ s.edgeCache ∧
    edgeKey segment fromVid toVid ∉ live

/-- The call removes a live key. -/
def RemovesLiveKey (segment : String) (live : EdgeMap) (op : Op) : Prop :=
  ∃ key, key ∈ live ∧ op.edgeRemoval? segment = some key

/-- The call is an `add_edge` between two of the nodes `vids`, under the key. -/
def Op.AddsKey (segment : String) (vids : List String) (op : Op) (key : String) : Prop :=
  ∃ fromVid ∈ vids, ∃ toVid ∈ vids, ∃ edge,
    op = .addEdge fromVid toVid edge ∧ edgeKey segment fromVid toVid = key

/-- An extension reaches one key, if it is live. -/
theorem EdgeMap.lookup_extend (live : EdgeMap) (key : String) (data : Dict String) (key' : String) :
    (live.extend key data).lookup key' =
      if key' = key then (live.lookup key).map fun l => l.extend data else live.lookup key' := by
  unfold EdgeMap.extend
  rcases eq_or_ne key' key with rfl | hne
  · cases hkey : live.lookup key' <;> simp [hkey]
  · cases live.lookup key with
    | none => simp [hne]
    | some l => rw [if_neg hne, Finmap.lookup_insert_of_ne live hne]

@[simp] theorem EdgeMap.mem_extend {live : EdgeMap} {key key' : String} {data : Dict String} :
    key' ∈ live.extend key data ↔ key' ∈ live := by
  rw [Finmap.mem_iff, Finmap.mem_iff, EdgeMap.lookup_extend]
  split
  · subst key'
    simp
  · rfl

namespace EdgeSim

variable {live : EdgeMap} {s : Store G}

theorem mem_iff (h : EdgeSim segment vids live s) {key : String} :
    key ∈ live ↔ key ∈ s.edgeCache := by
  rw [← h.indexed.isSome_edge?, Finmap.mem_iff, ← Option.isSome_iff_exists, h.lookup]

/-- The cached indices list the keys in the order of the edges. -/
theorem hasEdges (h : EdgeSim segment vids live s) : s.HasEdges live := by
  obtain ⟨keys, hget, hseen⟩ := h.indexed.exists_keys
  refine ⟨keys, nodup_of_getElem? hget, fun key => ?_, ?_⟩
  · rw [h.mem_iff, List.mem_iff_getElem?, Finmap.mem_iff]
    exact exists_congr fun idx => hget
  · rw [hseen]
    exact List.map_congr_left fun key _ => (h.lookup key).symm

/-- The removal of a live edge takes exactly that edge out of the graph. -/
theorem hasEdges_swapRemove (h : EdgeSim segment vids live s) {s' : Store G} {key : String}
    {idx : Nat}
    (hidx : s.edgeCache.lookup key = some idx) (hseen' : s'.seen = swapRemove s.seen idx) :
    s'.HasEdges (live.erase key) := by
  -- the keys in index order follow the edges: the last one moves to the freed index
  obtain ⟨keys, hget, hseen⟩ := h.indexed.exists_keys
  have hlt : idx < keys.length := (List.getElem?_eq_some_iff.mp (hget.mpr hidx)).1
  have hmem : ∀ k, k ∈ swapRemove keys idx ↔ k ∈ live.erase key := by
    intro k
    rw [(swapRemove_perm hlt).mem_iff, List.mem_eraseIdx_iff_getElem?, Finmap.mem_erase, h.mem_iff,
      Finmap.mem_iff]
    constructor
    · rintro ⟨i, hne, hk⟩
      refine ⟨?_, i, hget.mp hk⟩
      rintro rfl
      rw [hget, hidx] at hk
      exact hne (by simpa using hk.symm)
    · rintro ⟨hne, i, hk⟩
      refine ⟨i, ?_, hget.mpr hk⟩
      rintro rfl
      exact hne (h.indexed.key_unique hidx hk)
  refine ⟨swapRemove keys idx, ?_, hmem, ?_⟩
  · have hnodup := nodup_map_swapRemove (f := id) hlt (by simpa using nodup_of_getElem? hget)
    simpa using hnodup
  · rw [hseen', hseen, ← map_swapRemove]
    refine List.map_congr_left fun k hk => ?_
    have hne := (Finmap.mem_erase.mp ((hmem k).mp hk)).1
    rw [Finmap.lookup_erase_ne hne, h.lookup]

theorem unchanged (h : EdgeSim segment vids live s) {live' : EdgeMap} (hlive : live' = live) :
    EdgeSim segment vids live' s := hlive ▸ h

variable [LawfulGraph G]

/-- `add_edge` under a new key between two nodes makes the key live, with the edge of the call;
otherwise nothing changes. -/
theorem addEdge (h : EdgeSim segment vids live s) (fromVid toVid : String) (edge : EdgeM) :
    EdgeSim segment vids (edgeNext segment vids live (.addEdge fromVid toVid edge))
      ((Op.addEdge fromVid toVid edge).run segment s).1 ∧
    EdgeReply segment vids live (.addEdge fromVid toVid edge)
      ((Op.addEdge fromVid toVid edge).run segment s).2 := by
  -- a cached key is live, and the call is refused on both sides
  by_cases hkey : edgeKey segment fromVid toVid ∈ s.edgeCache
  · have hlive := h.mem_iff.mpr hkey
    simp only [edgeNext, EdgeReply, hlive, run_addEdge, if_pos hkey, not_true, and_false, if_false,
      if_true, implies_true, and_true]
    exact h
  have hdead := h.mem_iff.not.mpr hkey
  by_cases hvids : fromVid ∈ vids ∧ toVid ∈ vids
  · have hfrom := (h.nodes fromVid).mpr hvids.1
    have hto := (h.nodes toVid).mpr hvids.2
    obtain ⟨s', a, b, -, -, hrun, hnode, -, -, -⟩ := h.indexed.run_addEdge_fresh edge hfrom hto hkey
    have hlookup := h.indexed.edge?_addEdge edge hfrom hto hkey
    have hindexed : Indexed segment ((Op.addEdge fromVid toVid edge).run segment s).1 :=
      h.indexed.step rfl
    simp only [edgeNext, EdgeReply, hvids, hdead, not_false_iff, and_self, if_true, if_false]
    refine ⟨⟨hindexed, ?_, fun key => ?_⟩, ?_⟩
    · rw [hrun, hnode]
      exact h.nodes
    · rw [hlookup]
      rcases eq_or_ne key (edgeKey segment fromVid toVid) with rfl | hne
      · rw [Finmap.lookup_insert, Function.update_self]
      · rw [Finmap.lookup_insert_of_ne _ hne, Function.update_of_ne hne, h.lookup]
    · rw [hrun]
      exact fun _ _ => ⟨_, rfl⟩
  · -- an endpoint that is not among the nodes is not cached, and the call is refused
    have hsame : ((Op.addEdge fromVid toVid edge).run segment s).1 = s := by
      have hexit := run_addEdge_exit segment fromVid toVid edge s
      generalize (Op.addEdge fromVid toVid edge).run segment s = out at hexit ⊢
      cases hexit with
      | added _ hfrom hto _ =>
        have hfrom' := (h.nodes fromVid).mp (Finmap.mem_of_lookup_eq_some hfrom)
        have hto' := (h.nodes toVid).mp (Finmap.mem_of_lookup_eq_some hto)
        exact absurd ⟨hfrom', hto'⟩ hvids
      | _ => rfl
    rw [hsame]
    refine ⟨?_, fun hfrom hto => absurd ⟨hfrom, hto⟩ hvids⟩
    exact h.unchanged (if_neg fun hall => hvids ⟨hall.1, hall.2.1⟩)

theorem updateEdgeAt (h : EdgeSim segment vids live s) (key : String) (missing : GraphError)
    (data : Dict String) :
    EdgeSim segment vids (live.extend key data)
      ((MemoryGraph.updateEdgeAt key missing data).run s).1 ∧
    UpdateReply live key ((MemoryGraph.updateEdgeAt key missing data).run s).2 := by
  have hindexed : Indexed segment ((MemoryGraph.updateEdgeAt key missing data).run s).1 :=
    h.indexed.change (show (Op.updateEdge key data).isRemoval = false from rfl)
      (change_updateEdgeAt rfl missing s)
  -- what each key resolves to after the call, and what the call replies
  have hlookup := h.indexed.edge?_updateEdgeAt key missing data
  have hnode : ((MemoryGraph.updateEdgeAt key missing data).run s).1.nodeCache = s.nodeCache ∧
      UpdateReply live key ((MemoryGraph.updateEdgeAt key missing data).run s).2 := by
    unfold UpdateReply
    cases hidx : s.edgeCache.lookup key with
    | none =>
      rw [if_neg (h.mem_iff.not.mpr (Finmap.lookup_eq_none.mp hidx)), run_updateEdgeAt, hidx]
      exact ⟨rfl, missing, rfl⟩
    | some idx =>
      obtain ⟨e, he⟩ := h.indexed.exists_edge hidx
      obtain ⟨s', hrun, hnode, -⟩ := run_updateEdgeAt_cached missing data hidx he
      rw [if_pos (h.mem_iff.mpr (Finmap.mem_of_lookup_eq_some hidx)), hrun]
      exact ⟨hnode, rfl⟩
  refine ⟨⟨hindexed, ?_, fun key' => ?_⟩, hnode.2⟩
  · rw [hnode.1]
    exact h.nodes
  · rw [EdgeMap.lookup_extend, hlookup, h.lookup, h.lookup, Function.update_apply]

omit [LawfulGraph G] in
/-- A removal of a key that is not live does nothing, on both sides. -/
theorem removeEdgeAt (h : EdgeSim segment vids live s) {key : String} (hdead : key ∉ live) :
    EdgeSim segment vids (live.erase key) ((MemoryGraph.removeEdgeAt key).run s).1 := by
  have hnone : s.edgeCache.lookup key = none := Finmap.lookup_eq_none.mpr (h.mem_iff.not.mp hdead)
  rw [erase_eq_self hdead, run_removeEdgeAt, hnone]
  exact h

/-- The first removal of a live edge still does what the map does. -/
theorem allows_removeEdgeAt (h : EdgeSim segment vids live s) (key : String) :
    ((MemoryGraph.removeEdgeAt key).run s).2 = .flag (key ∈ live) ∧
      ((MemoryGraph.removeEdgeAt key).run s).1.HasEdges (live.erase key) := by
  cases hidx : s.edgeCache.lookup key with
  | none =>
    have hdead : key ∉ live := h.mem_iff.not.mpr (Finmap.lookup_eq_none.mp hidx)
    refine ⟨?_, (h.removeEdgeAt hdead).hasEdges⟩
    simp [run_removeEdgeAt, hidx, hdead]
  | some idx =>
    have hlive : key ∈ live := h.mem_iff.mpr (Finmap.mem_of_lookup_eq_some hidx)
    obtain ⟨e, he⟩ := h.indexed.exists_edge hidx
    have hlt := (List.getElem?_eq_some_iff.mp he).1
    rw [run_removeEdgeAt, hidx]
    refine ⟨by simp [hlive], h.hasEdges_swapRemove hidx ?_⟩
    simp only [Store.seen, Store.vids, LawfulGraph.rawNodes_removeEdge,
      LawfulGraph.rawEdges_removeEdge hlt, map_swapRemove]

end EdgeSim

/-- A live key is that of two nodes. -/
theorem EdgeSim.exists_pair {live : EdgeMap} {s : Store G} (h : EdgeSim segment vids live s)
    {key : String} (hkey : key ∈ live) :
    ∃ fromVid ∈ vids, ∃ toVid ∈ vids, edgeKey segment fromVid toVid = key := by
  obtain ⟨l, hl, rfl⟩ := h.indexed.mem_edgeCache.mp (h.mem_iff.mp hkey)
  obtain ⟨e, -, he⟩ := List.mem_map.mp hl
  have hmem := mem_of_seen he
  have hnode : ∀ vid ∈ s.vids, vid ∈ vids := fun vid hvid =>
    (h.nodes vid).mp (h.indexed.mem_nodeCache.mpr hvid)
  exact ⟨l.source, hnode _ hmem.1, l.target, hnode _ hmem.2, rfl⟩

/-- After the removal of a live key, the key stays cached and not live, until an `add_edge`
under it is refused that the map would accept. -/
theorem edge_trap : (edgeSpec segment vids).Trap (fun s op => op.run segment s)
    (fun op => op.isEdgeOp = true) (RemovesLiveKey segment)
    (EdgeSim (G := G) segment vids) (StaleKey segment vids) where
  enters {live s op} h hop hbad := by
    obtain ⟨key, hlive, hremoval⟩ := hbad
    -- a live key is the key of a pair of nodes, between which an edge can be asked for again
    obtain ⟨fromVid, hfrom, toVid, hto, rfl⟩ := h.exists_pair hlive
    refine ⟨fromVid, hfrom, toVid, hto, (run_extends op s).mem_edge (h.mem_iff.mp hlive), ?_⟩
    cases op with
    | removeEdge edgeVid =>
      obtain rfl : edgeVid = edgeKey segment fromVid toVid := by
        simpa [Op.edgeRemoval?] using hremoval
      exact Finmap.notMem_erase_self
    | removeEdgeByNode fromVid' toVid' =>
      have hkey : edgeKey segment fromVid' toVid' = edgeKey segment fromVid toVid := by
        simpa [Op.edgeRemoval?] using hremoval
      show _ ∉ live.erase _
      rw [hkey]
      exact Finmap.notMem_erase_self
    | _ => simp [Op.edgeRemoval?] at hremoval
  stays {live s op} h hop hallowed := by
    obtain ⟨fromVid, hfrom, toVid, hto, hcached, hdead⟩ := h
    refine ⟨fromVid, hfrom, toVid, hto, (run_extends op s).mem_edge hcached, ?_⟩
    cases op with
    | addEdge fromVid' toVid' edge =>
      show _ ∉ if _ then _ else live
      split
      · rename_i hfresh
        have hne : edgeKey segment fromVid toVid ≠ edgeKey segment fromVid' toVid' := by
          intro hkey
          -- the map would accept the key, and the cache refuses it
          have hok := hallowed.1 hfresh.1 hfresh.2.1
          rw [if_neg hfresh.2.2, run_addEdge, if_pos (hkey ▸ hcached)] at hok
          simp at hok
        simpa [Finmap.mem_insert, hne] using hdead
      · exact hdead
    | updateEdge edgeVid data => exact EdgeMap.mem_extend.not.mpr hdead
    | updateEdgeByNode fromVid' toVid' data => exact EdgeMap.mem_extend.not.mpr hdead
    | removeEdge edgeVid => exact fun hmem => hdead (Finmap.mem_erase.mp hmem).2
    | removeEdgeByNode fromVid' toVid' => exact fun hmem => hdead (Finmap.mem_erase.mp hmem).2
    | _ => exact hdead
  probe {live s} h := by
    obtain ⟨fromVid, hfrom, toVid, hto, hcached, hdead⟩ := h
    refine ⟨.addEdge fromVid toVid ⟨0, fromVid, toVid, ∅⟩, rfl, fun hallowed => ?_⟩
    have hok := hallowed.1 hfrom hto
    rw [if_neg hdead, run_addEdge, if_pos hcached] at hok
    simp at hok

/-- Away from removals of live keys, the live keys are the old ones and the ones added. -/
theorem mem_edgeNext_iff {live : EdgeMap} {op : Op}
    (hgood : ∀ key, key ∈ live → op.edgeRemoval? segment ≠ some key) (key : String) :
    key ∈ edgeNext segment vids live op ↔ key ∈ live ∨ op.AddsKey segment vids key := by
  have hdead : ∀ {key'}, op.edgeRemoval? segment = some key' →
      (key ∈ live.erase key' ↔ key ∈ live) := by
    intro key' hremoval
    rw [erase_eq_self fun hlive => hgood key' hlive hremoval]
  -- removals are of keys that are not live, so only `add_edge` changes the keys
  cases op with
  | addEdge fromVid toVid edge =>
    have hadds : (Op.addEdge fromVid toVid edge).AddsKey segment vids key ↔
        fromVid ∈ vids ∧ toVid ∈ vids ∧ key = edgeKey segment fromVid toVid := by
      constructor
      · rintro ⟨fromVid', hfrom, toVid', hto, edge', heq, rfl⟩
        cases heq
        exact ⟨hfrom, hto, rfl⟩
      · rintro ⟨hfrom, hto, rfl⟩
        exact ⟨fromVid, hfrom, toVid, hto, edge, rfl, rfl⟩
    rw [hadds]
    by_cases hvids : fromVid ∈ vids ∧ toVid ∈ vids
    · by_cases hkey : edgeKey segment fromVid toVid ∈ live
      · simp only [edgeNext, hvids, hkey, not_true, and_false, if_false, true_and]
        exact ⟨Or.inl, fun h => h.elim id fun heq => heq ▸ hkey⟩
      · simp [edgeNext, hvids, hkey, Finmap.mem_insert, or_comm]
    · have hnext : edgeNext segment vids live (.addEdge fromVid toVid edge) = live :=
        if_neg fun hall => hvids ⟨hall.1, hall.2.1⟩
      rw [hnext, or_iff_left fun hall => hvids ⟨hall.1, hall.2.1⟩]
  | updateEdge edgeVid data => simp [edgeNext, Op.AddsKey]
  | updateEdgeByNode fromVid toVid data => simp [edgeNext, Op.AddsKey]
  | removeEdge edgeVid =>
    rw [or_iff_left (by simp [Op.AddsKey])]
    exact hdead rfl
  | removeEdgeByNode fromVid toVid =>
    rw [or_iff_left (by simp [Op.AddsKey])]
    exact hdead rfl
  | _ => simp [edgeNext, Op.AddsKey]

section Refinement

variable [LawfulGraph G]

/-- While no live key has been removed, every reply is the map's and the edges of the graph are
the live ones, and every call but such a removal keeps it so. -/
theorem edge_simulation : (edgeSpec segment vids).Simulation (fun s op => op.run segment s)
    (fun op => op.isEdgeOp = true) (RemovesLiveKey segment) (EdgeSim (G := G) segment vids) where
  allows {live s op} h hop := by
    cases op with
    | addEdge fromVid toVid edge =>
      obtain ⟨hsim, hreply⟩ := h.addEdge fromVid toVid edge
      exact ⟨hreply, hsim.hasEdges⟩
    | updateEdge edgeVid data =>
      obtain ⟨hsim, hreply⟩ := h.updateEdgeAt edgeVid (.edgeNotFound edgeVid) data
      exact ⟨hreply, hsim.hasEdges⟩
    | updateEdgeByNode fromVid toVid data =>
      obtain ⟨hsim, hreply⟩ := h.updateEdgeAt (edgeKey segment fromVid toVid)
        (.edgeNotFound (fromVid ++ "->" ++ toVid)) data
      exact ⟨hreply, hsim.hasEdges⟩
    -- a removal is allowed even of a live key; what it breaks comes after it
    | removeEdge edgeVid => exact h.allows_removeEdgeAt edgeVid
    | removeEdgeByNode fromVid toVid => exact h.allows_removeEdgeAt _
    | _ => simp [Op.isEdgeOp] at hop
  keeps {live s op} h hop hgood := by
    cases op with
    | addEdge fromVid toVid edge => exact (h.addEdge fromVid toVid edge).1
    | updateEdge edgeVid data => exact (h.updateEdgeAt edgeVid _ data).1
    | updateEdgeByNode fromVid toVid data => exact (h.updateEdgeAt _ _ data).1
    | removeEdge edgeVid => exact h.removeEdgeAt fun hlive => hgood ⟨_, hlive, rfl⟩
    | removeEdgeByNode fromVid toVid => exact h.removeEdgeAt fun hlive => hgood ⟨_, hlive, rfl⟩
    | _ => simp [Op.isEdgeOp] at hop

end Refinement

/-! ## From an empty graph -/

variable [LawfulGraph G]

/-- A node more is no edge more. -/
theorem EdgeSim.addNode {live : EdgeMap} {s : Store G} (h : EdgeSim segment vids live s)
    (node : NodeM) :
    EdgeSim segment (vids ++ [node.vid]) live ((Op.addNode node).run segment s).1 where
  indexed := h.indexed.step rfl
  nodes vid := by
    rw [List.mem_append, List.mem_singleton, ← h.nodes, run_addNode]
    split
    · rename_i hcached
      constructor
      · exact Or.inl
      · rintro (hold | rfl)
        · exact hold
        · exact hcached
    · rw [Finmap.mem_insert, or_comm]
  lookup key := by rw [h.indexed.edge?_addNode, h.lookup]

/-- Nodes may be added to the simulation at any time. -/
theorem EdgeSim.addNodes {live : EdgeMap} {s : Store G} (h : EdgeSim segment vids live s)
    (nodes : List NodeM) : EdgeSim segment (vids ++ nodes.map NodeM.vid) live
      (runAll segment (nodes.map .addNode) s).1 := by
  induction nodes generalizing vids s with
  | nil =>
    rw [List.map_nil, List.append_nil]
    exact h
  | cons node nodes ih =>
    have hrest := ih (h.addNode node)
    rw [List.append_assoc] at hrest
    exact hrest

omit [LawfulGraph G] in
theorem EdgeSim.empty {g : G} (hg : Graph.IsEmpty g) :
    EdgeSim segment [] ∅ (⟨g, ∅, ∅⟩ : Store G) where
  indexed := .empty hg
  nodes vid := iff_of_false Finmap.notMem_empty List.not_mem_nil
  lookup key := by simp [Store.edge?]

/-- **The edge store is a finite map, up to the first removal that removes something.** On an
instance with an empty graph to which `nodes` have been added, the edge calls `ops` and any one
edge call after them all return what the finite map returns, with the live edges in the graph
after each of them, if and only if no removal in `ops` names the key of an `add_edge` before it
between two of the nodes. -/
theorem edge_store_follows_map_iff (nodeCap edgeCap : Nat) {g : G} (hg : Graph.IsEmpty g)
    (nodes : List NodeM) {ops : List Op} (hops : ∀ op ∈ ops, op.isEdgeOp = true) :
    (∀ op, op.isEdgeOp = true → (edgeSpec "_" (nodes.map NodeM.vid)).Follows
      (fun s op => op.run "_" s) ∅
      ((GraphInstance.new nodeCap edgeCap g).runAll (nodes.map .addNode)).1 (ops ++ [op])) ↔
    ops.Pairwise fun op op' => ∀ key, op.AddsKey "_" (nodes.map NodeM.vid) key →
      op'.edgeRemoval? "_" ≠ some key := by
  have hpairs : (edgeSpec (G := G) "_" (nodes.map NodeM.vid)).Avoids (RemovesLiveKey "_") ∅ ops ↔
      (∀ op ∈ ops, ∀ key, key ∈ (∅ : EdgeMap) → op.edgeRemoval? "_" ≠ some key) ∧
        ops.Pairwise fun op op' => ∀ key, op.AddsKey "_" (nodes.map NodeM.vid) key →
          op'.edgeRemoval? "_" ≠ some key :=
    Spec.avoids_iff_pairwise mem_edgeNext_iff
  have hsim : EdgeSim "_" (nodes.map NodeM.vid) ∅
      ((GraphInstance.new nodeCap edgeCap g).runAll (nodes.map .addNode)).1 :=
    (EdgeSim.empty hg).addNodes nodes
  refine (Spec.follows_next_iff edge_simulation edge_trap hsim hops).trans ?_
  rw [hpairs]
  exact and_iff_right fun op _ key hkey => absurd hkey Finmap.notMem_empty

/-- Updates of live keys and removals of keys that nothing was added under stay with the map. -/
theorem edge_store_follows_map_late :
    (edgeSpec "_" ["a", "b"]).Follows (fun s op => op.run "_" s) ∅
      (GraphInstance.blank.runAll [.addNode ⟨"a", ∅⟩, .addNode ⟨"b", ∅⟩]).1
      [.addEdge "a" "b" ⟨1, "a", "b", ∅⟩, .removeEdge "b_a", .updateEdgeByNode "a" "b" ∅,
        .removeEdge "a_b"] := by
  have hlate : [Op.addEdge "a" "b" ⟨1, "a", "b", ∅⟩, .removeEdge "b_a",
      .updateEdgeByNode "a" "b" ∅].Pairwise fun op op' => ∀ key, op.AddsKey "_" ["a", "b"] key →
        op'.edgeRemoval? "_" ≠ some key := by
    simp [Op.AddsKey, Op.edgeRemoval?, edgeKey]
  exact (edge_store_follows_map_iff 0 0 ⟨rfl, rfl⟩ [⟨"a", ∅⟩, ⟨"b", ∅⟩] (by decide)).mpr hlate
    (.removeEdge "a_b") rfl

/-- The second removal of `"a_b"` removes the edge from `"b"` to `"c"` instead, which has moved
to the index that `edge_cache` still has for `"a_b"`. -/
theorem edge_store_removes_twice :
    (∀ op ∈ [Op.addEdge "a" "b" ⟨1, "a", "b", ∅⟩, .addEdge "b" "c" ⟨1, "b", "c", ∅⟩,
      .removeEdge "a_b", .removeEdge "a_b"], op.isEdgeOp = true) ∧
    ¬ (edgeSpec "_" ["a", "b", "c"]).Follows (fun s op => op.run "_" s) ∅
      (GraphInstance.blank.runAll [.addNode ⟨"a", ∅⟩, .addNode ⟨"b", ∅⟩, .addNode ⟨"c", ∅⟩]).1
      [.addEdge "a" "b" ⟨1, "a", "b", ∅⟩, .addEdge "b" "c" ⟨1, "b", "c", ∅⟩, .removeEdge "a_b",
        .removeEdge "a_b"] := by
  refine ⟨by decide, ?_⟩
  rintro ⟨-, -, -, ⟨hreply, -⟩, -⟩
  have hflag : Reply.flag true = Reply.flag false := hreply
  simp at hflag

end MemoryGraph
