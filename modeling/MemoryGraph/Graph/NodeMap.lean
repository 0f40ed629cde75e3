import MemoryGraph.Graph.Lookup
import MemoryGraph.Refine.Spec

/-!
# MemoryGraph — the node store against a finite map

Seen from outside, `add_node`, `find_node_by_vid`, `update_node` and `remove_node` are meant to
be the operations of a finite map from vids to data. `nodeSpec` is that map. A vid is **live**
while it is a key of it.

The store follows the map as long as no `remove_node` hits a live vid. After one, the vid is
gone from the map and still in `node_cache`, where nothing ever takes it out again: from then
on an `add_node` of it is refused, and lookups go wherever the stale index points.

* **`node_simulation`**, **`node_trap`** — the two halves, for `Refine.Spec.follows_next_iff`;
* **`node_store_follows_map_iff`** — the exact condition on the sequence of calls.
-/

namespace MemoryGraph

open Conc Petgraph Refine

variable {G : Type} [Graph G NodeM EdgeM] {segment : String}

def Op.isNodeOp : Op → Bool
  | .addNode _ | .findNodeByVid _ | .updateNode _ _ | .removeNode _ => true
  | _ => false

/-- What the node store is for: a finite map from vids to data. The index in a successful
reply of `add_node` is left open. -/
def nodeSpec : Spec (Dict (Dict String)) (Store G) Op Reply where
  next live op :=
    match op with
    | .addNode node => if node.vid ∈ live then live else live.insert node.vid node.data
    | .updateNode vid data => if vid ∈ live then live.insert vid data else live
    | .removeNode vid => live.erase vid
    | _ => live
  Allows live op outcome :=
    match op with
    | .addNode node =>
      if node.vid ∈ live then outcome.2 = .nodeIndex (.error (.nodeExistsError node.vid))
      else ∃ idx, outcome.2 = .nodeIndex (.ok idx)
    | .findNodeByVid vid => outcome.2 = .node ((live.lookup vid).map fun data => ⟨vid, data⟩)
    | .updateNode vid _ => outcome.2 = .flag (vid ∈ live)
    | .removeNode vid => outcome.2 = .flag (vid ∈ live)
    | _ => True

/-- The caches are exact and resolve the live vids to nodes with their data. -/
structure NodeSim (segment : String) (live : Dict (Dict String)) (s : Store G) : Prop where
  indexed : Indexed segment s
  lookup : ∀ vid, live.lookup vid = (s.node? vid).map NodeM.data

/-- Some vid is cached and not live. -/
def StaleVid (live : Dict (Dict String)) (s : Store G) : Prop :=
  ∃ vid, vid ∈ s.nodeCache ∧ vid ∉ live

def RemovesLiveVid (live : Dict (Dict String)) (op : Op) : Prop :=
  ∃ vid, vid ∈ live ∧ op = .removeNode vid

/-- The call is an `add_node` of the vid. -/
def Op.AddsVid (op : Op) (vid : String) : Prop := ∃ node, op = .addNode node ∧ node.vid = vid

namespace NodeSim

variable {live : Dict (Dict String)} {s : Store G}

theorem mem_iff (h : NodeSim segment live s) {vid : String} : vid ∈ live ↔ vid ∈ s.nodeCache := by
  rw [← h.indexed.isSome_node?, Finmap.mem_iff, ← Option.isSome_iff_exists, h.lookup,
    Option.isSome_map]

theorem empty {g : G} (hg : Graph.IsEmpty g) : NodeSim segment ∅ (⟨g, ∅, ∅⟩ : Store G) where
  indexed := .empty hg
  lookup vid := by simp [Store.node?]

/-- A removal of a vid that is not live does nothing, on both sides. -/
theorem removeNode (h : NodeSim segment live s) {vid : String} (hdead : vid ∉ live) :
    NodeSim segment (live.erase vid) ((Op.removeNode vid).run segment s).1 := by
  have hnone : s.nodeCache.lookup vid = none := Finmap.lookup_eq_none.mpr (h.mem_iff.not.mp hdead)
  rw [erase_eq_self hdead, run_removeNode, hnone]
  exact h

variable [LawfulGraph G]

theorem addNode (h : NodeSim segment live s) {node : NodeM} (hfresh : node.vid ∉ s.nodeCache) :
    NodeSim segment (live.insert node.vid node.data) ((Op.addNode node).run segment s).1 where
  indexed := h.indexed.step rfl
  lookup vid := by
    rw [h.indexed.node?_addNode hfresh]
    rcases eq_or_ne vid node.vid with rfl | hne
    · rw [Finmap.lookup_insert, Function.update_self, Option.map_some]
    · rw [Finmap.lookup_insert_of_ne _ hne, Function.update_of_ne hne, h.lookup]

theorem updateNode (h : NodeSim segment live s) (vid : String) (data : Dict String) :
    NodeSim segment (if vid ∈ live then live.insert vid data else live)
      ((Op.updateNode vid data).run segment s).1 where
  indexed := h.indexed.step rfl
  lookup vid' := by
    rw [h.indexed.node?_updateNode]
    have hlive : vid ∈ live ↔ (s.node? vid).isSome := by rw [h.mem_iff, h.indexed.isSome_node?]
    rcases eq_or_ne vid' vid with rfl | hne
    · rw [Function.update_self]
      cases hnode : s.node? vid' with
      | none =>
        rw [if_neg (by simp [hlive, hnode]), h.lookup, hnode]
        rfl
      | some node =>
        rw [if_pos (by simp [hlive, hnode]), Finmap.lookup_insert]
        rfl
    · rw [Function.update_of_ne hne, ← h.lookup]
      split
      · rw [Finmap.lookup_insert_of_ne _ hne]
      · rfl

end NodeSim

/-- After the removal of a live vid, the vid stays cached and not live, until an `add_node` of
it is refused that the map would accept. -/
theorem node_trap : nodeSpec.Trap (fun s op => op.run segment s) (fun op => op.isNodeOp = true)
    RemovesLiveVid (NodeSim (G := G) segment) StaleVid where
  enters {live s op} h hop hbad := by
    obtain ⟨vid, hlive, rfl⟩ := hbad
    exact ⟨vid, (run_extends _ s).mem_node (h.mem_iff.mp hlive), Finmap.notMem_erase_self⟩
  stays {live s op} h hop hallowed := by
    obtain ⟨vid, hcached, hdead⟩ := h
    refine ⟨vid, (run_extends op s).mem_node hcached, ?_⟩
    cases op with
    | addNode node =>
      show vid ∉ if node.vid ∈ live then live else live.insert node.vid node.data
      split
      · exact hdead
      · rename_i hfresh
        have hne : vid ≠ node.vid := by
          rintro rfl
          -- the map would accept the vid, and the cache refuses it
          have hok : ∃ idx, ((Op.addNode node).run segment s).2 = .nodeIndex (.ok idx) := by
            simpa [nodeSpec, hfresh] using hallowed
          simp [run_addNode, hcached] at hok
        simpa [Finmap.mem_insert, hne] using hdead
    | updateNode vid' data =>
      show vid ∉ if vid' ∈ live then live.insert vid' data else live
      split
      · have hne : vid ≠ vid' := by
          rintro rfl
          exact hdead ‹_›
        simpa [Finmap.mem_insert, hne] using hdead
      · exact hdead
    | removeNode vid' => exact fun hmem => hdead (Finmap.mem_erase.mp hmem).2
    | _ => exact hdead
  probe {live s} h := by
    obtain ⟨vid, hcached, hdead⟩ := h
    -- the map takes the vid as a new one, and `node_cache` does not
    refine ⟨.addNode ⟨vid, ∅⟩, rfl, fun hallowed => ?_⟩
    have hok : ∃ idx, ((Op.addNode ⟨vid, ∅⟩).run segment s).2 = .nodeIndex (.ok idx) := by
      simpa [nodeSpec, hdead] using hallowed
    simp [run_addNode, hcached] at hok

omit [Graph G NodeM EdgeM] in
/-- Away from removals of live vids, the live vids are the old ones and the ones added. -/
theorem mem_next_iff {live : Dict (Dict String)} {op : Op}
    (hgood : ∀ vid, vid ∈ live → op ≠ .removeNode vid) (vid : String) :
    vid ∈ (nodeSpec : Spec _ (Store G) _ _).next live op ↔ vid ∈ live ∨ op.AddsVid vid := by
  cases op with
  | addNode node =>
    have hadds : (Op.addNode node).AddsVid vid ↔ vid = node.vid := by simp [Op.AddsVid, eq_comm]
    rw [hadds]
    show vid ∈ (if node.vid ∈ live then live else live.insert node.vid node.data) ↔ _
    split
    · constructor
      · exact Or.inl
      · rintro (hold | rfl)
        · exact hold
        · assumption
    · rw [Finmap.mem_insert, or_comm]
  | updateNode vid' data =>
    show vid ∈ (if vid' ∈ live then live.insert vid' data else live) ↔ _
    split
    · have hmem : vid = vid' → vid ∈ live := by rintro rfl; assumption
      simp only [Finmap.mem_insert, Op.AddsVid, reduceCtorEq, false_and, exists_false, or_false]
      exact ⟨fun h => h.elim hmem id, Or.inr⟩
    · simp [Op.AddsVid]
  -- the removal is of a vid that is not live, so it erases nothing
  | removeNode vid' =>
    have hdead : vid' ∉ live := fun hlive => hgood vid' hlive rfl
    have hne : vid ∈ live → vid ≠ vid' := by
      rintro hlive rfl
      exact hdead hlive
    show vid ∈ live.erase vid' ↔ _
    simp only [Finmap.mem_erase, Op.AddsVid, reduceCtorEq, false_and, exists_false, or_false]
    exact ⟨And.right, fun hlive => ⟨hne hlive, hlive⟩⟩
  | _ => simp [nodeSpec, Op.AddsVid]

section Refinement

variable [LawfulGraph G]

/-- While no live vid has been removed, every reply is the map's, and every call but such a
removal keeps it so. -/
theorem node_simulation : nodeSpec.Simulation (fun s op => op.run segment s)
    (fun op => op.isNodeOp = true) RemovesLiveVid (NodeSim (G := G) segment) where
  allows {live s op} h hop := by
    cases op with
    | addNode node =>
      show if node.vid ∈ live then _ else _
      rw [run_addNode]
      by_cases hvid : node.vid ∈ s.nodeCache
      · simp [h.mem_iff, hvid]
      · simp [h.mem_iff, hvid]
    | findNodeByVid vid =>
      show _ = Reply.node _
      rw [reply_findNodeByVid, h.lookup]
      cases hnode : s.node? vid with
      | none => rfl
      | some node =>
        -- the node that is found has the vid that was looked for
        obtain rfl := (h.indexed.node?_eq_some.mp hnode).2
        rfl
    | updateNode vid data =>
      show _ = Reply.flag _
      rw [reply_updateNode]
      simp [h.mem_iff, ← h.indexed.isSome_node?]
    | removeNode vid =>
      show _ = Reply.flag _
      rw [run_removeNode]
      cases hidx : s.nodeCache.lookup vid with
      | none => simp [h.mem_iff, Finmap.lookup_eq_none.mp hidx]
      | some idx => simp [h.mem_iff, Finmap.mem_of_lookup_eq_some hidx]
    | _ => simp [Op.isNodeOp] at hop
  keeps {live s op} h hop hgood := by
    cases op with
    | addNode node =>
      show NodeSim segment (if node.vid ∈ live then live else _) _
      by_cases hvid : node.vid ∈ s.nodeCache
      · rw [if_pos (h.mem_iff.mpr hvid), run_addNode, if_pos hvid]
        exact h
      · rw [if_neg (h.mem_iff.not.mpr hvid)]
        exact h.addNode hvid
    | findNodeByVid vid =>
      rw [run_findNodeByVid]
      exact h
    | updateNode vid data => exact h.updateNode vid data
    | removeNode vid => exact h.removeNode fun hlive => hgood ⟨vid, hlive, rfl⟩
    | _ => simp [Op.isNodeOp] at hop

/-- **The node store is a finite map, up to the first removal that removes something.** Run on
an instance with an empty graph, the calls `ops` and any one node call after them all return
what the finite map returns, if and only if no `remove_node` in `ops` names a vid that an
`add_node` before it has. -/
theorem node_store_follows_map_iff (nodeCap edgeCap : Nat) {g : G} (hg : Graph.IsEmpty g)
    {ops : List Op} (hops : ∀ op ∈ ops, op.isNodeOp = true) :
    (∀ op, op.isNodeOp = true → nodeSpec.Follows (fun s op => op.run "_" s) ∅
      (GraphInstance.new nodeCap edgeCap g).store (ops ++ [op])) ↔
    ops.Pairwise fun op op' => ∀ vid, op.AddsVid vid → op' ≠ .removeNode vid := by
  have hpairs : (nodeSpec (G := G)).Avoids RemovesLiveVid ∅ ops ↔
      (∀ op ∈ ops, ∀ vid, vid ∈ (∅ : Dict (Dict String)) → op ≠ .removeNode vid) ∧
        ops.Pairwise fun op op' => ∀ vid, op.AddsVid vid → op' ≠ .removeNode vid :=
    Spec.avoids_iff_pairwise mem_next_iff
  refine (Spec.follows_next_iff node_simulation node_trap (.empty hg) hops).trans ?_
  rw [hpairs]
  exact and_iff_right fun op _ vid hvid => absurd hvid Finmap.notMem_empty

/-- A `remove_node` of a vid that is added only later does no harm. -/
theorem node_store_follows_map_late :
    nodeSpec.Follows (fun s op => op.run "_" s) ∅ GraphInstance.blank.store
      [.addNode ⟨"a", ∅⟩, .removeNode "b", .addNode ⟨"b", ∅⟩, .updateNode "a" ∅,
        .findNodeByVid "b"] := by
  have hlate : [Op.addNode ⟨"a", ∅⟩, .removeNode "b", .addNode ⟨"b", ∅⟩, .updateNode "a" ∅].Pairwise
      fun op op' => ∀ vid, op.AddsVid vid → op' ≠ .removeNode vid := by
    simp [Op.AddsVid]
  exact (node_store_follows_map_iff 0 0 ⟨rfl, rfl⟩ (by decide)).mpr hlate (.findNodeByVid "b") rfl

/-- With `"a"` and `"b"` added and `"a"` removed, the node `"b"` has moved to index 0 and its
entry in `node_cache` still says 1. -/
theorem node_store_loses_node :
    (∀ op ∈ [Op.addNode ⟨"a", ∅⟩, .addNode ⟨"b", ∅⟩, .removeNode "a", .findNodeByVid "b"],
      op.isNodeOp = true) ∧
    ¬ nodeSpec.Follows (fun s op => op.run "_" s) ∅ GraphInstance.blank.store
      [.addNode ⟨"a", ∅⟩, .addNode ⟨"b", ∅⟩, .removeNode "a", .findNodeByVid "b"] := by
  refine ⟨by decide, ?_⟩
  rintro ⟨-, -, -, hfind, -⟩
  have hreply : Reply.node none = Reply.node (some ⟨"b", ∅⟩) := hfind
  simp at hreply

end Refinement

end MemoryGraph
