import MemoryGraph.Graph.Index

/-!
# MemoryGraph — what an instance knows

An instance made by `GraphInstance::new` knows nothing of the graph it is given: its caches are
empty. Without removals they hold, at any time after, the vids and the pairs of vids that the
calls since then have added, whatever the graph was. Both can be read off the calls
(`addedVids`, `addedPairs`).

* **`known_runAll`** — the caches of a new instance after a sequence of calls.
-/

namespace MemoryGraph

open Conc Petgraph

variable {G : Type} [Graph G NodeM EdgeM] {segment : String}

def Op.addsVid? : Op → Option String
  | .addNode node => some node.vid
  | _ => none

/-- The pair of vids that a call joins, when both are among `vids`. -/
def Op.joins? (vids : List String) : Op → Option (String × String)
  | .addEdge fromVid toVid _ =>
    if fromVid ∈ vids ∧ toVid ∈ vids then some (fromVid, toVid) else none
  | _ => none

def addedVids (ops : List Op) : List String := ops.filterMap Op.addsVid?

/-- The pairs that the calls join, each between two of `vids` or of the vids added before. -/
def addedPairs : List String → List Op → List (String × String)
  | _, [] => []
  | vids, op :: ops => (op.joins? vids).toList ++ addedPairs (vids ++ op.addsVid?.toList) ops

theorem addedVids_concat (ops : List Op) (op : Op) :
    addedVids (ops ++ [op]) = addedVids ops ++ op.addsVid?.toList := by
  cases hvid : op.addsVid? <;> simp [addedVids, hvid]

/-- One call more joins its pair, if both vids are there by then. -/
theorem addedPairs_concat (vids : List String) (ops : List Op) (op : Op) :
    addedPairs vids (ops ++ [op])
      = addedPairs vids ops ++ (op.joins? (vids ++ addedVids ops)).toList := by
  induction ops generalizing vids with
  | nil => simp [addedPairs, addedVids]
  | cons op' ops ih =>
    have hvids : vids ++ op'.addsVid?.toList ++ addedVids ops = vids ++ addedVids (op' :: ops) := by
      cases hvid : op'.addsVid? <;> simp [addedVids, hvid]
    rw [List.cons_append, addedPairs, addedPairs, ih, hvids, List.append_assoc]

theorem Change.nodeCache_eq {s s' : Store G} {op : Op} (hchange : Change segment s op s')
    (hadds : op.addsVid? = none) : s'.nodeCache = s.nodeCache := by
  cases hchange with
  | nodeAdded hop _ => simp [hop, Op.addsVid?] at hadds
  | _ => rfl

theorem Change.edgeCache_eq {s s' : Store G} {op : Op} (hchange : Change segment s op s')
    {vids : List String} (hvids : ∀ vid, vid ∈ s.nodeCache ↔ vid ∈ vids)
    (hjoins : op.joins? vids = none) : s'.edgeCache = s.edgeCache := by
  cases hchange with
  | edgeAdded hop _ hfrom hto _ =>
    have hfrom' := (hvids _).mp (Finmap.mem_of_lookup_eq_some hfrom)
    have hto' := (hvids _).mp (Finmap.mem_of_lookup_eq_some hto)
    simp [hop, Op.joins?, hfrom', hto'] at hjoins
  | _ => rfl

/-- Only `add_node` adds to `node_cache`, and no call takes from it. -/
theorem mem_nodeCache_run_iff (op : Op) (s : Store G) {vid : String} :
    vid ∈ (op.run segment s).1.nodeCache ↔ vid ∈ s.nodeCache ∨ op.addsVid? = some vid := by
  cases hadds : op.addsVid? with
  | some vid' =>
    obtain ⟨node, rfl, rfl⟩ : ∃ node, op = .addNode node ∧ node.vid = vid' := by
      cases op <;> simp_all [Op.addsVid?]
    rw [run_addNode, Option.some.injEq, eq_comm]
    by_cases hcached : node.vid ∈ s.nodeCache
    · rw [if_pos hcached]
      exact (or_iff_left_of_imp fun heq => by rwa [heq]).symm
    · simp [hcached, or_comm]
  | none =>
    rw [(run_change op s).nodeCache_eq hadds]
    simp

section Laws

variable [LawfulGraph G]

/-- Without removals, node indices stay in range. -/
theorem NodesInRange.change {s s' : Store G} {op : Op} (h : NodesInRange s)
    (hop : op.isRemoval = false) (hchange : Change segment s op s') : NodesInRange s' := by
  intro vid idx hidx
  cases hchange with
  | same => exact h vid idx hidx
  | @nodeAdded node _ hfresh =>
    have hlen : (Graph.rawNodes (Graph.addNode s.inner node).2).length
        = (Graph.rawNodes s.inner).length + 1 := by simp [LawfulGraph.rawNodes_addNode]
    rw [hlen]
    -- the new vid gets the last index, the others keep theirs
    rcases eq_or_ne vid node.vid with rfl | hne
    · rw [Finmap.lookup_insert, LawfulGraph.addNode_index, Option.some.injEq] at hidx
      omega
    · rw [Finmap.lookup_insert_of_ne _ hne] at hidx
      exact Nat.lt_succ_of_lt (h vid idx hidx)
  | nodeUpdated _ _ hborrow =>
    rw [LawfulGraph.rawNodes_nodeWeightMut hborrow, List.length_set]
    exact h vid idx hidx
  | nodeRemoved hremove _ => simp [hremove, Op.isRemoval] at hop
  | edgeAdded _ _ _ _ hadd =>
    obtain ⟨-, -, -, hnodes, -⟩ := LawfulGraph.addEdge_eq_some hadd
    exact hnodes ▸ h vid idx hidx
  | edgeUpdated _ _ hborrow => exact LawfulGraph.rawNodes_edgeWeightMut hborrow _ ▸ h vid idx hidx
  | edgeRemoved hremove _ => simp [Op.isRemoval_of_edgeRemoval? hremove] at hop

/-- Only `add_edge` between two cached vids adds to `edge_cache`. -/
theorem NodesInRange.mem_edgeCache_run_iff {s : Store G} (h : NodesInRange s) (op : Op)
    {vids : List String} (hvids : ∀ vid, vid ∈ s.nodeCache ↔ vid ∈ vids) {key : String} :
    key ∈ (op.run segment s).1.edgeCache ↔
      key ∈ s.edgeCache ∨ ∃ p, op.joins? vids = some p ∧ edgeKey segment p.1 p.2 = key := by
  cases hjoins : op.joins? vids with
  | some p =>
    obtain ⟨edge, rfl, hfrom, hto⟩ :
        ∃ edge, op = .addEdge p.1 p.2 edge ∧ p.1 ∈ vids ∧ p.2 ∈ vids := by
      cases op with
      | addEdge fromVid toVid edge =>
        obtain ⟨⟨hfrom, hto⟩, rfl⟩ : (fromVid ∈ vids ∧ toVid ∈ vids) ∧ (fromVid, toVid) = p := by
          simpa [Op.joins?] using hjoins
        exact ⟨edge, rfl, hfrom, hto⟩
      | _ => simp [Op.joins?] at hjoins
    obtain ⟨a, ha⟩ := Finmap.mem_iff.mp ((hvids p.1).mpr hfrom)
    obtain ⟨b, hb⟩ := Finmap.mem_iff.mp ((hvids p.2).mpr hto)
    -- both ends are in range, so petgraph does not panic
    obtain ⟨graph, hadd, -⟩ := LawfulGraph.addEdge_in_range (e := edge) (h _ _ ha) (h _ _ hb)
    rw [run_addEdge]
    split
    · exact (or_iff_left_of_imp fun ⟨q, hq, hkey⟩ => by simp_all).symm
    · simp [ha, hb, hadd, or_comm, eq_comm]
  | none =>
    rw [(run_change op s).edgeCache_eq hvids hjoins]
    simp

/-- Without removals, the caches of a new instance hold what the calls have added. -/
theorem known_runAll (segment : String) (g : G) {ops : List Op}
    (hops : ∀ op ∈ ops, op.isRemoval = false) :
    NodesInRange (runAll segment ops (⟨g, ∅, ∅⟩ : Store G)).1 ∧
    (∀ vid, vid ∈ (runAll segment ops (⟨g, ∅, ∅⟩ : Store G)).1.nodeCache ↔ vid ∈ addedVids ops) ∧
    ∀ key, key ∈ (runAll segment ops (⟨g, ∅, ∅⟩ : Store G)).1.edgeCache ↔
      ∃ p ∈ addedPairs [] ops, edgeKey segment p.1 p.2 = key := by
  induction ops using List.reverseRecOn with
  | nil =>
    refine ⟨fun vid idx hidx => ?_, fun vid => ?_, fun key => ?_⟩
    · exact absurd hidx (by simp [runAll])
    · exact iff_of_false Finmap.notMem_empty List.not_mem_nil
    · exact iff_of_false Finmap.notMem_empty (by simp [addedPairs])
  | append_singleton ops op ih =>
    obtain ⟨hrange, hvids, hkeys⟩ := ih fun op' hmem => hops op' (List.mem_append_left _ hmem)
    rw [runAll_concat]
    refine ⟨hrange.change (hops op (by simp)) (run_change op _), fun vid => ?_, fun key => ?_⟩
    · rw [mem_nodeCache_run_iff, hvids, addedVids_concat, List.mem_append, Option.mem_toList]
    · rw [hrange.mem_edgeCache_run_iff op hvids, hkeys, addedPairs_concat]
      simp only [List.mem_append, Option.mem_toList, List.nil_append, or_and_right, exists_or]

end Laws

end MemoryGraph
