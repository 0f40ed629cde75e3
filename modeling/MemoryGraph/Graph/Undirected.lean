import MemoryGraph.Graph.Keys
import MemoryGraph.Graph.Known

/-!
# MemoryGraph — edges of an undirected graph

On an undirected graph there is one edge between two nodes, whichever end one starts from. The
key of an edge is made from the two vids in the order of the call, so `add_edge` and
`update_edge_by_node` do not see an edge that was added from its other end.

* **`sameFromBothEnds_iff_lookup`** — a store treats two vids alike from both ends exactly when
  the two keys of the pair resolve alike;
* **`same_from_both_ends_iff`** — which sequences of calls lead to such stores.
-/

namespace MemoryGraph

open Conc Petgraph

variable {G : Type} [Graph G NodeM EdgeM] {segment : String}

/-- There is an edge between the nodes of the two vids at `idx`: on an undirected graph either
orientation counts. -/
def Store.Between (s : Store G) (a b : String) (idx : Nat) : Prop :=
  ∃ l, s.edgeAt idx = some l ∧ (l.Joins a b ∨ Graph.isDirected G = false ∧ l.Joins b a)

/-- The call extends the data of the edge at `idx`, and reports success. -/
def UpdatesAt (segment : String) (s : Store G) (op : Op) (data : Dict String) (idx : Nat) : Prop :=
  (op.run segment s).2 = .unit (.ok ()) ∧
    Graph.rawEdges (op.run segment s).1.inner
      = (Graph.rawEdges s.inner).modify idx (extendData data)

/-- The store treats an edge between the two vids the same from both ends. -/
structure SameFromBothEnds (segment : String) (s : Store G) (a b : String) : Prop where
  atMostOne : ∀ i j, s.Between a b i → s.Between a b j → i = j
  add : ∀ edge,
    ((Op.addEdge a b edge).run segment s).2 = .edgeIndex (.error (.edgeExists a b)) ∧
      ((Op.addEdge b a edge).run segment s).2 = .edgeIndex (.error (.edgeExists b a)) ∨
    ∃ i j, ((Op.addEdge a b edge).run segment s).2 = .edgeIndex (.ok i) ∧
      ((Op.addEdge b a edge).run segment s).2 = .edgeIndex (.ok j)
  update :
    (∃ idx, idx < (Graph.rawEdges s.inner).length ∧ ∀ data,
      UpdatesAt segment s (.updateEdgeByNode a b data) data idx ∧
      UpdatesAt segment s (.updateEdgeByNode b a data) data idx) ∨
    ∀ data,
      ((Op.updateEdgeByNode a b data).run segment s).2
        = .unit (.error (.edgeNotFound (a ++ "->" ++ b))) ∧
      ((Op.updateEdgeByNode b a data).run segment s).2
        = .unit (.error (.edgeNotFound (b ++ "->" ++ a)))

/-- Vids without the segment can be read off their key. -/
theorem edgeKey_eq_iff {a b c d : String} (ha : '_' ∉ a.toList) (hb : '_' ∉ b.toList) :
    edgeKey "_" a b = edgeKey "_" c d ↔ a = c ∧ b = d := by
  rw [← String.toList_inj, edgeKey, edgeKey]
  simp only [String.toList_append]
  show a.toList ++ ['_'] ++ b.toList = c.toList ++ ['_'] ++ d.toList ↔ _
  rw [List.append_assoc, List.append_assoc, List.singleton_append, List.singleton_append,
    List.append_cons_inj_of_notMem ha hb]
  simp [String.toList_inj]

/-- The pair that is not found is reported in the order it was given in. -/
theorem reply_updateEdgeByNode_missing {s : Store G} {fromVid toVid : String} (data : Dict String)
    (hnone : s.edgeCache.lookup (edgeKey segment fromVid toVid) = none) :
    ((Op.updateEdgeByNode fromVid toVid data).run segment s).2
      = .unit (.error (.edgeNotFound (fromVid ++ "->" ++ toVid))) := by
  show ((updateEdgeAt (edgeKey segment fromVid toVid) _ data).run s).2 = _
  rw [run_updateEdgeAt, hnone]
  rfl

theorem updatesAt_updateEdgeByNode [LawfulGraph G] {s : Store G} {fromVid toVid : String}
    {idx : Nat} {e : Edge EdgeM} (data : Dict String)
    (hidx : s.edgeCache.lookup (edgeKey segment fromVid toVid) = some idx)
    (he : (Graph.rawEdges s.inner)[idx]? = some e) :
    UpdatesAt segment s (.updateEdgeByNode fromVid toVid data) data idx := by
  obtain ⟨s', hrun, -, -, -, hedges⟩ := run_updateEdgeAt_cached
    (.edgeNotFound (fromVid ++ "->" ++ toVid)) data hidx he
  have hrun' : (Op.updateEdgeByNode fromVid toVid data).run segment s = (s', .unit (.ok ())) := hrun
  rw [UpdatesAt, hrun']
  exact ⟨rfl, hedges⟩

section Pair

variable {s : Store G} {a b : String} (h : Indexed "_" s) (ha : '_' ∉ a.toList)
  (hb : '_' ∉ b.toList)
include h ha hb

/-- Vids without the separator in them are read back from the key, so the pair is cached exactly
where an edge joins it in this order. -/
theorem lookup_pair_iff {idx : Nat} :
    s.edgeCache.lookup (edgeKey "_" a b) = some idx ↔ ∃ l, s.edgeAt idx = some l ∧ l.Joins a b := by
  rw [h.edge, Store.keyAt_eq_edgeAt, Option.map_eq_some_iff]
  refine exists_congr fun l => and_congr_right fun _ => ?_
  rw [eq_comm, LiveEdge.key, edgeKey_eq_iff ha hb, LiveEdge.Joins, eq_comm, @eq_comm _ b]

/-- On an undirected graph, an edge between two vids is cached under the pair or under the pair
turned round. -/
theorem between_iff (hdir : Graph.isDirected G = false) {idx : Nat} :
    s.Between a b idx ↔ s.edgeCache.lookup (edgeKey "_" a b) = some idx ∨
      s.edgeCache.lookup (edgeKey "_" b a) = some idx := by
  rw [lookup_pair_iff h ha hb, lookup_pair_iff h hb ha, Store.Between, ← exists_or]
  simp only [hdir, true_and, and_or_left]

variable [LawfulGraph G] (hdir : Graph.isDirected G = false) (hfrom : a ∈ s.nodeCache)
  (hto : b ∈ s.nodeCache)
include hdir hfrom hto

/-- A store treats two vids alike from both ends when their two keys resolve alike, to one edge or
to none, and only then. -/
theorem sameFromBothEnds_iff_lookup :
    SameFromBothEnds "_" s a b ↔
      s.edgeCache.lookup (edgeKey "_" a b) = s.edgeCache.lookup (edgeKey "_" b a) := by
  constructor
  · intro hsame
    -- `add_edge` refuses both orientations or none, so both keys are cached or none is
    have hcached : edgeKey "_" a b ∈ s.edgeCache ↔ edgeKey "_" b a ∈ s.edgeCache := by
      rw [← h.addEdge_exists_iff hfrom hto ⟨0, a, b, ∅⟩,
        ← h.addEdge_exists_iff hto hfrom ⟨0, a, b, ∅⟩]
      rcases hsame.add ⟨0, a, b, ∅⟩ with ⟨hab, hba⟩ | ⟨i, j, hab, hba⟩
      · exact iff_of_true hab hba
      · rw [hab, hba]
        simp
    cases hab : s.edgeCache.lookup (edgeKey "_" a b) with
    | none =>
      rw [Finmap.lookup_eq_none, hcached] at hab
      exact (Finmap.lookup_eq_none.mpr hab).symm
    | some i =>
      obtain ⟨j, hba⟩ := Finmap.mem_iff.mp (hcached.mp (Finmap.mem_of_lookup_eq_some hab))
      have hij : i = j := hsame.atMostOne i j ((between_iff h ha hb hdir).mpr (Or.inl hab))
        ((between_iff h ha hb hdir).mpr (Or.inr hba))
      rw [hba, hij]
  · intro hlookup
    cases hab : s.edgeCache.lookup (edgeKey "_" a b) with
    | none =>
      have hba : s.edgeCache.lookup (edgeKey "_" b a) = none := hlookup.symm.trans hab
      refine ⟨fun i j hi _ => ?_, fun edge => ?_, Or.inr fun data => ?_⟩
      · rw [between_iff h ha hb hdir, hab, hba] at hi
        simp at hi
      · obtain ⟨_, _, _, -, -, hrun, -⟩ :=
          h.run_addEdge_fresh edge hfrom hto (Finmap.lookup_eq_none.mp hab)
        obtain ⟨_, _, _, -, -, hrun', -⟩ :=
          h.run_addEdge_fresh edge hto hfrom (Finmap.lookup_eq_none.mp hba)
        exact Or.inr ⟨_, _, by rw [hrun], by rw [hrun']⟩
      · exact ⟨reply_updateEdgeByNode_missing data hab, reply_updateEdgeByNode_missing data hba⟩
    | some idx =>
      have hba : s.edgeCache.lookup (edgeKey "_" b a) = some idx := hlookup.symm.trans hab
      obtain ⟨e, he⟩ := h.exists_edge hab
      refine ⟨fun i j hi hj => ?_, fun edge => Or.inl ⟨?_, ?_⟩,
        Or.inl ⟨idx, ?_, fun data => ⟨?_, ?_⟩⟩⟩
      · rw [between_iff h ha hb hdir, hab, hba, or_self, Option.some.injEq] at hi hj
        exact hi.symm.trans hj
      · exact (h.addEdge_exists_iff hfrom hto edge).mpr (Finmap.mem_of_lookup_eq_some hab)
      · exact (h.addEdge_exists_iff hto hfrom edge).mpr (Finmap.mem_of_lookup_eq_some hba)
      · exact (List.getElem?_eq_some_iff.mp he).1
      · exact updatesAt_updateEdgeByNode data hab he
      · exact updatesAt_updateEdgeByNode data hba he

end Pair

section Laws

variable [LawfulGraph G]

/-- **Both ends alike, until there is an edge.** On an undirected graph, in every state that
insertions and updates reach whose vids contain no `"_"`, two vids are treated the same from both
ends if and only if they are one vid, or no `add_edge` of the two, in either orientation, has come
after an `add_node` of both. -/
theorem same_from_both_ends_iff (hdir : Graph.isDirected G = false) (nodeCap edgeCap : Nat) {g : G}
    (hg : Graph.IsEmpty g) {ops : List Op} (hops : ∀ op ∈ ops, op.isRemoval = false)
    (hvids : ∀ vid ∈ addedVids ops, '_' ∉ vid.toList) {a b : String}
    (ha : a ∈ ((GraphInstance.new nodeCap edgeCap g).runAll ops).1.vids)
    (hb : b ∈ ((GraphInstance.new nodeCap edgeCap g).runAll ops).1.vids) :
    SameFromBothEnds "_" ((GraphInstance.new nodeCap edgeCap g).runAll ops).1 a b ↔
      a = b ∨ (a, b) ∉ addedPairs [] ops ∧ (b, a) ∉ addedPairs [] ops := by
  have h : Indexed "_" ((GraphInstance.new nodeCap edgeCap g).runAll ops).1 :=
    (Indexed.empty hg).runAll hops
  obtain ⟨-, hnodes, hkeys⟩ := known_runAll "_" g hops
  change ∀ vid, vid ∈ ((GraphInstance.new nodeCap edgeCap g).runAll ops).1.nodeCache ↔ _ at hnodes
  change ∀ key, key ∈ ((GraphInstance.new nodeCap edgeCap g).runAll ops).1.edgeCache ↔ _ at hkeys
  generalize ((GraphInstance.new nodeCap edgeCap g).runAll ops).1 = s at *
  rw [← h.mem_nodeCache] at ha hb
  have hfreeA := hvids a ((hnodes a).mp ha)
  have hfreeB := hvids b ((hnodes b).mp hb)
  -- a pair of such vids is cached exactly when it has been joined in this orientation
  have hcached : ∀ {x y}, '_' ∉ x.toList → '_' ∉ y.toList →
      (edgeKey "_" x y ∈ s.edgeCache ↔ (x, y) ∈ addedPairs [] ops) := by
    intro x y hx hy
    rw [hkeys]
    constructor
    · rintro ⟨p, hp, hkey⟩
      obtain ⟨rfl, rfl⟩ := (edgeKey_eq_iff hx hy).mp hkey.symm
      exact hp
    · intro hpair
      exact ⟨(x, y), hpair, rfl⟩
  rw [sameFromBothEnds_iff_lookup h hfreeA hfreeB hdir ha hb, ← hcached hfreeA hfreeB,
    ← hcached hfreeB hfreeA]
  constructor
  · intro hlookup
    cases hab : s.edgeCache.lookup (edgeKey "_" a b) with
    | none =>
      exact Or.inr ⟨Finmap.lookup_eq_none.mp hab, Finmap.lookup_eq_none.mp (hlookup.symm.trans hab)⟩
    | some idx =>
      -- one index has one key, and the key tells the orientation
      have hkey := h.key_unique hab (hlookup.symm.trans hab)
      exact Or.inl ((edgeKey_eq_iff hfreeB hfreeA).mp hkey).2
  · rintro (rfl | ⟨hab, hba⟩)
    · rfl
    · rw [Finmap.lookup_eq_none.mpr hab, Finmap.lookup_eq_none.mpr hba]

end Laws

/-- An instance on an empty undirected list graph. -/
def GraphInstance.blankUndirected : GraphInstance (ListGraph false NodeM EdgeM) := .new 0 0 .empty

/-- `"a"` has an edge to `"b"` and none to `"c"`. -/
theorem same_from_both_ends_unjoined : SameFromBothEnds "_" (GraphInstance.blankUndirected.runAll
    [.addNode ⟨"a", ∅⟩, .addNode ⟨"b", ∅⟩, .addEdge "a" "c" ⟨1, "a", "c", ∅⟩, .addNode ⟨"c", ∅⟩,
      .addEdge "a" "b" ⟨1, "a", "b", ∅⟩]).1 "a" "c" := by
  refine (same_from_both_ends_iff rfl 0 0 ⟨rfl, rfl⟩ (by decide) (by decide) ?_ ?_).mpr (by decide)
  · exact List.mem_cons_self
  · exact List.mem_cons_of_mem _ (List.mem_cons_of_mem _ List.mem_cons_self)

/-- With an edge added from `"a"` to `"b"`, the same edge is refused from `"a"` and accepted from
`"b"`. -/
theorem added_again_from_other_end :
    (∀ op ∈ [Op.addNode ⟨"a", ∅⟩, .addNode ⟨"b", ∅⟩, .addEdge "a" "b" ⟨1, "a", "b", ∅⟩],
      op.isRemoval = false) ∧
    (∀ vid ∈ addedVids [Op.addNode ⟨"a", ∅⟩, .addNode ⟨"b", ∅⟩, .addEdge "a" "b" ⟨1, "a", "b", ∅⟩],
      '_' ∉ vid.toList) ∧
    "a" ∈ (GraphInstance.blankUndirected.runAll
      [.addNode ⟨"a", ∅⟩, .addNode ⟨"b", ∅⟩, .addEdge "a" "b" ⟨1, "a", "b", ∅⟩]).1.vids ∧
    "b" ∈ (GraphInstance.blankUndirected.runAll
      [.addNode ⟨"a", ∅⟩, .addNode ⟨"b", ∅⟩, .addEdge "a" "b" ⟨1, "a", "b", ∅⟩]).1.vids ∧
    ¬ SameFromBothEnds "_" (GraphInstance.blankUndirected.runAll
      [.addNode ⟨"a", ∅⟩, .addNode ⟨"b", ∅⟩, .addEdge "a" "b" ⟨1, "a", "b", ∅⟩]).1 "a" "b" := by
  refine ⟨by decide, by decide, List.mem_cons_self, List.mem_cons_of_mem _ List.mem_cons_self, ?_⟩
  intro hsame
  rcases hsame.add ⟨2, "b", "a", ∅⟩ with ⟨-, hba⟩ | ⟨i, -, hab, -⟩
  · have hok : Reply.edgeIndex (.ok 1) = .edgeIndex (.error (.edgeExists "b" "a")) := hba
    simp at hok
  · have hexists : Reply.edgeIndex (.error (.edgeExists "a" "b")) = .edgeIndex (.ok i) := hab
    simp at hexists

end MemoryGraph
