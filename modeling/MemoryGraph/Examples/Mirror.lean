import MemoryGraph.Examples.Follow
import MemoryGraph.Graph.Content
import MemoryGraph.Graph.Removal

/-!
# MemoryGraph — following deletions, too (`binlog` of `examples/graph.rs`)

A deletion leaves the caches with entries that resolve to nothing or to something else, so with
deletions the graph cannot be a copy of the tables place by place. It can still have the
content of the tables: the same vids, and edges between the same vids (`Mirrored`). Whether a
callback keeps it so is decided by what the caches resolve its call to.

* **`Faithful`** — the call of a callback does to the graph what the callback reports;
* **`mirrored_step_iff`** — a callback keeps the content exactly when it is faithful;
* **`binlog_keeps_mirror`** — for any stream, deletions included, the graph has the content of the
  tables after every callback exactly when every callback is faithful where it comes.
-/

namespace MemoryGraph.Examples

open MemoryGraph Petgraph Refine

section Reading

variable (textOf : List UInt8 → String)

def Tables.content (T : Tables) : Content where
  vids := T.vids
  ends := T.ends

/-- The rows of an insertion or deletion, as they are in their table. -/
def nodesOf (c : Callback RowEvent) : List NodeY := c.rows.map (nodeRow textOf)

def edgesOf (c : Callback RowEvent) : List EdgeY := c.rows.map (edgeRow textOf)

/-- What a database guarantees of a deletion: the rows are in the table, and an id is in one row
only. -/
def Genuine (T : Tables) (c : Callback RowEvent) : Prop :=
  c.tag = 3 →
    match c.target with
    | .node => (T.nodes.map NodeY.id).Nodup ∧ ((nodesOf textOf c).map NodeY.id).Nodup ∧
        ∀ v ∈ nodesOf textOf c, v ∈ T.nodes
    | .edge => (T.edges.map EdgeY.id).Nodup ∧ ((edgesOf textOf c).map EdgeY.id).Nodup ∧
        ∀ v ∈ edgesOf textOf c, v ∈ T.edges

end Reading

variable (parseAsString : List UInt8 → Parsed) (textOf : List UInt8 → String)
variable {G : Type} [Graph G NodeM EdgeM]

/-- The graph takes the decoded row, the first, and has the second in it then. -/
def Takes (s : Store G) : TableRow → TableRow → Prop
  | .node v, .node w => v.vid ∉ s.nodeCache ∧ v.vid = w.vid
  | .edge v, .edge w => v.key ∉ s.edgeCache ∧
      (s.node? v.srcVid).map NodeM.vid = some w.srcVid ∧
      (s.node? v.dstVid).map NodeM.vid = some w.dstVid
  | _, _ => False

/-- The decoded row, the first, resolves to what the second names, and nothing else of the tables
leaves the graph with it. -/
def Drops (s : Store G) (T : Tables) : TableRow → TableRow → Prop
  | .node v, .node w => (s.node? v.vid).map NodeM.vid = some w.vid ∧
      ∀ p ∈ T.ends, ¬ (p.1 = w.vid ∨ p.2 = w.vid)
  | .edge v, .edge w => (s.edge? v.key).map linkEnds = some (w.srcVid, w.dstVid)
  | _, _ => False

/-- The watcher is there for the row and does not panic on it, and what it decodes has `P` with
what is in the table. -/
def Decodes (running : Bool) (P : TableRow → TableRow → Prop) (target : Target)
    (row : RowEvent) : Prop :=
  running = true ∧ ∃ v, decodedRow parseAsString target row = some v ∧
    P v (tableRow textOf target row)

/-- The call of the callback does to the graph what the callback reports. -/
def Faithful (running : Bool) (s : Store G) (T : Tables) (c : Callback RowEvent) : Prop :=
  (c.tag = 1 → c.rows.length ≤ 1 ∧
    ∀ row ∈ c.rows, Decodes parseAsString textOf running (Takes s) c.target row) ∧
  (c.tag = 2 → (T.follow textOf c).content = T.content) ∧
  (c.tag = 3 → c.rows.length ≤ 1 ∧
    ∀ row ∈ c.rows, Decodes parseAsString textOf running (Drops s T) c.target row)

/-- The graph has the content of the tables. -/
structure Mirrored (s : Store G) (T : Tables) : Prop where
  inRange : EndsInRange s.inner
  distinct : Distinct s
  content : s.content = T.content

variable {s : Store G} {T : Tables}

theorem vids_content (s : Store G) : s.content.vids = (s.vids : Multiset String) := rfl

theorem Copied.mirrored (h : Copied s T) : Mirrored s T where
  inRange e he := by
    have hends := h.indexed.endpoints (e.source, e.target) (List.mem_map.mpr ⟨e, he, rfl⟩)
    simpa [Store.vids] using hends
  distinct := ⟨h.indexed.vids_nodup, fun vid hvid => h.indexed.mem_nodeCache.mpr hvid⟩
  content := by
    have hvids : s.vids = T.vids := h.vids
    have hends : ((Graph.rawEdges s.inner).filterMap (link? s.vids)).map linkEnds = T.ends :=
      h.ends
    refine Content.ext ?_ ?_
    · rw [vids_content, hvids]; rfl
    · exact congrArg (fun l : List (String × String) => (l : Multiset (String × String))) hends

section Laws

variable [LawfulGraph G]

/-- Ends stay in range, and vids distinct, whatever the call. -/
theorem Mirrored.followStep_iff (h : Mirrored s T) (running : Bool) (c : Callback RowEvent)
    (T' : Tables) : Mirrored (followStep parseAsString running s c) T' ↔
      (followStep parseAsString running s c).content = T'.content :=
  ⟨Mirrored.content, fun hcontent =>
    ⟨endsInRange_runAll h.inRange _, h.distinct.runAll _, hcontent⟩⟩

/-- What a call does to the content is decided by what the caches resolve it to. -/
theorem Mirrored.content_run (h : Mirrored s T) (op : Op) :
    (op.run "_" s).1.content = (s.action "_" op).onContent T.content := by
  rw [MemoryGraph.content_run h.inRange h.distinct.nodup, h.content]

/-! ## Insertions -/

omit [Graph G NodeM EdgeM] [LawfulGraph G] in
theorem content_insert (T : Tables) (row : TableRow) :
    (T.insert row).content = match row with
      | .node v => T.content.addVid v.vid
      | .edge v => T.content.addEnds (v.srcVid, v.dstVid) := by
  cases row <;>
    simp [Tables.insert, Tables.content, Tables.vids, Tables.ends, Content.addVid,
      Content.addEnds, ← Multiset.coe_add, add_comm]

/-- The call of a node row inserts the vid of a row if it is that vid, and is not cached. -/
theorem Mirrored.insert_node_iff (h : Mirrored s T) (v w : NodeY) :
    ((Op.addNode v.toNode).run "_" s).1.content = (T.insert (.node w)).content ↔
      Takes s (.node v) (.node w) := by
  rw [h.content_run, content_insert, Store.action]
  by_cases hvid : v.toNode.vid ∈ s.nodeCache
  · rw [if_pos hvid]
    refine iff_of_false (fun hsame => ?_) fun htakes => htakes.1 hvid
    simpa [Action.onContent] using congrArg Content.size hsame
  · rw [if_neg hvid]
    have hnot : v.vid ∉ s.nodeCache := hvid
    simp [Takes, Action.onContent, Content.addVid, hnot, NodeY.toNode]

/-- The call of an edge row inserts the ends of a row if the vids resolve to nodes that are so
named, and the key is not cached. -/
theorem Mirrored.insert_edge_iff (h : Mirrored s T) (v w : EdgeY) (edge : EdgeM) :
    ((Op.addEdge v.srcVid v.dstVid edge).run "_" s).1.content = (T.insert (.edge w)).content ↔
      Takes s (.edge v) (.edge w) := by
  have hkeep : T.content ≠ T.content.addEnds (w.srcVid, w.dstVid) := fun hsame => by
    simpa using congrArg Content.size hsame
  rw [h.content_run, content_insert, Store.action]
  by_cases hkey : edgeKey "_" v.srcVid v.dstVid ∈ s.edgeCache
  · rw [if_pos hkey]
    exact iff_of_false hkeep fun htakes => htakes.1 hkey
  · rw [if_neg hkey]
    cases hsrc : s.node? v.srcVid with
    | none => exact iff_of_false hkeep (by simp [Takes, hsrc])
    | some a =>
      cases hdst : s.node? v.dstVid with
      | none => exact iff_of_false hkeep (by simp [Takes, hdst])
      | some b =>
        -- an edge is added, between the nodes that the caches resolve the vids to
        simp [Takes, Action.onContent, Content.addEnds, linkEnds, EdgeY.key, hkey, hsrc, hdst]

/-- The two cases as one: the call of a decoded row inserts the row of the table exactly if the
graph takes it as that row. -/
theorem Mirrored.insert_iff (h : Mirrored s T) {op : Op} {target : Target} {row : RowEvent}
    {v : TableRow} (hv : decodedRow parseAsString target row = some v) (hop : Inserts op v) :
    (op.run "_" s).1.content = (T.insert (tableRow textOf target row)).content ↔
      Takes s v (tableRow textOf target row) := by
  cases target with
  | node =>
    obtain ⟨v, -, rfl⟩ := Option.map_eq_some_iff.mp hv
    obtain rfl := inserts_node.mp hop
    exact h.insert_node_iff v (nodeRow textOf row)
  | edge =>
    obtain ⟨v, -, rfl⟩ := Option.map_eq_some_iff.mp hv
    obtain ⟨edge, rfl⟩ := inserts_edge.mp hop
    exact h.insert_edge_iff v (edgeRow textOf row) edge

/-! ## Deletions -/

omit [Graph G NodeM EdgeM] [LawfulGraph G] in
/-- What a deletion takes from the node table. -/
theorem content_delete_node {c : Callback RowEvent} (htag : c.tag = 3) (htarget : c.target = .node)
    (hgenuine : Genuine textOf T c) :
    T.content.vids = ((nodesOf textOf c).map NodeY.vid : Multiset String)
        + (T.follow textOf c).content.vids ∧
      (T.follow textOf c).content.ends = T.content.ends := by
  have hrows := hgenuine htag
  rw [htarget] at hrows
  obtain ⟨hids, hout, hsub⟩ := hrows
  have hfollow : T.follow textOf c = { T with
      nodes := Table.delete NodeY.id T.nodes ((nodesOf textOf c).map NodeY.id) } := by
    simp [Tables.follow, htag, htarget, nodesOf, Function.comp_def]
  have hperm := (Table.delete_perm hids hout hsub).map NodeY.vid
  rw [List.map_append] at hperm
  rw [hfollow]
  exact ⟨(Multiset.coe_eq_coe.mpr hperm).symm, rfl⟩

omit [Graph G NodeM EdgeM] [LawfulGraph G] in
/-- What a deletion takes from the edge table. -/
theorem content_delete_edge {c : Callback RowEvent} (htag : c.tag = 3) (htarget : c.target = .edge)
    (hgenuine : Genuine textOf T c) :
    T.content.ends = (((edgesOf textOf c).map fun v => (v.srcVid, v.dstVid)) :
        Multiset (String × String)) + (T.follow textOf c).content.ends ∧
      (T.follow textOf c).content.vids = T.content.vids := by
  have hrows := hgenuine htag
  rw [htarget] at hrows
  obtain ⟨hids, hout, hsub⟩ := hrows
  have hfollow : T.follow textOf c = { T with
      edges := Table.delete EdgeY.id T.edges ((edgesOf textOf c).map EdgeY.id) } := by
    simp [Tables.follow, htag, htarget, edgesOf, Function.comp_def]
  have hperm := (Table.delete_perm hids hout hsub).map fun v => (v.srcVid, v.dstVid)
  rw [List.map_append] at hperm
  rw [hfollow]
  exact ⟨(Multiset.coe_eq_coe.mpr hperm).symm, rfl⟩

/-- A vid that resolves to a node is taken from the content with that node. -/
theorem Mirrored.removeNode_content (h : Mirrored s T) (vid : String) :
    (s.node? vid = none ∧ ((Op.removeNode vid).run "_" s).1.content = T.content) ∨
    ∃ n, s.node? vid = some n ∧
      T.content.vids = n.vid ::ₘ ((Op.removeNode vid).run "_" s).1.content.vids ∧
      ((Op.removeNode vid).run "_" s).1.content.ends
        = T.content.ends.filter fun p => ¬ (p.1 = n.vid ∨ p.2 = n.vid) := by
  rw [h.content_run, Store.action]
  cases hnode : s.node? vid with
  | none => exact Or.inl ⟨rfl, rfl⟩
  | some n =>
    refine Or.inr ⟨n, rfl, ?_, rfl⟩
    have hmem : n.vid ∈ T.content.vids := by
      rw [← h.content]
      exact Multiset.mem_map_of_mem NodeM.vid (Store.mem_nodes_of_node? hnode)
    have hnodup : T.content.vids.Nodup := by
      rw [← h.content]
      exact Multiset.coe_nodup.mpr h.distinct.nodup
    have hothers : ((Action.dropNode n.vid).onContent T.content).vids
        = T.content.vids.erase n.vid := (hnodup.erase_eq_filter n.vid).symm
    exact (Multiset.cons_erase hmem).symm.trans (congrArg (n.vid ::ₘ ·) hothers.symm)

/-- A key that resolves to an edge takes the ends of that edge from the content. -/
theorem Mirrored.removeEdge_content (h : Mirrored s T) (fromVid toVid : String) :
    (s.edge? (edgeKey "_" fromVid toVid) = none ∧
      ((Op.removeEdgeByNode fromVid toVid).run "_" s).1.content = T.content) ∨
    ∃ l, s.edge? (edgeKey "_" fromVid toVid) = some l ∧
      T.content.ends
        = linkEnds l ::ₘ ((Op.removeEdgeByNode fromVid toVid).run "_" s).1.content.ends ∧
      ((Op.removeEdgeByNode fromVid toVid).run "_" s).1.content.vids = T.content.vids := by
  rw [h.content_run, Store.action]
  cases hlink : s.edge? (edgeKey "_" fromVid toVid) with
  | none => exact Or.inl ⟨rfl, rfl⟩
  | some l =>
    have hmem : linkEnds l ∈ T.content.ends := by
      rw [← h.content]
      exact Multiset.mem_map_of_mem linkEnds (Store.mem_links_of_edge? hlink)
    exact Or.inr ⟨l, rfl, (Multiset.cons_erase hmem).symm, rfl⟩

/-- Taking one element out of a multiset is taking out a given list exactly if that is the list. -/
theorem cons_eq_coe_add_iff {α : Type} {m rest rest' : Multiset α} {a : α} {out : List α}
    (hone : m = a ::ₘ rest) (hall : m = (out : Multiset α) + rest') :
    rest = rest' ↔ out = [a] := by
  constructor
  · rintro rfl
    have hout : (out : Multiset α) + rest = {a} + rest := by
      rw [← hall, hone, Multiset.singleton_add]
    exact Multiset.coe_eq_singleton.mp (add_right_cancel hout)
  · rintro rfl
    rw [hone, Multiset.coe_singleton, Multiset.singleton_add] at hall
    exact (Multiset.cons_inj_right a).mp hall

/-- The call that takes a row out. -/
def Deletes (op : Op) : TableRow → Prop
  | .node v => op = .removeNode v.vid
  | .edge v => op = .removeEdgeByNode v.srcVid v.dstVid

theorem rowCall_deletion (v : TableRow) : ∃ op, rowCall 3 v = some op ∧ Deletes op v := by
  cases v with
  | node v => exact ⟨.removeNode v.vid, rfl, rfl⟩
  | edge v => exact ⟨.removeEdgeByNode v.srcVid v.dstVid, rfl, rfl⟩

/-- The call of a node row does to the graph what the deletion does to the table if the deletion is
of one row, and the cached vid resolves to the node of that row, which has no edges. -/
theorem Mirrored.delete_node_iff (h : Mirrored s T) {c : Callback RowEvent} (htag : c.tag = 3)
    (htarget : c.target = .node) (hgenuine : Genuine textOf T c) {row : RowEvent}
    {rest : List RowEvent} (hrows : c.rows = row :: rest) (v : NodeY) :
    ((Op.removeNode v.vid).run "_" s).1.content = (T.follow textOf c).content ↔
      rest = [] ∧ Drops s T (.node v) (.node (nodeRow textOf row)) := by
  obtain ⟨hvids, hends⟩ := content_delete_node textOf htag htarget hgenuine
  have hout : (nodesOf textOf c).map NodeY.vid
      = (nodeRow textOf row).vid :: (rest.map (nodeRow textOf)).map NodeY.vid := by
    simp [nodesOf, hrows]
  rw [hout] at hvids
  rw [Content.ext_iff, hends]
  rcases h.removeNode_content v.vid with ⟨hnode, hsame⟩ | ⟨n, hnode, hvids', hends'⟩
  -- the table loses a row, and the graph nothing
  · refine iff_of_false (fun hcontent => ?_) (by simp [Drops, hnode])
    rw [hsame] at hcontent
    have hcard := congrArg Multiset.card (hcontent.1.symm.trans hvids)
    simp at hcard
  · have hresolves : (s.node? v.vid).map NodeM.vid = some (nodeRow textOf row).vid ↔
        n.vid = (nodeRow textOf row).vid := by
      simp [hnode]
    rw [cons_eq_coe_add_iff hvids' hvids, hends', Multiset.filter_eq_self, Drops, hresolves,
      List.cons.injEq, List.map_map, List.map_eq_nil_iff]
    constructor
    · rintro ⟨⟨hvid, hrest⟩, hfree⟩
      rw [← hvid] at hfree
      exact ⟨hrest, hvid.symm, hfree⟩
    · rintro ⟨hrest, hvid, hfree⟩
      rw [← hvid] at hfree
      exact ⟨⟨hvid.symm, hrest⟩, hfree⟩

/-- The call of an edge row does so if the deletion is of one row, and the cached key resolves to an
edge between the ends of that row. -/
theorem Mirrored.delete_edge_iff (h : Mirrored s T) {c : Callback RowEvent} (htag : c.tag = 3)
    (htarget : c.target = .edge) (hgenuine : Genuine textOf T c) {row : RowEvent}
    {rest : List RowEvent} (hrows : c.rows = row :: rest) (v : EdgeY) :
    ((Op.removeEdgeByNode v.srcVid v.dstVid).run "_" s).1.content
        = (T.follow textOf c).content ↔
      rest = [] ∧ Drops s T (.edge v) (.edge (edgeRow textOf row)) := by
  obtain ⟨hends, hvids⟩ := content_delete_edge textOf htag htarget hgenuine
  have hout : (edgesOf textOf c).map (fun v => (v.srcVid, v.dstVid))
      = ((edgeRow textOf row).srcVid, (edgeRow textOf row).dstVid) ::
        (rest.map (edgeRow textOf)).map fun v => (v.srcVid, v.dstVid) := by
    simp [edgesOf, hrows]
  rw [hout] at hends
  rw [Content.ext_iff, hvids]
  rcases h.removeEdge_content v.srcVid v.dstVid with ⟨hlink, hsame⟩ | ⟨l, hlink, hends', hvids'⟩
  · refine iff_of_false (fun hcontent => ?_) (by simp [Drops, EdgeY.key, hlink])
    rw [hsame] at hcontent
    have hcard := congrArg Multiset.card (hcontent.2.symm.trans hends)
    simp at hcard
  · rw [cons_eq_coe_add_iff hends' hends, Drops, EdgeY.key, hlink, Option.map_some,
      Option.some_inj, List.cons.injEq, List.map_map, List.map_eq_nil_iff]
    constructor
    · rintro ⟨-, hpair, hrest⟩
      exact ⟨hrest, hpair.symm⟩
    · rintro ⟨hrest, hpair⟩
      exact ⟨hvids', hpair.symm, hrest⟩

/-- The two cases as one: the call of a decoded row does what the deletion does exactly if the
deletion is of that row alone, and the decoded row resolves to it. -/
theorem Mirrored.delete_iff (h : Mirrored s T) {c : Callback RowEvent} (htag : c.tag = 3)
    (hgenuine : Genuine textOf T c) {row : RowEvent} {rest : List RowEvent}
    (hrows : c.rows = row :: rest) {v : TableRow} {op : Op}
    (hv : decodedRow parseAsString c.target row = some v) (hop : Deletes op v) :
    (op.run "_" s).1.content = (T.follow textOf c).content ↔
      rest = [] ∧ Drops s T v (tableRow textOf c.target row) := by
  cases htarget : c.target with
  | node =>
    rw [htarget] at hv
    obtain ⟨v, -, rfl⟩ := Option.map_eq_some_iff.mp hv
    obtain rfl : op = .removeNode v.vid := hop
    exact h.delete_node_iff textOf htag htarget hgenuine hrows v
  | edge =>
    rw [htarget] at hv
    obtain ⟨v, -, rfl⟩ := Option.map_eq_some_iff.mp hv
    obtain rfl : op = .removeEdgeByNode v.srcVid v.dstVid := hop
    exact h.delete_edge_iff textOf htag htarget hgenuine hrows v

/-- A deletion of some rows leaves the tables smaller. -/
theorem content_delete_ne {c : Callback RowEvent} (htag : c.tag = 3) (hgenuine : Genuine textOf T c)
    {row : RowEvent} {rest : List RowEvent} (hrows : c.rows = row :: rest) :
    T.content ≠ (T.follow textOf c).content := by
  intro hsame
  cases htarget : c.target with
  | node =>
    have hcard := congrArg Multiset.card (content_delete_node textOf htag htarget hgenuine).1
    rw [← hsame] at hcard
    simp [nodesOf, hrows] at hcard
  | edge =>
    have hcard := congrArg Multiset.card (content_delete_edge textOf htag htarget hgenuine).1
    rw [← hsame] at hcard
    simp [edgesOf, hrows] at hcard

/-! ## One callback -/

/-- `Decodes` is about the row that the call is made for. -/
theorem decodes_iff {running : Bool} {P : TableRow → TableRow → Prop} {target : Target}
    {row : RowEvent} {v : TableRow} (hrunning : running = true)
    (hv : decodedRow parseAsString target row = some v) :
    Decodes parseAsString textOf running P target row ↔ P v (tableRow textOf target row) := by
  constructor
  · rintro ⟨-, v', hv', hP⟩
    obtain rfl : v = v' := Option.some.inj (hv.symm.trans hv')
    exact hP
  · intro hP
    exact ⟨hrunning, v, hv, hP⟩

/-- A row that is not heard, or that panics, is not decoded to anything. -/
theorem not_decodes {running : Bool} {P : TableRow → TableRow → Prop} {target : Target}
    {row : RowEvent}
    (hnot : ¬ (running = true ∧ (decodedRow parseAsString target row).isSome)) :
    ¬ Decodes parseAsString textOf running P target row := by
  rintro ⟨hrunning, v, hv, -⟩
  exact hnot ⟨hrunning, by rw [hv]; rfl⟩

theorem size_content (T : Tables) : T.content.size = T.nodes.length + T.edges.length := by
  simp [Tables.content, Content.size, Tables.vids, Tables.ends]

/-- An insertion keeps the content exactly if it is of one row at most, which is decoded and taken.
-/
theorem Mirrored.insertion_iff (h : Mirrored s T) (running : Bool) {c : Callback RowEvent}
    (htag : c.tag = 1) :
    (followStep parseAsString running s c).content = (T.follow textOf c).content ↔
      c.rows.length ≤ 1 ∧
        ∀ row ∈ c.rows, Decodes parseAsString textOf running (Takes s) c.target row := by
  have hfollow : T.follow textOf c
      = (c.rows.map (tableRow textOf c.target)).foldl Tables.insert T := if_pos htag
  rw [hfollow]
  cases hrows : c.rows with
  | nil =>
    rw [followStep_none parseAsString (spawnedBy_nothing parseAsString running (.inl htag) hrows)]
    simpa using h.content
  | cons row rest =>
    rw [List.map_cons, single_iff]
    have hsize := size_content ((tableRow textOf c.target row ::
      rest.map (tableRow textOf c.target)).foldl Tables.insert T)
    rw [size_foldl_insert, List.length_cons, List.length_map, ← Nat.add_assoc,
      ← size_content T] at hsize
    rcases spawnedBy_first parseAsString running (.inl htag) hrows with
      ⟨hnothing, hnot⟩ | ⟨v, hrunning, hv, hspawned⟩
    -- without a call the graph lacks what the table gains
    · rw [followStep_none parseAsString hnothing, h.content]
      refine iff_of_false (fun hcontent => ?_) fun hall => not_decodes _ _ hnot hall.2
      rw [← hcontent] at hsize
      omega
    · obtain ⟨op, hcall, hinserts⟩ := rowCall_insertion v
      rw [htag, hcall] at hspawned
      rw [followStep_some parseAsString hspawned, decodes_iff parseAsString textOf hrunning hv]
      -- one call adds one row at most
      have hone : ((op.run "_" s).1.content).size ≤ T.content.size + 1 := by
        rw [h.content_run]
        exact Action.size_onContent_le _ _
      constructor
      · intro hcontent
        rw [hcontent, hsize] at hone
        obtain rfl : rest = [] := List.length_eq_zero_iff.mp (by omega)
        exact ⟨rfl, (h.insert_iff parseAsString textOf hv hinserts).mp hcontent⟩
      · rintro ⟨rfl, htakes⟩
        exact (h.insert_iff parseAsString textOf hv hinserts).mpr htakes

/-- Calls of updates change no vids and no ends. -/
theorem Mirrored.update_content (h : Mirrored s T) (running : Bool) {c : Callback RowEvent}
    (htag : c.tag = 2) : (followStep parseAsString running s c).content = T.content := by
  cases hcall : spawnedBy parseAsString running c with
  | none => rw [followStep_none parseAsString hcall, h.content]
  | some op =>
    rw [followStep_some parseAsString hcall, h.content_run]
    obtain ⟨vid, rfl⟩ | ⟨fromVid, toVid, rfl⟩ := spawnedBy_update parseAsString htag hcall
    · rw [Store.action]
      cases s.node? vid <;> rfl
    · rw [Store.action]
      cases s.edge? (edgeKey "_" fromVid toVid) <;> rfl

/-- A deletion keeps the content exactly if it is of one row at most, which is decoded and dropped.
-/
theorem Mirrored.deletion_iff (h : Mirrored s T) (running : Bool) {c : Callback RowEvent}
    (htag : c.tag = 3) (hgenuine : Genuine textOf T c) :
    (followStep parseAsString running s c).content = (T.follow textOf c).content ↔
      c.rows.length ≤ 1 ∧
        ∀ row ∈ c.rows, Decodes parseAsString textOf running (Drops s T) c.target row := by
  cases hrows : c.rows with
  | nil =>
    have hfollow : T.follow textOf c = T := by
      cases htarget : c.target <;> simp [Tables.follow, htag, htarget, hrows, Table.delete]
    rw [followStep_none parseAsString (spawnedBy_nothing parseAsString running (.inr htag) hrows),
      hfollow]
    simpa using h.content
  | cons row rest =>
    rw [single_iff]
    rcases spawnedBy_first parseAsString running (.inr htag) hrows with
      ⟨hnothing, hnot⟩ | ⟨v, hrunning, hv, hspawned⟩
    -- without a call the graph keeps what the table loses
    · rw [followStep_none parseAsString hnothing, h.content]
      exact iff_of_false (content_delete_ne textOf htag hgenuine hrows)
        fun hall => not_decodes _ _ hnot hall.2
    · obtain ⟨op, hcall, hdeletes⟩ := rowCall_deletion v
      rw [htag, hcall] at hspawned
      rw [followStep_some parseAsString hspawned, decodes_iff parseAsString textOf hrunning hv]
      exact h.delete_iff parseAsString textOf htag hgenuine hrows hv hdeletes

/-- **A callback keeps the content exactly when it is faithful.** -/
theorem mirrored_step_iff (h : Mirrored s T) (running : Bool) {c : Callback RowEvent}
    (htag : c.tag = 1 ∨ c.tag = 2 ∨ c.tag = 3) (hgenuine : Genuine textOf T c) :
    Mirrored (followStep parseAsString running s c) (T.follow textOf c) ↔
      Faithful parseAsString textOf running s T c := by
  rw [h.followStep_iff]
  rcases htag with htag | htag | htag
  · rw [h.insertion_iff parseAsString textOf running htag]
    simp [Faithful, htag]
  · rw [h.update_content parseAsString running htag, eq_comm]
    simp [Faithful, htag]
  · rw [h.deletion_iff parseAsString textOf running htag hgenuine]
    simp [Faithful, htag]

/-! ## All callbacks -/

/-- **The content of the tables.** For all sound tables and every stream in which every table
number is bound to a single table and every deletion is of rows that the table has, under distinct
ids: the watcher spawns the calls of the callbacks in order, up to the first that panics, and when
they run one after another on the loaded graph, the graph has the content of the tables after
every callback exactly when every callback is faithful where it comes. Deletions are so when they
are of one row, decoded without a panic to a vid or a key that still resolves in the caches to
what the row names, and no edge row of a deleted node is left. -/
theorem binlog_keeps_mirror {g : G} (hg : Graph.IsEmpty g) {T : Tables} (hT : T.Sound)
    {stream : List (EventData RowEvent)} (hbound : BoundOnce stream)
    (hgenuine : ∀ pre c, pre ++ [c] <+: callbacksOf parseAsString stream →
      Genuine textOf (pre.foldl (Tables.follow textOf) T) c) :
    (((binlog parseAsString).feed stream).run.run []).2
      = callsOf parseAsString (callbacksOf parseAsString stream) ∧
    ((∀ pre, pre <+: callbacksOf parseAsString stream →
        Mirrored (runAll "_" (callsOf parseAsString pre) (afterLoading g T)).1
          (pre.foldl (Tables.follow textOf) T)) ↔
      ∀ pre c, pre ++ [c] <+: callbacksOf parseAsString stream →
        Faithful parseAsString textOf (pre.all (survives parseAsString))
          (runAll "_" (callsOf parseAsString pre) (afterLoading g T)).1
          (pre.foldl (Tables.follow textOf) T) c) := by
  refine ⟨(feed_spawns parseAsString hbound []).1, ?_⟩
  have hmirrored : Mirrored (runAll "_" (callsOf parseAsString []) (afterLoading g T)).1 T :=
    (Copied.of_loaded (loaded_afterLoading hg hT)).mirrored
  have hstep : ∀ (heard : List (Callback RowEvent)) (T' : Tables) (c : Callback RowEvent),
      (c.tag = 1 ∨ c.tag = 2 ∨ c.tag = 3) ∧ Genuine textOf T' c →
      Mirrored (runAll "_" (callsOf parseAsString heard) (afterLoading g T)).1 T' →
      (Mirrored (runAll "_" (callsOf parseAsString (heard ++ [c])) (afterLoading g T)).1
          (T'.follow textOf c) ↔
        Faithful parseAsString textOf (heard.all (survives parseAsString))
          (runAll "_" (callsOf parseAsString heard) (afterLoading g T)).1 T' c) := by
    intro heard T' c hlegal h
    rw [runAll_callsOf_concat]
    exact mirrored_step_iff parseAsString textOf h _ hlegal.1 hlegal.2
  refine copied_iff hstep hmirrored fun pre c hpre => ⟨?_, hgenuine pre c hpre⟩
  exact tag_of_mem_expected (hpre.subset (by simp))

end Laws

/-- A node is deleted while an edge row still names it. -/
def nodeFirst : List (EventData RowEvent) :=
  [.tableMap ⟨7, "test", "node"⟩, .deleteRows 7 [⟨[.long 1, .string [97]]⟩]]

/-- The edge leaves the graph with the node, and stays in its table. -/
theorem nodeFirst_not_mirrored : ¬ ∀ pre, pre <+: callbacksOf parseAscii nodeFirst →
    Mirrored (runAll "_" (callsOf parseAscii pre) (afterLoading blankGraph pair)).1
      (pre.foldl (Tables.follow asciiText) pair) := by
  have hcallbacks : callbacksOf parseAscii nodeFirst
      = [⟨.node, 3, [⟨[.long 1, .string [97]]⟩]⟩] := by decide
  have hgenuine : ∀ pre c, pre ++ [c] <+: callbacksOf parseAscii nodeFirst →
      Genuine asciiText (pre.foldl (Tables.follow asciiText) pair) c := by
    rw [hcallbacks, forall_prefix_cons]
    exact ⟨fun _ => ⟨by decide, by decide, by decide⟩, forall_prefix_nil⟩
  obtain ⟨-, hiff⟩ := binlog_keeps_mirror parseAscii asciiText blankGraph_isEmpty pair_sound
    (by decide) hgenuine
  intro hmirrored
  have hfaithful := hiff.mp hmirrored [] _ (by rw [hcallbacks]; exact List.prefix_rfl)
  obtain ⟨-, v, hv, hdrops⟩ := (hfaithful.2.2 rfl).2 _ List.mem_cons_self
  obtain rfl : TableRow.node ⟨1, "a"⟩ = v := Option.some.inj hv
  exact hdrops.2 ("a", "b") List.mem_cons_self (Or.inl (by decide))

end MemoryGraph.Examples
