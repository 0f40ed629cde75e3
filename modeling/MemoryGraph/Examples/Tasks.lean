import MemoryGraph.Examples.Follow
import MemoryGraph.Graph.Arrival

/-!
# MemoryGraph — the tasks of the callbacks (`node` and `edge` of `examples/graph.rs`)

The callbacks spawn a task for each call and do not wait for it, so the calls of a stream run
concurrently, in any interleaving. What the graph has in the end depends on it in one way: an
edge is lost when its call is done before the call of one of its ends.

* **`insertedVid?`** — the vid that a callback inserts, decoded from its first row;
* **`tasks_in_any_order`** — in every interleaving of the tasks of a stream without deletions, the
  nodes are the same; an edge is there exactly if its ends were loaded or are inserted before it.
-/

namespace MemoryGraph.Examples

open MemoryGraph Conc Petgraph

variable (parseAsString : List UInt8 → Parsed)

/-- The vid that the call of a callback inserts. -/
def insertedVid? (c : Callback RowEvent) : Option String :=
  match c.target with
  | .node =>
    if c.tag = 1 then
      c.rows.head?.bind fun row => (nodeOf parseAsString row).map NodeY.vid
    else none
  | .edge => none

/-- The vid that a callback inserts is the one that its call adds. -/
theorem addsVid_callOf (c : Callback RowEvent) :
    (callOf parseAsString c).join.bind Op.addsVid? = insertedVid? parseAsString c := by
  obtain ⟨target, tag, rows⟩ := c
  cases target with
  | node =>
    by_cases htag : tag = 1
    · subst htag
      cases rows with
      | nil => rfl
      | cons row rest =>
        rw [callOf_first parseAsString (.inl rfl)]
        cases hnode : nodeOf parseAsString row <;>
          simp [decodedRow, insertedVid?, hnode, rowCall, nodeCall, Op.addsVid?]
    · have hcall : ∀ user, (nodeCall tag user).bind Op.addsVid? = none := fun user => by
        unfold nodeCall
        split_ifs <;> rfl
      rw [insertedVid?, if_neg htag, callOf]
      rcases tidyFunc parseAsString tag rows with _ | _ | user
      · rfl
      · rfl
      · exact hcall user
  | edge =>
    have hcall : ∀ user, (edgeCall tag user).bind Op.addsVid? = none := fun user => by
      unfold edgeCall
      split_ifs <;> rfl
    rw [insertedVid?, callOf]
    rcases tidyFuncEdge parseAsString tag rows with _ | _ | user
    · rfl
    · rfl
    · exact hcall user

/-- The calls that the watcher spawns for a stream. -/
def spawnedCalls (stream : List (EventData RowEvent)) : List Op :=
  callsOf parseAsString (callbacksOf parseAsString stream)

/-- Each is the call of a callback in front of the first that panics. -/
theorem mem_spawnedCalls {stream : List (EventData RowEvent)} {op : Op} :
    op ∈ spawnedCalls parseAsString stream ↔
      ∃ cb ∈ (callbacksOf parseAsString stream).takeWhile (survives parseAsString),
        (callOf parseAsString cb).join = some op := by
  rw [spawnedCalls, callsOf, List.mem_filterMap]

def task (stream : List (EventData RowEvent)) (t : Fin (spawnedCalls parseAsString stream).length) :
    Op := (spawnedCalls parseAsString stream).get t

variable {G : Type} [Graph G NodeM EdgeM]

/-- `GRAPH`, when `main` spawns `binlog`. -/
def loadedGraph (g : G) (T : Tables) : GraphInstance G :=
  { graph g with store := afterLoading g T }

/-- Without deletions, no task removes anything. -/
theorem isRemoval_callOf {c : Callback RowEvent} (htag : c.tag ≠ 3) {op : Op}
    (hcall : (callOf parseAsString c).join = some op) : op.isRemoval = false := by
  obtain ⟨v, hv⟩ := exists_rowCall parseAsString hcall
  cases v with
  | node v =>
    simp only [rowCall, nodeCall, htag, if_false] at hv
    split_ifs at hv <;> cases hv <;> rfl
  | edge v =>
    simp only [rowCall, edgeCall, htag, if_false] at hv
    split_ifs at hv <;> cases hv <;> rfl

variable [LawfulGraph G]

/-- **Tasks in any order.** For all sound tables and every stream in which every table number is
bound to a single table and that deletes no row of the two tables, in every interleaving of the
spawned tasks on the loaded graph in which all have got their replies: the caches are exact, and
the graph has the loaded vids and those of the first rows of the node insertions that come in
front of the first callback that panics, whatever the order. There is one order of the tasks,
consistent with real time, such that an edge key is in the graph exactly if it was loaded, or a
task inserts it that comes after its ends; an edge whose ends were loaded, or inserted by tasks
that returned before its task began, is never lost. -/
theorem tasks_in_any_order {g : G} (hg : Graph.IsEmpty g) {T : Tables} (hT : T.Sound)
    {stream : List (EventData RowEvent)} (hbound : BoundOnce stream)
    (hdeletes : ∀ c ∈ callbacksOf parseAsString stream, c.tag ≠ 3)
    {tr : List (Event (Fin (spawnedCalls parseAsString stream).length))}
    {c : Config (Fin (spawnedCalls parseAsString stream).length) (Store G) Lock Reply}
    (hrun : Run ((loadedGraph g T).calls (task parseAsString stream)) (loadedGraph g T).store tr c)
    (hdone : ∀ t, (c.phase t).reply?.isSome) :
    (((binlog parseAsString).feed stream).run.run []).2 = spawnedCalls parseAsString stream ∧
    Indexed "_" c.store ∧
    (∀ vid, vid ∈ c.store.catalog.vids ↔ vid ∈ T.vids ∨
      ∃ cb ∈ (callbacksOf parseAsString stream).takeWhile (survives parseAsString),
        insertedVid? parseAsString cb = some vid) ∧
    (∃ order : List (Fin (spawnedCalls parseAsString stream).length),
      order.Nodup ∧ (∀ t, t ∈ order) ∧
      (∀ a b, ReturnedBefore tr a b → [a, b].Sublist order) ∧
      ∀ key, key ∈ c.store.catalog.keys "_" ↔ key ∈ T.keys ∨
        ∃ t fromVid toVid edge, task parseAsString stream t = .addEdge fromVid toVid edge ∧
          edgeKey "_" fromVid toVid = key ∧ ∀ vid ∈ [fromVid, toVid], vid ∈ T.vids ∨
            ∃ u, [u, t].Sublist order ∧ (task parseAsString stream u).addsVid? = some vid) ∧
    ∀ t fromVid toVid edge, task parseAsString stream t = .addEdge fromVid toVid edge →
      (∀ vid ∈ [fromVid, toVid], vid ∈ T.vids ∨
        ∃ u, ReturnedBefore tr u t ∧ (task parseAsString stream u).addsVid? = some vid) →
      edgeKey "_" fromVid toVid ∈ c.store.catalog.keys "_" := by
  have hloaded : Loaded (loadedGraph g T).store T := loaded_afterLoading hg hT
  have hops : ∀ t, (task parseAsString stream t).isRemoval = false := fun t => by
    obtain ⟨cb, hcb, hcall⟩ := (mem_spawnedCalls parseAsString).mp (List.get_mem _ t)
    exact isRemoval_callOf parseAsString (hdeletes cb (List.takeWhile_subset _ hcb)) hcall
  have hindexed : Indexed (loadedGraph g T).segment (loadedGraph g T).store := hloaded.1
  obtain ⟨hindexed', order, hnodup, hmem, hreal, hnodes, hedges⟩ :=
    exists_arrival_order hindexed hops hrun
  have hall : ∀ t, t ∈ order := fun t => (hmem t).mpr (hdone t)
  simp only [hloaded.2, T.vids_catalog, hall, true_and] at hnodes hedges
  -- what the order of arrival says, with the loaded tables in place of the store
  have hedge : ∀ key, key ∈ c.store.catalog.keys "_" ↔ key ∈ T.keys ∨
      ∃ t fromVid toVid edge, task parseAsString stream t = .addEdge fromVid toVid edge ∧
        edgeKey "_" fromVid toVid = key ∧ ∀ vid ∈ [fromVid, toVid], vid ∈ T.vids ∨
          ∃ u, [u, t].Sublist order ∧ (task parseAsString stream u).addsVid? = some vid := by
    intro key
    rw [← T.keys_catalog]
    exact hedges key
  refine ⟨(feed_spawns parseAsString hbound []).1, hindexed', fun vid => ?_,
    ⟨order, hnodup, hall, fun a b hab => hreal a b hab (hall b), hedge⟩, ?_⟩
  · rw [hnodes]
    refine or_congr_right ?_
    constructor
    · rintro ⟨t, ht⟩
      obtain ⟨cb, hcb, hcall⟩ := (mem_spawnedCalls parseAsString).mp (List.get_mem _ t)
      exact ⟨cb, hcb, by rw [← addsVid_callOf, hcall]; exact ht⟩
    · rintro ⟨cb, hcb, hvid⟩
      rw [← addsVid_callOf] at hvid
      obtain ⟨op, hcall, hop⟩ := Option.bind_eq_some_iff.mp hvid
      obtain ⟨t, ht⟩ := List.get_of_mem ((mem_spawnedCalls parseAsString).mpr ⟨cb, hcb, hcall⟩)
      have htask : task parseAsString stream t = op := ht
      exact ⟨t, htask ▸ hop⟩
  · intro t fromVid toVid edge ht hends
    refine (hedge _).mpr (Or.inr ⟨t, fromVid, toVid, edge, ht, rfl, fun vid hvid => ?_⟩)
    refine (hends vid hvid).imp id ?_
    rintro ⟨u, hreturned, hu⟩
    exact ⟨u, hreal u t hreturned (hall t), hu⟩

/-- A node and an edge to it, inserted one after the other. -/
def crossing : List (EventData RowEvent) :=
  [.tableMap ⟨7, "test", "node"⟩, .tableMap ⟨8, "test", "edge"⟩,
    .writeRows 7 [⟨[.long 3, .string [99]]⟩],
    .writeRows 8 [⟨[.long 2, .string [98], .string [99]]⟩]]

def nodeTask : Fin (spawnedCalls parseAscii crossing).length := ⟨0, by decide⟩

def edgeTask : Fin (spawnedCalls parseAscii crossing).length := ⟨1, by decide⟩

/-- The task of the edge is first, and its edge is lost. -/
theorem crossing_loses_edge : ∃ c,
    Run ((loadedGraph blankGraph pair).calls (task parseAscii crossing))
    (loadedGraph blankGraph pair).store
    [.begin nodeTask, .begin edgeTask, .enter edgeTask, .enter nodeTask, .enter nodeTask] c ∧
    "c" ∈ c.store.catalog.vids ∧ "b_c" ∉ c.store.catalog.keys "_" := by
  have hrun : ∃ c, Run ((loadedGraph blankGraph pair).calls (task parseAscii crossing))
      (loadedGraph blankGraph pair).store
      [.begin nodeTask, .begin edgeTask, .enter edgeTask, .enter nodeTask, .enter nodeTask] c ∧
      (∀ t, (c.phase t).reply?.isSome) ∧ "b_c" ∉ c.store.catalog.keys "_" :=
    ⟨_, Run.of_replay rfl, by decide, by decide⟩
  obtain ⟨c, hrun, hdone, hlost⟩ := hrun
  have hdeletes : ∀ cb ∈ callbacksOf parseAscii crossing, cb.tag ≠ 3 := by decide
  obtain ⟨-, -, hvids, -⟩ := tasks_in_any_order parseAscii blankGraph_isEmpty pair_sound
    (by decide) hdeletes hrun hdone
  exact ⟨c, hrun, (hvids "c").mpr (Or.inr (by decide)), hlost⟩

end MemoryGraph.Examples
