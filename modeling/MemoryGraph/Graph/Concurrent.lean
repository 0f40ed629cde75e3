import Mathlib.Data.Fintype.EquivFin
import Mathlib.Order.Fin.Basic
import MemoryGraph.Graph.Index

/-!
# MemoryGraph — concurrent calls on one instance

A family `ops : ι → Op` of calls runs concurrently on one instance. Two machines run it:
`Conc.Run` interleaves whole lock sections, `Conc.LockRun` interleaves the single requests,
grants and drops on first-come-first-served locks, and refines the former.

* **`calls_linearizable`** — every interleaving of sections is equivalent to running the
  calls one at a time, in an order that respects real time;
* **`insert_traffic_indexed`** — without removals the caches stay exact indices of the graph;
* **`vids_never_duplicated`** — with removals, too, no two nodes ever share a vid;
* **`exists_lock_linearization`**, **`section_exclusive`** — the same on the single locks, where
  nobody sees the work of a section half done;
* **`calls_never_deadlock`** — on the locks, some call that has begun can always go on.

Invariants of sequential runs carry over to interleavings through the linearization
(`store_induction`): the store of a concurrent run is the store of a sequential one.
-/

namespace MemoryGraph

open Conc Petgraph

variable {G : Type} [Graph G NodeM EdgeM] {ι : Type} [DecidableEq ι]

def GraphInstance.calls (self : GraphInstance G) (ops : ι → Op) : ι → Call G :=
  fun t => (ops t).call self.segment

omit [DecidableEq ι] in
theorem map_calls (self : GraphInstance G) (ops : ι → Op) (order : List ι) :
    order.map (self.calls ops) = (order.map ops).map (Op.call self.segment) := by
  simp [GraphInstance.calls]

/-- Every interleaving of calls on an instance has a linearization. -/
theorem exists_linearization {self : GraphInstance G} {ops : ι → Op} {tr : List (Event ι)}
    {c : Config ι (Store G) Lock Reply} (hrun : Run (self.calls ops) self.store tr c) :
    ∃ order, Linearization (self.calls ops) self.store tr c order :=
  hrun.linearizable fun t => commits_call (ops t)

omit [DecidableEq ι] in
/-- The store of a linearization, as a run of the operations. -/
theorem store_eq_runAll {self : GraphInstance G} {ops : ι → Op} {tr : List (Event ι)}
    {c : Config ι (Store G) Lock Reply} {order : List ι}
    (h : Linearization (self.calls ops) self.store tr c order) :
    (self.runAll (order.map ops)).1 = c.store := by
  rw [GraphInstance.runAll, runAll, ← map_calls, h.store_eq]

omit [DecidableEq ι] in
/-- The replies of a linearization, as those of a run of the operations. -/
theorem replies_eq_runAll {self : GraphInstance G} {ops : ι → Op} {tr : List (Event ι)}
    {c : Config ι (Store G) Lock Reply} {order : List ι}
    (h : Linearization (self.calls ops) self.store tr c order) :
    (self.runAll (order.map ops)).2.map some = order.map fun t => (c.phase t).reply? := by
  rw [GraphInstance.runAll, runAll, ← map_calls, h.reply_eq]

/-- What every sequence of calls leaves true is true in every state of an interleaving. -/
theorem store_induction {motive : Store G → Prop} {self : GraphInstance G} {ops : ι → Op}
    {tr : List (Event ι)} {c : Config ι (Store G) Lock Reply}
    (hrun : Run (self.calls ops) self.store tr c)
    (h : ∀ order : List ι, motive (self.runAll (order.map ops)).1) : motive c.store := by
  obtain ⟨order, hlin⟩ := exists_linearization hrun
  rw [← store_eq_runAll hlin]
  exact h order

/-! ## Linearizability -/

/-- **Every call is atomic.** For every interleaving of the lock sections of a family of
calls there is one order of the calls that have run their last section, in which a call that
returned before another one began comes first, such that running the calls one at a time in
that order on the same instance gives each of them the same reply and ends in the same
graph, `node_cache` and `edge_cache`. -/
theorem calls_linearizable (nodeCap edgeCap : Nat) (g : G) (ops : ι → Op) {tr : List (Event ι)}
    {c : Config ι (Store G) Lock Reply}
    (hrun : Run ((GraphInstance.new nodeCap edgeCap g).calls ops)
      (GraphInstance.new nodeCap edgeCap g).store tr c) :
    ∃ order : List ι, order.Nodup ∧ (∀ t, t ∈ order ↔ (c.phase t).reply?.isSome) ∧
      (∀ a b, ReturnedBefore tr a b → b ∈ order → [a, b].Sublist order) ∧
      ((GraphInstance.new nodeCap edgeCap g).runAll (order.map ops)).1 = c.store ∧
      ((GraphInstance.new nodeCap edgeCap g).runAll (order.map ops)).2.map some
        = order.map fun t => (c.phase t).reply? := by
  obtain ⟨order, h⟩ := exists_linearization hrun
  exact ⟨order, h.nodup, h.mem_iff, h.realTime, store_eq_runAll h, replies_eq_runAll h⟩

/-- Three callers on one vid. -/
inductive Racer where
  | first
  | second
  | remover
  deriving DecidableEq

/-- Two calls race to add one vid, and one more call removes it. -/
def racing : Racer → Op
  | .first => .addNode ⟨"a", ∅⟩
  | .second => .addNode ⟨"a", ∅⟩
  | .remover => .removeNode "a"

/-- Both insertions look at `node_cache` before either inserts. The loser looks again while the
removal is between its two sections. -/
def racingTrace : List (Event Racer) :=
  [.begin .first, .begin .second, .enter .first, .enter .second, .enter .second, .finish .second,
    .begin .remover, .enter .remover, .enter .first, .enter .remover, .finish .first,
    .finish .remover]

theorem exists_racing_run : ∃ c, Run (GraphInstance.blank.calls racing) GraphInstance.blank.store
    racingTrace c ∧ ∀ t, (c.phase t).reply?.isSome :=
  ⟨_, Run.of_replay rfl, fun t => by cases t <;> rfl⟩

/-- The second racer returns before the remover begins, so it comes first in the order. -/
theorem racing_linearizable : ∃ c, Run (GraphInstance.blank.calls racing) GraphInstance.blank.store
    racingTrace c ∧ ∃ order : List Racer, order.Nodup ∧ (∀ t, t ∈ order) ∧
      [Racer.second, .remover].Sublist order ∧
      (GraphInstance.blank.runAll (order.map racing)).1 = c.store ∧
      (GraphInstance.blank.runAll (order.map racing)).2.map some
        = order.map fun t => (c.phase t).reply? := by
  obtain ⟨c, hrun, hall⟩ := exists_racing_run
  obtain ⟨order, hnodup, hmem, hreal, hstore, hreplies⟩ :=
    calls_linearizable 0 0 GraphInstance.blank.store.inner racing hrun
  have hreturned : ReturnedBefore racingTrace .second .remover := by unfold ReturnedBefore; decide
  exact ⟨c, hrun, order, hnodup, fun t => (hmem t).mpr (hall t),
    hreal .second .remover hreturned ((hmem _).mpr (hall _)), hstore, hreplies⟩

/-! ## Insertions and updates -/

/-- **The caches stay exact.** In every state reached by an interleaving of insertions,
lookups and updates, `node_cache` maps a vid to an index exactly when the node there has the
vid, `edge_cache` maps a key to an index exactly when the edge there has the key, every
index in range is hit by exactly one key, and hence no two nodes share a vid and no two
edges share the ordered pair of endpoints. -/
theorem insert_traffic_indexed [LawfulGraph G] (nodeCap edgeCap : Nat) {g : G}
    (hg : Graph.IsEmpty g) {ops : ι → Op} (hops : ∀ t, (ops t).isRemoval = false)
    {tr : List (Event ι)} {c : Config ι (Store G) Lock Reply}
    (hrun : Run ((GraphInstance.new nodeCap edgeCap g).calls ops)
      (GraphInstance.new nodeCap edgeCap g).store tr c) :
    (∀ vid idx, c.store.nodeCache.lookup vid = some idx ↔
      ∃ node, (Graph.rawNodes c.store.inner)[idx]? = some node ∧ node.vid = vid) ∧
    (∀ key idx, c.store.edgeCache.lookup key = some idx ↔
      ∃ e a b, (Graph.rawEdges c.store.inner)[idx]? = some e ∧
        (Graph.rawNodes c.store.inner)[e.source]? = some a ∧
        (Graph.rawNodes c.store.inner)[e.target]? = some b ∧ key = a.vid ++ "_" ++ b.vid) ∧
    (∀ idx, idx < (Graph.rawNodes c.store.inner).length ↔
      ∃! vid, c.store.nodeCache.lookup vid = some idx) ∧
    (∀ idx, idx < (Graph.rawEdges c.store.inner).length ↔
      ∃! key, c.store.edgeCache.lookup key = some idx) ∧
    ((Graph.rawNodes c.store.inner).map NodeM.vid).Nodup ∧
    ((Graph.rawEdges c.store.inner).map fun e => (e.source, e.target)).Nodup := by
  -- the store is that of some run of the calls, so it is enough to look at runs
  have h : Indexed "_" c.store := by
    refine store_induction hrun fun order => (Indexed.empty hg).runAll fun op hop => ?_
    obtain ⟨t, -, rfl⟩ := List.mem_map.mp hop
    exact hops t
  refine ⟨fun vid idx => ?_, fun key idx => ?_, fun idx => ?_, fun idx => ?_, h.vids_nodup,
    h.ends_nodup⟩
  · rw [h.node, Store.vids_getElem?]
  · rw [h.edge, Store.keyAt_eq_some]
    rfl
  · rw [h.existsUnique_vid, Store.vids, List.length_map]
  · rw [h.existsUnique_key, Store.ends, List.length_map]

/-- A node and a self-loop are added while the loop is updated. -/
def building : Fin 3 → Op
  | 0 => .addNode ⟨"a", ∅⟩
  | 1 => .addEdge "a" "a" ⟨1, "a", "a", ∅⟩
  | 2 => .updateEdgeByNode "a" "a" ∅

/-- The edge gets in, since both its ends are there in time, and the caches are exact. -/
theorem building_indexed : ∃ c, Run (GraphInstance.blank.calls building) GraphInstance.blank.store
    [.begin 2, .begin 0, .enter 0, .enter 0, .begin 1, .enter 1, .enter 2, .enter 1] c ∧
    (∀ vid idx, c.store.nodeCache.lookup vid = some idx ↔
      ∃ node, (Graph.rawNodes c.store.inner)[idx]? = some node ∧ node.vid = vid) ∧
    (Graph.rawEdges c.store.inner).length = 1 ∧
    ((Graph.rawEdges c.store.inner).map fun e => (e.source, e.target)).Nodup := by
  have hrun : ∃ c, Run (GraphInstance.blank.calls building) GraphInstance.blank.store
      [.begin 2, .begin 0, .enter 0, .enter 0, .begin 1, .enter 1, .enter 2, .enter 1] c ∧
      (Graph.rawEdges c.store.inner).length = 1 := ⟨_, Run.of_replay rfl, rfl⟩
  obtain ⟨c, hrun, hlen⟩ := hrun
  have hops : ∀ t, (building t).isRemoval = false := fun t => match t with | 0 | 1 | 2 => rfl
  obtain ⟨hnode, -, -, -, -, hends⟩ := insert_traffic_indexed 0 0 ⟨rfl, rfl⟩ hops hrun
  exact ⟨c, hrun, hnode, hlen, hends⟩

/-! ## Distinct vids -/

/-- A vid that a call brings into the graph is the vid of an `add_node` that replies `Ok`. -/
theorem added_of_mem_vids_run [LawfulGraph G] {segment : String} {op : Op} {s : Store G}
    {vid : String} (hvid : vid ∈ (op.run segment s).1.vids) :
    vid ∈ s.vids ∨ ∃ node idx, op = .addNode node ∧ node.vid = vid ∧
      (op.run segment s).2 = .nodeIndex (.ok idx) := by
  have hchange : Change segment s op (op.run segment s).1 := run_change op s
  generalize hs' : (op.run segment s).1 = s' at hvid hchange
  -- all but one change keep the vids or take some out
  cases hchange with
  | same => exact Or.inl hvid
  | @nodeAdded node hop hfresh =>
    simp only [Store.vids, LawfulGraph.rawNodes_addNode, List.map_append, List.map_singleton,
      List.mem_append, List.mem_singleton] at hvid
    rcases hvid with hold | rfl
    · exact Or.inl hold
    · subst hop
      exact Or.inr ⟨node, _, rfl, rfl, by rw [run_addNode, if_neg hfresh]⟩
  | @nodeUpdated _ data _ node _ _ _ hborrow =>
    have hvids : ({ s with inner := _ } : Store G).vids = s.vids :=
      vids_nodeWeightMut hborrow (show ({ node with data := data } : NodeM).vid = node.vid from rfl)
    exact Or.inl (hvids ▸ hvid)
  | nodeRemoved _ _ =>
    obtain ⟨node, hnode, rfl⟩ := List.mem_map.mp hvid
    exact Or.inl (List.mem_map_of_mem (LawfulGraph.mem_of_mem_removeNode hnode))
  | edgeAdded _ _ _ _ hadd =>
    obtain ⟨-, -, -, hnodes, -⟩ := LawfulGraph.addEdge_eq_some hadd
    exact Or.inl (by simpa [Store.vids, hnodes] using hvid)
  | edgeUpdated _ _ hborrow => exact Or.inl (vids_edgeWeightMut hborrow _ ▸ hvid)
  | edgeRemoved _ _ =>
    exact Or.inl (by simpa [Store.vids, LawfulGraph.rawNodes_removeEdge] using hvid)

/-- A vid that a sequence of calls brings into the graph is the vid of one of its `add_node`
calls, and that call replied `Ok`. -/
theorem added_of_mem_vids [LawfulGraph G] {segment : String} {ops : List Op} {s : Store G}
    {vid : String} (hvid : vid ∈ (runAll segment ops s).1.vids) :
    vid ∈ s.vids ∨ ∃ node idx, node.vid = vid ∧
      (Op.addNode node, Reply.nodeIndex (.ok idx)) ∈ ops.zip (runAll segment ops s).2 := by
  induction ops generalizing s with
  | nil => exact Or.inl hvid
  | cons op ops ih =>
    rcases ih hvid with hstep | ⟨node, idx, hnode, hmem⟩
    · rcases added_of_mem_vids_run hstep with hold | ⟨node, idx, rfl, hnode, hreply⟩
      · exact Or.inl hold
      · refine Or.inr ⟨node, idx, hnode, ?_⟩
        rw [← hreply]
        exact List.mem_cons_self
    · exact Or.inr ⟨node, idx, hnode, List.mem_cons_of_mem _ hmem⟩

omit [DecidableEq ι] in
/-- A reply of a sequential run belongs to a call of the order. -/
theorem exists_of_mem_zip {ops : ι → Op} {reply : ι → Option Reply} {order : List ι}
    {replies : List Reply} (h : replies.map some = order.map reply) {op : Op} {r : Reply}
    (hmem : (op, r) ∈ (order.map ops).zip replies) :
    ∃ t ∈ order, ops t = op ∧ reply t = some r := by
  induction order generalizing replies with
  | nil => simp at hmem
  | cons t order ih =>
    cases replies with
    | nil => simp at hmem
    | cons r' replies =>
      simp only [List.map_cons, List.cons.injEq] at h
      rcases List.mem_cons.mp hmem with heq | hmem
      · obtain ⟨rfl, rfl⟩ : op = ops t ∧ r = r' := by simpa using heq
        exact ⟨t, List.mem_cons_self, rfl, h.1.symm⟩
      · obtain ⟨u, hu, hop, hr⟩ := ih h.2 hmem
        exact ⟨u, List.mem_cons_of_mem t hu, hop, hr⟩

/-- **No vid is duplicated.** In every state reached by an interleaving of any operations,
removals included, no two nodes of the graph carry the same vid, and every node of the graph
carries the vid of an `add_node` call that has returned `Ok` or is about to. -/
theorem vids_never_duplicated [LawfulGraph G] (nodeCap edgeCap : Nat) {g : G}
    (hg : Graph.IsEmpty g) {ops : ι → Op} {tr : List (Event ι)}
    {c : Config ι (Store G) Lock Reply}
    (hrun : Run ((GraphInstance.new nodeCap edgeCap g).calls ops)
      (GraphInstance.new nodeCap edgeCap g).store tr c) :
    ((Graph.rawNodes c.store.inner).map NodeM.vid).Nodup ∧
    ∀ n ∈ Graph.rawNodes c.store.inner, ∃ t node idx, ops t = .addNode node ∧ node.vid = n.vid ∧
      (c.phase t).reply? = some (.nodeIndex (.ok idx)) := by
  have h : Distinct c.store :=
    store_induction hrun fun order => (Distinct.empty hg).runAll (order.map ops)
  refine ⟨h.nodup, ?_⟩
  intro n hn
  -- in the sequential run the vid came from an `add_node`, whose reply is the concurrent one
  obtain ⟨order, hlin⟩ := exists_linearization hrun
  have hvid : n.vid ∈ (runAll "_" (order.map ops) (⟨g, ∅, ∅⟩ : Store G)).1.vids := by
    have hmem : n.vid ∈ c.store.vids := List.mem_map_of_mem hn
    rwa [← store_eq_runAll hlin] at hmem
  rcases added_of_mem_vids hvid with hold | ⟨node, idx, hnode, hmem⟩
  · simp [Store.vids, hg.1] at hold
  · obtain ⟨t, -, hop, hreply⟩ := exists_of_mem_zip (replies_eq_runAll hlin) hmem
    exact ⟨t, node, idx, hop, hnode, hreply⟩

/-- When the loser of the race has looked again, and before the removal acts, there is one node, and
it is that of a call that has replied `Ok`. -/
theorem racing_never_duplicated : ∃ c, Run (GraphInstance.blank.calls racing)
    GraphInstance.blank.store (racingTrace.take 9) c ∧
    (Graph.rawNodes c.store.inner).map NodeM.vid = ["a"] ∧
    ((Graph.rawNodes c.store.inner).map NodeM.vid).Nodup ∧
    ∃ t node idx, racing t = .addNode node ∧ node.vid = "a" ∧
      (c.phase t).reply? = some (.nodeIndex (.ok idx)) := by
  have hrun : ∃ c, Run (GraphInstance.blank.calls racing) GraphInstance.blank.store
      (racingTrace.take 9) c ∧ Graph.rawNodes c.store.inner = [⟨"a", ∅⟩] :=
    ⟨_, Run.of_replay rfl, rfl⟩
  obtain ⟨c, hrun, hnodes⟩ := hrun
  obtain ⟨hnodup, hadded⟩ := vids_never_duplicated 0 0 ⟨rfl, rfl⟩ hrun
  exact ⟨c, hrun, by rw [hnodes]; rfl, hnodup, hadded ⟨"a", ∅⟩ (by simp [hnodes])⟩

/-! ## The locks -/

/-- On the locks, too, every run has a linearization: without the single lock events it is an
interleaving of sections. -/
theorem exists_lock_linearization {self : GraphInstance G} {ops : ι → Op} {tr : List (LockEvent ι)}
    {c : LockConfig ι (Store G) Lock Reply} (hrun : LockRun (self.calls ops) self.store tr c) :
    ∃ order, Linearization (self.calls ops) self.store (tr.flatMap LockEvent.toEvents)
      c.toConfig order :=
  exists_linearization hrun.run

/-- While a call has the guards of a section that writes a lock, no other call has a guard on
that lock: the work of the section cannot be seen half done. -/
theorem section_exclusive {self : GraphInstance G} {ops : ι → Op} {tr : List (LockEvent ι)}
    {c : LockConfig ι (Store G) Lock Reply} (hrun : LockRun (self.calls ops) self.store tr c)
    {t u : ι} {locks held : List (Lock × Mode)} {effect : Store G → Store G}
    {next : Store G → Call G} {l : Lock} {m : Mode}
    (hstage : c.stage t = .acquire (.locked locks effect next) held [])
    (hwrite : (l, Mode.write) ∈ locks) (hother : (l, m) ∈ (c.stage u).guards) : u = t :=
  hrun.exclusive (fun t => ordered_call (ops t)) hstage hwrite hother

/-- **No deadlock.** On first-come-first-served reader-writer locks, whenever some call has
begun and not returned, some such call does not wait for a lock and has an event to do. -/
theorem calls_never_deadlock (nodeCap edgeCap : Nat) (g : G) (ops : ι → Op)
    {tr : List (LockEvent ι)} {c : LockConfig ι (Store G) Lock Reply}
    (hrun : LockRun ((GraphInstance.new nodeCap edgeCap g).calls ops)
      (GraphInstance.new nodeCap edgeCap g).store tr c)
    (hbegun : ∃ t, (c.stage t).Unfinished) :
    ∃ t, (c.stage t).Unfinished ∧ ¬ c.Waiting t ∧
      ∃ ev c', ev.caller = t ∧
        LockStep ((GraphInstance.new nodeCap edgeCap g).calls ops) c ev c' := by
  have hinv := hrun.inv fun t => ordered_call (ops t)
  obtain ⟨t₀, ht₀⟩ := hbegun
  obtain ⟨t, ht, hwait⟩ := hinv.no_deadlock ht₀
  exact ⟨t, ht, hwait, hinv.can_step ht hwait⟩

/-- The first caller reads `node_cache`, the second holds `inner` and waits to write
`node_cache`, and the remover waits to read it behind the second. -/
def blockedTrace : List (LockEvent Racer) :=
  [.begin .second, .request .second, .resume .second, .work .second, .drop .second,
    .leave .second, .request .second, .resume .second, .begin .first, .request .first,
    .resume .first, .request .second, .begin .remover, .request .remover]

/-- Two callers wait for `node_cache`, and the one that reads it can go on. -/
theorem racing_never_deadlock : ∃ c, LockRun (GraphInstance.blank.calls racing)
    GraphInstance.blank.store blockedTrace c ∧
    c.Waiting .second ∧ c.Waiting .remover ∧ ∃ t, (c.stage t).Unfinished ∧ ¬ c.Waiting t ∧
      ∃ ev c', ev.caller = t ∧ LockStep (GraphInstance.blank.calls racing) c ev c' := by
  have hrun : ∃ c, LockRun (GraphInstance.blank.calls racing) GraphInstance.blank.store
      blockedTrace c ∧ c.Waiting .second ∧ c.Waiting .remover ∧ (c.stage .first).Unfinished :=
    ⟨_, LockRun.of_replay rfl, ⟨.nodeCache, .write, .head _⟩,
      ⟨.nodeCache, .read, .tail _ (.head _)⟩, trivial⟩
  obtain ⟨c, hrun, h₁, h₂, hbegun⟩ := hrun
  exact ⟨c, hrun, h₁, h₂,
    calls_never_deadlock 0 0 GraphInstance.blank.store.inner racing hrun ⟨.first, hbegun⟩⟩

end MemoryGraph
