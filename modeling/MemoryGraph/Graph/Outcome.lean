import MemoryGraph.Conc.Progress
import MemoryGraph.Graph.Concurrent
import MemoryGraph.Graph.Known

/-!
# MemoryGraph — how concurrent calls end

Two results about families of any of the nine operations, removals included, on an instance
over any graph.

* **`calls_all_return`** — on the first-come-first-served locks every call gets to its end: the
  events of a call are bounded, the calls that have begun can always be completed, and where
  no event is possible all calls have returned, with the replies of a sequential run;
* **`caches_record_replies`** — in every interleaving the two caches hold exactly the indices
  that successful insertions have replied, and at most one insertion of a vid or of an edge key
  succeeds.
-/

namespace MemoryGraph

open Conc Petgraph

variable {G : Type} [Graph G NodeM EdgeM] {segment : String}

/-! ## Budgets -/

/-- The lock events a call does at most, after it has begun: five for a section with one lock,
eight for a section with two, and one to return. -/
def Op.budget : Op → Nat
  | .addNode _ => 14
  | .addEdge .. => 17
  | _ => 11

omit [Graph G NodeM EdgeM] in
theorem within_resolve (lock : Lock) (lookup : Store G → Option Nat) (absent : Reply)
    (mode : Mode) (act : Nat → Store G → Store G × Reply) :
    (resolve lock lookup absent mode act).Within 11 := by
  refine Proc.within_critical (k := 6) (fun s => ?_) (by simp)
  cases lookup s with
  | none => exact Proc.within_ret _ (by omega)
  | some idx => exact Proc.within_critical (fun _ => Proc.within_ret _ (le_refl 1)) (by simp)

theorem within_addNode (node : NodeM) : (addNode node : Call G).Within 14 := by
  refine Proc.within_critical (k := 9) (fun s => ?_) (by simp)
  split
  · exact Proc.within_ret _ (by omega)
  · refine Proc.within_critical (fun s => ?_) (by simp : 3 * 2 + 2 + 1 ≤ 9)
    split <;> exact Proc.within_ret _ (le_refl 1)

theorem within_addEdge (fromVid toVid : String) (edge : EdgeM) :
    (addEdge segment fromVid toVid edge : Call G).Within 17 := by
  refine Proc.within_critical (k := 9) (fun s => ?_) (by simp)
  split
  · exact Proc.within_ret _ (by omega)
  · cases s.nodeCache.lookup fromVid with
    | none => exact Proc.within_ret _ (by omega)
    | some a =>
      cases s.nodeCache.lookup toVid with
      | none => exact Proc.within_ret _ (by omega)
      | some b =>
        refine Proc.within_critical (fun s => ?_) (by simp : 3 * 2 + 2 + 1 ≤ 9)
        split
        · exact Proc.within_ret _ (le_refl 1)
        · cases Graph.addEdge s.inner a b edge <;> exact Proc.within_ret _ (le_refl 1)

/-- Each operation keeps to its budget of lock events. -/
theorem within_call (op : Op) : (op.call segment : Call G).Within op.budget := by
  cases op with
  | addNode node => exact within_addNode node
  | addEdge fromVid toVid edge => exact within_addEdge fromVid toVid edge
  | _ => exact within_resolve ..

/-! ## Every call returns -/

section Locks

variable {ι : Type} [DecidableEq ι]

omit [DecidableEq ι] in
/-- The sequential run of a linearization replies to each call what the call has replied. -/
theorem exists_replies {self : GraphInstance G} {ops : ι → Op} {tr : List (Event ι)}
    {c : Config ι (Store G) Lock Reply} {order : List ι}
    (hlin : Linearization (self.calls ops) self.store tr c order) :
    ∃ reply : ι → Reply, (∀ t ∈ order, (c.phase t).reply? = some (reply t)) ∧
      (self.runAll (order.map ops)).2 = order.map reply := by
  have hreply : ∀ t ∈ order, (c.phase t).reply? = some (((c.phase t).reply?).getD .panicked) := by
    intro t ht
    obtain ⟨r, hr⟩ := Option.isSome_iff_exists.mp ((hlin.mem_iff t).mp ht)
    rw [hr, Option.getD_some]
  refine ⟨_, hreply, List.map_injective_iff.mpr (Option.some_injective Reply) ?_⟩
  rw [replies_eq_runAll hlin, List.map_map]
  exact List.map_congr_left hreply

/-- Where all calls have returned, the replies of a linearization are those returned. -/
theorem exists_order_of_returned {self : GraphInstance G} {ops : ι → Op}
    {tr : List (LockEvent ι)} {c : LockConfig ι (Store G) Lock Reply}
    (hrun : LockRun (self.calls ops) self.store tr c) (hdone : ∀ t, ∃ r, c.stage t = .returned r) :
    ∃ order : List ι, order.Nodup ∧ (∀ t, t ∈ order) ∧
      (∀ a b, ReturnedBefore (tr.flatMap LockEvent.toEvents) a b → [a, b].Sublist order) ∧
      (self.runAll (order.map ops)).1 = c.store ∧
      (self.runAll (order.map ops)).2.map Stage.returned = order.map c.stage := by
  obtain ⟨order, hlin⟩ := exists_lock_linearization hrun
  obtain ⟨reply, hreply, hreplies⟩ := exists_replies hlin
  have hmem : ∀ t, t ∈ order := fun t => by
    obtain ⟨r, hr⟩ := hdone t
    exact (hlin.mem_iff t).mpr (by simp [LockConfig.toConfig, hr])
  refine ⟨order, hlin.nodup, hmem, fun a b hab => hlin.realTime a b hab (hmem b),
    store_eq_runAll hlin, ?_⟩
  rw [hreplies, List.map_map]
  refine List.map_congr_left fun t ht => ?_
  obtain ⟨r, hr⟩ := hdone t
  have hsame := hreply t ht
  simp only [LockConfig.toConfig, hr, Stage.phase_returned, Phase.reply?_returned,
    Option.some.injEq] at hsame
  rw [Function.comp_apply, hr, hsame]

/-- **Every call returns.** On first-come-first-served reader-writer locks, in every run: a call
does no more events than its budget allows, whatever the others do; the calls that have begun
can be brought to their ends by events of their own alone; and where no event is possible,
every call has returned, with the replies and the store of one sequential run that respects
real time. -/
theorem calls_all_return (nodeCap edgeCap : Nat) (g : G) (ops : ι → Op)
    {tr : List (LockEvent ι)} {c : LockConfig ι (Store G) Lock Reply}
    (hrun : LockRun ((GraphInstance.new nodeCap edgeCap g).calls ops)
      (GraphInstance.new nodeCap edgeCap g).store tr c) :
    (∀ t, (tr.map LockEvent.caller).count t ≤ (ops t).budget + 1) ∧
    (∃ evs c', LockRun ((GraphInstance.new nodeCap edgeCap g).calls ops)
        (GraphInstance.new nodeCap edgeCap g).store (tr ++ evs) c' ∧
      (∀ ev ∈ evs, c.stage ev.caller ≠ .idle) ∧
      ∀ t, c.stage t ≠ .idle → ∃ r, c'.stage t = .returned r) ∧
    ((∀ ev c', ¬ LockStep ((GraphInstance.new nodeCap edgeCap g).calls ops) c ev c') →
      ∃ order : List ι, order.Nodup ∧ (∀ t, t ∈ order) ∧
        (∀ a b, ReturnedBefore (tr.flatMap LockEvent.toEvents) a b → [a, b].Sublist order) ∧
        ((GraphInstance.new nodeCap edgeCap g).runAll (order.map ops)).1 = c.store ∧
        ((GraphInstance.new nodeCap edgeCap g).runAll (order.map ops)).2.map Stage.returned
          = order.map c.stage) := by
  have hwithin : ∀ t, ((GraphInstance.new nodeCap edgeCap g).calls ops t).Within (ops t).budget :=
    fun t => within_call (ops t)
  have hordered : ∀ t, ((GraphInstance.new nodeCap edgeCap g).calls ops t).Ordered Lock.rank :=
    fun t => ordered_call (ops t)
  refine ⟨hrun.events_le hwithin, ?_, fun hstuck => ?_⟩
  · obtain ⟨evs, c', hrun', hevs, hquiet⟩ := hrun.completion hwithin hordered
    refine ⟨evs, c', hrun', fun ev hev hidle => (hrun.idle_iff _).mp hidle (hevs ev hev), ?_⟩
    intro t ht
    -- a call that has begun is not idle again, so it has returned
    have hbegun : c'.stage t ≠ .idle := fun hidle => by
      have hnot := (hrun'.idle_iff t).mp hidle
      rw [List.map_append, List.mem_append, not_or] at hnot
      exact ht ((hrun.idle_iff t).mpr hnot.1)
    cases hstage : c'.stage t with
    | idle => exact absurd hstage hbegun
    | returned r => exact ⟨r, rfl⟩
    | _ => exact absurd (by rw [hstage]; trivial) (hquiet t)
  · exact exists_order_of_returned hrun (hrun.returned_of_stuck hordered hstuck)

end Locks

/-- With the first caller reading `node_cache` and the others waiting for it, all can still be
brought to their ends. -/
theorem racing_all_return : ∃ evs c, LockRun (GraphInstance.blank.calls racing)
    GraphInstance.blank.store (blockedTrace ++ evs) c ∧ ∀ t, ∃ r, c.stage t = .returned r := by
  have hrun : ∃ c, LockRun (GraphInstance.blank.calls racing) GraphInstance.blank.store
      blockedTrace c ∧ ∀ t, c.stage t ≠ .idle :=
    ⟨_, LockRun.of_replay rfl, fun t => by cases t <;> nofun⟩
  obtain ⟨c, hrun, hbegun⟩ := hrun
  obtain ⟨-, ⟨evs, c', hrun', -, hdone⟩, -⟩ :=
    calls_all_return 0 0 GraphInstance.blank.store.inner racing hrun
  exact ⟨evs, c', hrun', fun t => hdone t (hbegun t)⟩

/-! ## The caches record the replies -/

theorem lookup_insert_fresh_iff {V : Type} {m : Dict V} {key key' : String} {v v' : V}
    (hfresh : key ∉ m) : (m.insert key v).lookup key' = some v' ↔
      m.lookup key' = some v' ∨ key = key' ∧ v = v' := by
  rcases eq_or_ne key' key with rfl | hne
  · simp [Finmap.lookup_eq_none.mpr hfresh]
  · simp [Finmap.lookup_insert_of_ne _ hne, hne.symm]

/-- The vid and the index of a node that a call has added. -/
def insertedNode? : Op → Reply → Option (String × Nat)
  | .addNode node, .nodeIndex (.ok idx) => some (node.vid, idx)
  | _, _ => none

/-- The key and the index of an edge that a call has added. -/
def insertedEdge? (segment : String) : Op → Reply → Option (String × Nat)
  | .addEdge fromVid toVid _, .edgeIndex (.ok idx) => some (edgeKey segment fromVid toVid, idx)
  | _, _ => none

/-- Only an `add_node` that replies `Ok` puts an entry into `node_cache`. -/
theorem insertedNode?_eq_some {op : Op} {r : Reply} {vid : String} {idx : Nat} :
    insertedNode? op r = some (vid, idx) ↔
      ∃ node, op = .addNode node ∧ node.vid = vid ∧ r = .nodeIndex (.ok idx) := by
  unfold insertedNode?
  split <;> simp_all

/-- Only an `add_edge` that replies `Ok` puts an entry into `edge_cache`. -/
theorem insertedEdge?_eq_some {op : Op} {r : Reply} {key : String} {idx : Nat} :
    insertedEdge? segment op r = some (key, idx) ↔ ∃ fromVid toVid edge,
      op = .addEdge fromVid toVid edge ∧ edgeKey segment fromVid toVid = key ∧
        r = .edgeIndex (.ok idx) := by
  unfold insertedEdge?
  split <;> grind

/-- The cache gains, from a call, exactly the entry that `inserted?` reads off the call and its
reply, and the key of that entry is new. -/
structure Records (segment : String) (cache : Store G → Dict Nat)
    (inserted? : Op → Reply → Option (String × Nat)) : Prop where
  step : ∀ (op : Op) (s : Store G) (key : String) (idx : Nat),
    (cache (op.run segment s).1).lookup key = some idx ↔
      (cache s).lookup key = some idx ∨ inserted? op (op.run segment s).2 = some (key, idx)
  fresh : ∀ {op : Op} {s : Store G} {key : String} {idx : Nat},
    inserted? op (op.run segment s).2 = some (key, idx) → key ∉ cache s

/-- Only `add_edge` adds to `edge_cache`. -/
theorem Change.edgeCache_of_ne {s s' : Store G} {op : Op} (hchange : Change segment s op s')
    (hop : ∀ fromVid toVid edge, op ≠ .addEdge fromVid toVid edge) :
    s'.edgeCache = s.edgeCache := by
  cases hchange with
  | edgeAdded hadd _ _ _ _ => exact absurd hadd (hop _ _ _)
  | _ => rfl

/-- `node_cache` records the replies of `add_node`. -/
theorem records_nodeCache : Records segment (Store.nodeCache (G := G)) insertedNode? where
  step op s vid idx := by
    cases op with
    | addNode node =>
      rw [run_addNode]
      by_cases hcached : node.vid ∈ s.nodeCache
      · simp [hcached, insertedNode?]
      · simp [hcached, insertedNode?, lookup_insert_fresh_iff hcached]
    | _ => rw [(run_change _ s).nodeCache_eq rfl]; simp [insertedNode?]
  fresh {op s vid idx} hinserted := by
    obtain ⟨node, rfl, rfl, hreply⟩ := insertedNode?_eq_some.mp hinserted
    intro hcached
    rw [run_addNode, if_pos hcached] at hreply
    simp at hreply

/-- `edge_cache` records the replies of `add_edge`. -/
theorem records_edgeCache :
    Records segment (Store.edgeCache (G := G)) (insertedEdge? segment) where
  step op s key idx := by
    cases op with
    | addEdge fromVid toVid edge =>
      have hexit := run_addEdge_exit segment fromVid toVid edge s
      generalize (Op.addEdge fromVid toVid edge).run segment s = out at hexit ⊢
      cases hexit with
      | added hkey _ _ _ => simp [insertedEdge?, lookup_insert_fresh_iff hkey]
      | _ => simp [insertedEdge?]
    | _ => rw [(run_change _ s).edgeCache_of_ne (by simp)]; simp [insertedEdge?]
  fresh {op s key idx} hinserted := by
    obtain ⟨fromVid, toVid, edge, rfl, rfl, hreply⟩ := insertedEdge?_eq_some.mp hinserted
    intro hcached
    rw [run_addEdge, if_pos hcached] at hreply
    simp at hreply

namespace Records

variable {cache : Store G → Dict Nat} {inserted? : Op → Reply → Option (String × Nat)}

/-- After a sequence of calls, the cache has what it had and what the calls have inserted. -/
theorem runAll (h : Records segment cache inserted?) (ops : List Op) (s : Store G) (key : String)
    (idx : Nat) : (cache (runAll segment ops s).1).lookup key = some idx ↔
      (cache s).lookup key = some idx ∨
        ∃ p ∈ ops.zip (MemoryGraph.runAll segment ops s).2,
          inserted? p.1 p.2 = some (key, idx) := by
  induction ops generalizing s with
  | nil => simp [MemoryGraph.runAll]
  | cons op ops ih =>
    have hzip : (op :: ops).zip (MemoryGraph.runAll segment (op :: ops) s).2
        = (op, (op.run segment s).2)
          :: ops.zip (MemoryGraph.runAll segment ops (op.run segment s).1).2 := rfl
    have hrest := ih (op.run segment s).1
    rw [h.step, or_assoc] at hrest
    rw [hzip]
    simp only [List.mem_cons, exists_eq_or_imp]
    exact hrest

/-- A key that a call of a run inserts was not in the cache before the run. -/
theorem fresh_runAll (h : Records segment cache inserted?) {ops : List Op} {s : Store G}
    {p : Op × Reply} (hp : p ∈ ops.zip (MemoryGraph.runAll segment ops s).2) {key : String}
    {idx : Nat} (hinserted : inserted? p.1 p.2 = some (key, idx)) : key ∉ cache s := by
  induction ops generalizing s with
  | nil => simp at hp
  | cons op ops ih =>
    rcases List.mem_cons.mp hp with rfl | hp
    · exact h.fresh hinserted
    -- a key that is new later was not there before either
    · intro hcached
      obtain ⟨i, hi⟩ := Finmap.mem_iff.mp hcached
      exact ih hp (Finmap.mem_iff.mpr ⟨i, (h.step op s key i).mpr (Or.inl hi)⟩)

/-- No key is inserted twice. -/
theorem pairwise (h : Records segment cache inserted?) (ops : List Op) (s : Store G) :
    (ops.zip (MemoryGraph.runAll segment ops s).2).Pairwise fun p q =>
      ∀ key i j, inserted? p.1 p.2 = some (key, i) → inserted? q.1 q.2 ≠ some (key, j) := by
  induction ops generalizing s with
  | nil => simp
  | cons op ops ih =>
    refine List.pairwise_cons.mpr ⟨fun q hq key i j hp hinserted => ?_, ih (op.run segment s).1⟩
    have hkey := (h.step op s key i).mpr (Or.inr hp)
    exact h.fresh_runAll hq hinserted (Finmap.mem_iff.mpr ⟨i, hkey⟩)

variable {ι : Type} [DecidableEq ι] {self : GraphInstance G} {ops : ι → Op} {tr : List (Event ι)}
  {c : Config ι (Store G) Lock Reply}

/-- In every interleaving, the cache has what it had and what the calls that have replied have
inserted, each key by one call. -/
theorem concurrent (h : Records self.segment cache inserted?)
    (hrun : Run (self.calls ops) self.store tr c) :
    (∀ key idx, (cache c.store).lookup key = some idx ↔ (cache self.store).lookup key = some idx ∨
      ∃ t r, (c.phase t).reply? = some r ∧ inserted? (ops t) r = some (key, idx)) ∧
    ∀ {t u r r' key i j}, (c.phase t).reply? = some r → inserted? (ops t) r = some (key, i) →
      (c.phase u).reply? = some r' → inserted? (ops u) r' = some (key, j) → t = u := by
  obtain ⟨order, hlin⟩ := exists_linearization hrun
  obtain ⟨reply, hreply, hreplies⟩ := exists_replies hlin
  have hzip : (order.map ops).zip (MemoryGraph.runAll self.segment (order.map ops) self.store).2
      = order.map fun t => (ops t, reply t) := by
    rw [show (MemoryGraph.runAll self.segment (order.map ops) self.store).2 = _ from hreplies]
    exact List.zip_map'
  have hmem : ∀ {t r}, (c.phase t).reply? = some r → t ∈ order ∧ reply t = r := fun {t r} hr => by
    have ht := (hlin.mem_iff t).mpr (by simp [hr])
    exact ⟨ht, Option.some.inj ((hreply t ht).symm.trans hr)⟩
  constructor
  · intro key idx
    rw [← store_eq_runAll hlin]
    refine (h.runAll _ _ key idx).trans (or_congr_right ?_)
    rw [hzip]
    constructor
    · rintro ⟨p, hp, hinserted⟩
      obtain ⟨t, ht, rfl⟩ := List.mem_map.mp hp
      exact ⟨t, reply t, hreply t ht, hinserted⟩
    · rintro ⟨t, r, hr, hinserted⟩
      obtain ⟨ht, rfl⟩ := hmem hr
      exact ⟨_, List.mem_map_of_mem ht, hinserted⟩
  · intro t u r r' key i j hr hi hr' hj
    obtain ⟨ht, rfl⟩ := hmem hr
    obtain ⟨hu, rfl⟩ := hmem hr'
    by_contra hne
    -- of two calls that insert one key, the later one would have found it cached
    have hpairs := h.pairwise (order.map ops) self.store
    rw [hzip, List.pairwise_map] at hpairs
    have hsymm : Std.Symm fun t u => ∀ key i j,
        inserted? (ops t) (reply t) = some (key, i) →
          inserted? (ops u) (reply u) ≠ some (key, j) :=
      ⟨fun t u hpair key i j hi hj => hpair key j i hj hi⟩
    exact hpairs.forall ht hu hne key i j hi hj

end Records

/-- After a sequence of calls `node_cache` has the vids it had and those of the `add_node` calls. -/
theorem mem_nodeCache_runAll_iff (ops : List Op) (s : Store G) {vid : String} :
    vid ∈ (runAll segment ops s).1.nodeCache ↔ vid ∈ s.nodeCache ∨ vid ∈ addedVids ops := by
  induction ops generalizing s with
  | nil => simp [runAll, addedVids]
  | cons op ops ih =>
    refine (ih (op.run segment s).1).trans ?_
    rw [mem_nodeCache_run_iff, or_assoc]
    refine or_congr_right ?_
    cases hvid : op.addsVid? <;> simp [addedVids, hvid, eq_comm]

/-- **The caches record the replies.** In every interleaving of any of the nine operations on a
new instance, `node_cache` maps a vid to an index exactly when some `add_node` of the vid has
replied `Ok` with it, and as soon as one `add_node` of a vid has replied, exactly one has
replied `Ok`. Likewise `edge_cache` holds what the `add_edge` calls have replied, and at most
one of those with the same key succeeds. -/
theorem caches_record_replies {ι : Type} [DecidableEq ι] (nodeCap edgeCap : Nat) (g : G)
    {ops : ι → Op} {tr : List (Event ι)} {c : Config ι (Store G) Lock Reply}
    (hrun : Run ((GraphInstance.new nodeCap edgeCap g).calls ops)
      (GraphInstance.new nodeCap edgeCap g).store tr c) :
    (∀ vid idx, c.store.nodeCache.lookup vid = some idx ↔ ∃ t node, ops t = .addNode node ∧
      node.vid = vid ∧ (c.phase t).reply? = some (.nodeIndex (.ok idx))) ∧
    (∀ t node, ops t = .addNode node → ((c.phase t).reply?).isSome →
      ∃! u, ∃ node' idx, ops u = .addNode node' ∧ node'.vid = node.vid ∧
        (c.phase u).reply? = some (.nodeIndex (.ok idx))) ∧
    (∀ key idx, c.store.edgeCache.lookup key = some idx ↔ ∃ t fromVid toVid edge,
      ops t = .addEdge fromVid toVid edge ∧ fromVid ++ "_" ++ toVid = key ∧
        (c.phase t).reply? = some (.edgeIndex (.ok idx))) ∧
    (∀ t u fromVid toVid edge fromVid' toVid' edge' i j, ops t = .addEdge fromVid toVid edge →
      ops u = .addEdge fromVid' toVid' edge' →
      fromVid ++ "_" ++ toVid = fromVid' ++ "_" ++ toVid' →
      (c.phase t).reply? = some (.edgeIndex (.ok i)) →
      (c.phase u).reply? = some (.edgeIndex (.ok j)) → t = u) := by
  obtain ⟨hnode, hnodeOnce⟩ := records_nodeCache.concurrent hrun
  obtain ⟨hedge, hedgeOnce⟩ := records_edgeCache.concurrent hrun
  have hlookup : ∀ vid idx, c.store.nodeCache.lookup vid = some idx ↔ ∃ t node,
      ops t = .addNode node ∧ node.vid = vid ∧
        (c.phase t).reply? = some (.nodeIndex (.ok idx)) := by
    intro vid idx
    rw [hnode]
    simp only [GraphInstance.new, Finmap.lookup_empty, insertedNode?_eq_some, reduceCtorEq,
      false_or]
    constructor
    · rintro ⟨t, r, hr, node, ht, hvid, rfl⟩
      exact ⟨t, node, ht, hvid, hr⟩
    · rintro ⟨t, node, ht, hvid, hr⟩
      exact ⟨t, _, hr, node, ht, hvid, rfl⟩
  refine ⟨hlookup, fun t node ht hreplied => ?_, fun key idx => ?_, ?_⟩
  -- the vid is cached since the reply at the latest, and one call has put it there
  · have hcached : node.vid ∈ c.store.nodeCache := by
      obtain ⟨order, hlin⟩ := exists_linearization hrun
      rw [← store_eq_runAll hlin]
      refine (mem_nodeCache_runAll_iff _ _).mpr (Or.inr ?_)
      refine List.mem_filterMap.mpr ⟨ops t, List.mem_map_of_mem ((hlin.mem_iff t).mpr hreplied), ?_⟩
      rw [ht, Op.addsVid?]
    obtain ⟨i, hi⟩ := Finmap.mem_iff.mp hcached
    obtain ⟨u, node', hu, hvid, hok⟩ := (hlookup _ _).mp hi
    refine ⟨u, ⟨node', i, hu, hvid, hok⟩, ?_⟩
    rintro u' ⟨node'', j, hu', hvid', hok'⟩
    exact hnodeOnce hok' (insertedNode?_eq_some.mpr ⟨node'', hu', hvid', rfl⟩) hok
      (insertedNode?_eq_some.mpr ⟨node', hu, hvid, rfl⟩)
  · rw [hedge]
    simp only [GraphInstance.new, Finmap.lookup_empty, insertedEdge?_eq_some, reduceCtorEq,
      false_or]
    constructor
    · rintro ⟨t, r, hr, fromVid, toVid, edge, ht, hkey, rfl⟩
      exact ⟨t, fromVid, toVid, edge, ht, hkey, hr⟩
    · rintro ⟨t, fromVid, toVid, edge, ht, hkey, hr⟩
      exact ⟨t, _, hr, fromVid, toVid, edge, ht, hkey, rfl⟩
  · intro t u fromVid toVid edge fromVid' toVid' edge' i j ht hu hkey hi hj
    exact hedgeOnce hi (insertedEdge?_eq_some.mpr ⟨fromVid, toVid, edge, ht, rfl, rfl⟩) hj
      (insertedEdge?_eq_some.mpr ⟨fromVid', toVid', edge', hu, hkey.symm, rfl⟩)

/-- The vid is removed from the graph, and yet one of the two insertions has succeeded. -/
theorem racing_records_replies : ∃ c, Run (GraphInstance.blank.calls racing)
    GraphInstance.blank.store racingTrace c ∧ c.store.nodeCache.lookup "a" = some 0 ∧
    ∃! u, ∃ node' idx, racing u = .addNode node' ∧ node'.vid = "a" ∧
      (c.phase u).reply? = some (.nodeIndex (.ok idx)) := by
  have hrun : ∃ c, Run (GraphInstance.blank.calls racing) GraphInstance.blank.store racingTrace c ∧
      c.store.nodeCache.lookup "a" = some 0 ∧ ((c.phase .first).reply?).isSome :=
    ⟨_, Run.of_replay rfl, rfl, rfl⟩
  obtain ⟨c, hrun, hcached, hreplied⟩ := hrun
  obtain ⟨-, honce, -⟩ := caches_record_replies 0 0 GraphInstance.blank.store.inner hrun
  exact ⟨c, hrun, hcached, honce .first _ rfl hreplied⟩

end MemoryGraph
