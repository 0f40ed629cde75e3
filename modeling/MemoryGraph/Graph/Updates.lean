import MemoryGraph.Conc.Acquire
import MemoryGraph.Graph.Concurrent
import MemoryGraph.Graph.Lookup

/-!
# MemoryGraph — concurrent edge updates

`update_edge` and `update_edge_by_node` resolve an edge index through `edge_cache` and extend the
data of the edge there under the write lock of the graph. While nobody else writes, the index
stays what it was (`Retains`), and the calls act on the graph in the order in which they get the
write lock (`writers`).

* **`exists_data_runAll`** — what a sequence of updates makes of the data of one edge: for each
  key the last value that was sent to it, by whatever edge key, or the old value;
* **`edge_updates_lose_nothing`** — the same for every interleaving, and that the order does not
  matter where the calls on one edge carry different data keys.
-/

namespace MemoryGraph

open Conc Petgraph

variable {G : Type} [Graph G NodeM EdgeM] {segment : String}

/-- Where only one element has a value, it does not matter which one is asked first. -/
theorem findSome?_eq_some_iff_exists {α β : Type} {f : α → Option β} {l : List α}
    (hunique : ∀ a ∈ l, ∀ b ∈ l, (f a).isSome → (f b).isSome → a = b) {v : β} :
    l.findSome? f = some v ↔ ∃ a ∈ l, f a = some v := by
  constructor
  · exact List.exists_of_findSome?_eq_some
  · rintro ⟨a, ha, hv⟩
    have hsome : (l.findSome? f).isSome := List.findSome?_isSome_iff.mpr ⟨a, ha, hv ▸ rfl⟩
    obtain ⟨w, hw⟩ := Option.isSome_iff_exists.mp hsome
    obtain ⟨b, hb, hbw⟩ := List.exists_of_findSome?_eq_some hw
    obtain rfl : b = a := hunique b hb a ha (hbw ▸ rfl) (hv ▸ rfl)
    rw [hw, ← hbw, hv]

/-- `update_edge`, `update_edge_by_node` or the lookup `find_node_by_vid`. -/
def Op.writesOnlyEdgeData : Op → Bool
  | .updateEdge _ _ | .updateEdgeByNode _ _ _ | .findNodeByVid _ => true
  | _ => false

/-- A call is either the lookup or an edge update. -/
theorem Op.writesOnlyEdgeData_cases {op : Op} (segment : String)
    (hop : op.writesOnlyEdgeData = true) :
    (∃ vid, op = .findNodeByVid vid) ∨ ∃ key data, op.edgeUpdate? segment = some (key, data) := by
  cases op with
  | findNodeByVid vid => exact Or.inl ⟨vid, rfl⟩
  | updateEdge edgeVid data => exact Or.inr ⟨edgeVid, data, rfl⟩
  | updateEdgeByNode fromVid toVid data => exact Or.inr ⟨_, data, rfl⟩
  | _ => simp [Op.writesOnlyEdgeData] at hop

/-- The data that a call sends to the edge at `idx`, when its edge key resolves there. -/
def Op.dataFor (segment : String) (s : Store G) (idx : Nat) (op : Op) : Option (Dict String) :=
  (op.edgeUpdate? segment).bind fun u =>
    if s.edgeCache.lookup u.1 = some idx then some u.2 else none

/-- The edge with other data. -/
def withData (data : Dict String) (e : Edge EdgeM) : Edge EdgeM :=
  { e with weight := { e.weight with data := data } }

/-- The two stores differ in the data of edges only. -/
structure Retains (s s' : Store G) : Prop where
  nodeCache : s'.nodeCache = s.nodeCache
  edgeCache : s'.edgeCache = s.edgeCache
  nodes : Graph.rawNodes s'.inner = Graph.rawNodes s.inner
  edges : (Graph.rawEdges s'.inner).map (withData ∅) = (Graph.rawEdges s.inner).map (withData ∅)

omit [Graph G NodeM EdgeM] in
/-- `extend` on a `HashMap`: the new value of a data key if there is one, else the old. -/
theorem lookup_extend (old new : Dict String) (k : String) :
    (old.extend new).lookup k = (new.lookup k).or (old.lookup k) := by
  by_cases hk : k ∈ new
  · obtain ⟨v, hv⟩ := Finmap.mem_iff.mp hk
    rw [Dict.extend, Finmap.lookup_union_left hk, hv, Option.some_or]
  · rw [Dict.extend, Finmap.lookup_union_right hk, Finmap.lookup_eq_none.mpr hk, Option.none_or]

instance : IsPreorder (Store G) Retains where
  refl _ := ⟨rfl, rfl, rfl, rfl⟩
  trans _ _ _ h h' := ⟨h'.nodeCache.trans h.nodeCache, h'.edgeCache.trans h.edgeCache,
    h'.nodes.trans h.nodes, h'.edges.trans h.edges⟩

namespace Retains

variable {s s' : Store G}

theorem length_eq (h : Retains s s') :
    (Graph.rawEdges s'.inner).length = (Graph.rawEdges s.inner).length := by
  simpa using congrArg List.length h.edges

theorem getElem?_eq_none (h : Retains s s') {idx : Nat}
    (hnone : (Graph.rawEdges s.inner)[idx]? = none) : (Graph.rawEdges s'.inner)[idx]? = none := by
  rw [List.getElem?_eq_none_iff] at hnone ⊢
  rwa [h.length_eq]

theorem isSome_rawEdge? (h : Retains s s') (key : String) :
    (s'.rawEdge? key).isSome = (s.rawEdge? key).isSome := by
  rw [Store.rawEdge?, Store.rawEdge?, h.edgeCache]
  cases s.edgeCache.lookup key with
  | none => rfl
  | some idx =>
    rw [Bool.eq_iff_iff]
    simp [h.length_eq]

/-- The edge that a call sends its data to is decided by the caches, which stay as they are. -/
theorem dataFor_eq (h : Retains s s') (segment : String) (idx : Nat) (op : Op) :
    op.dataFor segment s' idx = op.dataFor segment s idx := by
  rw [Op.dataFor, Op.dataFor, h.edgeCache]

variable [LawfulGraph G]

/-- Writing data through the borrow of an edge is such a change. -/
theorem edgeWeightMut {idx : Nat} {edge : EdgeM} {put : EdgeM → G}
    (hborrow : Graph.edgeWeightMut s.inner idx = some (edge, put)) (data : Dict String) :
    Retains s { s with inner := put { edge with data := data } } := by
  obtain ⟨e, he, rfl⟩ := LawfulGraph.edgeWeightMut_eq_some hborrow
  refine ⟨rfl, rfl, LawfulGraph.rawNodes_edgeWeightMut hborrow _, ?_⟩
  show (Graph.rawEdges (put _)).map _ = _
  rw [LawfulGraph.rawEdges_edgeWeightMut hborrow]
  refine List.ext_getElem? fun i => ?_
  rw [List.getElem?_map, List.getElem?_map]
  rcases eq_or_ne idx i with rfl | hne
  · rw [List.getElem?_modify_eq, he]
    rfl
  · rw [List.getElem?_modify_ne _ _ hne]

end Retains

section Laws

variable [LawfulGraph G] {op : Op}

/-- The calls that write edge data only change no more than that. -/
theorem Change.retains {s s' : Store G} (hchange : Change segment s op s')
    (hop : op.writesOnlyEdgeData = true) : Retains s s' := by
  cases hchange with
  | same => exact refl s
  | edgeUpdated _ _ hborrow => exact .edgeWeightMut hborrow _
  | nodeAdded h _ | nodeUpdated h _ _ | nodeRemoved h _ | edgeAdded h _ _ _ _ =>
    simp [h, Op.writesOnlyEdgeData] at hop
  | edgeRemoved h _ => cases op <;> simp_all [Op.writesOnlyEdgeData, Op.edgeRemoval?]

/-- The reply of a call depends on nothing that another such call changes. -/
theorem Retains.reply_eq {s s' : Store G} (h : Retains s s') (hop : op.writesOnlyEdgeData = true) :
    (op.run segment s').2 = (op.run segment s).2 := by
  rcases op.writesOnlyEdgeData_cases segment hop with ⟨vid, rfl⟩ | ⟨key, data, hupdate⟩
  · rw [reply_findNodeByVid, reply_findNodeByVid, Store.node?, Store.node?, h.nodeCache, h.nodes]
  · obtain ⟨missing, hrun⟩ := run_of_edgeUpdate? (G := G) hupdate
    obtain ⟨t, ht, -⟩ := run_updateEdgeAt_eq key (.edgeNotFound missing) data s
    obtain ⟨t', ht', -⟩ := run_updateEdgeAt_eq key (.edgeNotFound missing) data s'
    rw [hrun, hrun, ht, ht', h.isSome_rawEdge?]

/-- What one call makes of the data of an edge: a merge in which the new values win. -/
theorem exists_data_run (hop : op.writesOnlyEdgeData = true) {s : Store G} {idx : Nat}
    {e : Edge EdgeM} (he : (Graph.rawEdges s.inner)[idx]? = some e) :
    ∃ data, (Graph.rawEdges (op.run segment s).1.inner)[idx]? = some (withData data e) ∧
      ∀ k, data.lookup k = ((op.dataFor segment s idx).bind fun new => new.lookup k).or
        (e.weight.data.lookup k) := by
  rcases op.writesOnlyEdgeData_cases segment hop with ⟨vid, rfl⟩ | ⟨key, new, hupdate⟩
  · rw [run_findNodeByVid]
    exact ⟨e.weight.data, he, fun k => rfl⟩
  · obtain ⟨missing, hrun⟩ := run_of_edgeUpdate? (G := G) hupdate
    obtain ⟨t, ht, -, -, -, hedges⟩ := run_updateEdgeAt_eq key (.edgeNotFound missing) new s
    rw [hrun, ht, Op.dataFor, hupdate, Option.bind_some, hedges]
    by_cases hidx : s.edgeCache.lookup key = some idx
    · refine ⟨e.weight.data.extend new, ?_, fun k => ?_⟩
      · rw [hidx, modifyAt, List.getElem?_modify_eq, he]
        rfl
      · rw [if_pos hidx, Option.bind_some, lookup_extend]
    · -- the key resolves to another edge, or to none
      refine ⟨e.weight.data, ?_, fun k => ?_⟩
      · cases hother : s.edgeCache.lookup key with
        | none => exact he
        | some idx' =>
          have hne : idx' ≠ idx := by
            rintro rfl
            exact hidx hother
          rw [modifyAt, List.getElem?_modify_ne _ _ hne]
          exact he
      · rw [if_neg hidx, Option.bind_none, Option.none_or]

theorem runAll_retains {ops : List Op} (hops : ∀ op ∈ ops, op.writesOnlyEdgeData = true)
    (s : Store G) : Retains s (runAll segment ops s).1 :=
  runAll_induction (refl s) fun op hop s' hs' =>
    IsTrans.trans _ _ _ hs' ((run_change op s').retains (hops op hop))

/-- What a sequence of calls makes of the data of an edge: each key has the value of the last
call that sent one there, or the old value. -/
theorem exists_data_runAll (segment : String) {ops : List Op}
    (hops : ∀ op ∈ ops, op.writesOnlyEdgeData = true) {s : Store G} {idx : Nat} {e : Edge EdgeM}
    (he : (Graph.rawEdges s.inner)[idx]? = some e) :
    ∃ data, (Graph.rawEdges (runAll segment ops s).1.inner)[idx]? = some (withData data e) ∧
      ∀ k, data.lookup k = (ops.reverse.findSome? fun op =>
        (op.dataFor segment s idx).bind fun new => new.lookup k).or (e.weight.data.lookup k) := by
  induction ops using List.reverseRecOn with
  | nil => exact ⟨e.weight.data, he, fun k => rfl⟩
  | append_singleton ops op ih =>
    have hbefore : ∀ op ∈ ops, op.writesOnlyEdgeData = true :=
      fun op hop => hops op (List.mem_append_left _ hop)
    obtain ⟨data, hdata, hlookup⟩ := ih hbefore
    obtain ⟨data', hdata', hlookup'⟩ := exists_data_run (hops op (by simp)) hdata
    refine ⟨data', ?_, fun k => ?_⟩
    · rw [runAll_concat]
      exact hdata'
    -- the last call is looked at first
    · have hretains : Retains s (runAll segment ops s).1 := runAll_retains hbefore s
      rw [hlookup', hretains.dataFor_eq, List.reverse_append, List.reverse_singleton,
        List.singleton_append, List.findSome?_cons]
      cases (op.dataFor segment s idx).bind fun new => new.lookup k with
      | none => exact hlookup k
      | some v => rfl

/-! ## Interleavings -/

omit [Graph G NodeM EdgeM] [LawfulGraph G] in
/-- The write guard of `inner` is taken where the lookup finds an index and the action is to write.
-/
theorem takes_resolve (lock : Lock) (lookup : Store G → Option Nat)
    (absent : Reply) (mode : Mode) (act : Nat → Store G → Store G × Reply) (s : Store G) :
    (resolve lock lookup absent mode act).takes (.inner, .write) s
      = ((lookup s).isSome && decide (mode = .write)) := by
  cases hidx : lookup s <;> simp [resolve, hidx, eq_comm]

omit [LawfulGraph G] in
/-- A lookup that no such call disturbs, and an action under the write lock. -/
theorem actsUnder_resolve {lock : Lock} {lookup : Store G → Option Nat}
    (hlookup : ∀ {s s' : Store G}, Retains s s' → lookup s' = lookup s) {absent : Reply}
    {mode : Mode} {act : Nat → Store G → Store G × Reply}
    (hact : ∀ idx, (Proc.critical [(Lock.inner, mode)]
      fun s => ((act idx s).1, .ret (act idx s).2)).ActsUnder (.inner, .write) Retains) :
    (resolve lock lookup absent mode act).ActsUnder (.inner, .write) Retains := by
  refine Proc.actsUnder_look (by simp) (fun s => ?_) (fun s => ?_) fun h => ?_
  · cases lookup s <;> rfl
  · cases lookup s with
    | none => trivial
    | some idx => exact hact idx
  · simp only [hlookup h]
    cases lookup _ <;> rfl

/-- The two edge updates change the store under the write guard of `inner` only. -/
theorem actsUnder_updateEdgeAt (key : String) (missing : GraphError) (data : Dict String) :
    (updateEdgeAt key missing data : Call G).ActsUnder (.inner, .write) Retains := by
  refine actsUnder_resolve (fun h => by rw [h.edgeCache]) fun idx => ?_
  refine Proc.actsUnder_act (by simp) (fun s => ?_) fun s => rfl
  cases hborrow : Graph.edgeWeightMut s.inner idx with
  | none => exact refl s
  | some borrow => exact .edgeWeightMut hborrow _

/-- A lookup never takes that guard, and changes nothing. -/
theorem actsUnder_findNodeByVid (vid : String) :
    (findNodeByVid vid : Call G).ActsUnder (.inner, .write) Retains := by
  refine actsUnder_resolve (fun h => by rw [h.nodeCache]) fun idx => ?_
  refine Proc.actsUnder_look (by simp) (fun s => rfl) (fun s => trivial) fun h => ?_
  simp only [LawfulGraph.nodeWeight_eq, h.nodes]

/-- Every call that writes edge data only acts under that guard. -/
theorem actsUnder_call (hop : op.writesOnlyEdgeData = true) :
    (op.call segment : Call G).ActsUnder (.inner, .write) Retains := by
  cases op with
  | updateEdge edgeVid data => exact actsUnder_updateEdgeAt _ _ data
  | updateEdgeByNode fromVid toVid data => exact actsUnder_updateEdgeAt _ _ data
  | findNodeByVid vid => exact actsUnder_findNodeByVid vid
  | _ => simp [Op.writesOnlyEdgeData] at hop

omit [LawfulGraph G] in
/-- An edge update whose key is cached takes the write lock of the graph. -/
theorem takes_of_edgeUpdate? {key : String} {data : Dict String}
    (hupdate : op.edgeUpdate? segment = some (key, data)) {s : Store G} (hkey : key ∈ s.edgeCache) :
    (op.call segment : Call G).takes (.inner, .write) s = true := by
  obtain ⟨idx, hidx⟩ := Finmap.mem_iff.mp hkey
  cases op with
  | updateEdge edgeVid data' =>
    obtain ⟨rfl, rfl⟩ : edgeVid = key ∧ data' = data := by simpa [Op.edgeUpdate?] using hupdate
    simp [Op.call, updateEdge, updateEdgeAt, resolveEdge, takes_resolve, hidx]
  | updateEdgeByNode fromVid toVid data' =>
    obtain ⟨rfl, rfl⟩ : edgeKey segment fromVid toVid = key ∧ data' = data := by
      simpa [Op.edgeUpdate?] using hupdate
    simp [Op.call, updateEdgeByNode, updateEdgeAt, resolveEdge, takes_resolve, hidx]
  | _ => simp [Op.edgeUpdate?] at hupdate

end Laws

section Interleavings

variable {ι : Type} [DecidableEq ι]

/-- The calls that get the write lock of the graph in a trace, in the order in which they do. -/
def GraphInstance.writers (self : GraphInstance G) (ops : ι → Op) (tr : List (Event ι)) : List ι :=
  takers (self.calls ops) (.inner, .write) (.initial self.store) tr

/-- Two calls that send data to one edge of `s` send it under different data keys. -/
def DataApart (segment : String) (s : Store G) (ops : ι → Op) : Prop :=
  ∀ t u, t ≠ u → ∀ idx, idx < (Graph.rawEdges s.inner).length → ∀ data data',
    (ops t).dataFor segment s idx = some data → (ops u).dataFor segment s idx = some data' →
      data.Disjoint data'

omit [DecidableEq ι] in
/-- Under disjoint data keys, only one call has a value for a data key of an edge. -/
theorem DataApart.unique {s : Store G} {ops : ι → Op} (h : DataApart segment s ops) {idx : Nat}
    (hidx : idx < (Graph.rawEdges s.inner).length) {k : String} {t u : ι}
    (ht : (((ops t).dataFor segment s idx).bind fun new => new.lookup k).isSome)
    (hu : (((ops u).dataFor segment s idx).bind fun new => new.lookup k).isSome) : t = u := by
  by_contra hne
  obtain ⟨v, hv⟩ := Option.isSome_iff_exists.mp ht
  obtain ⟨w, hw⟩ := Option.isSome_iff_exists.mp hu
  obtain ⟨data, hdata, hk⟩ := Option.bind_eq_some_iff.mp hv
  obtain ⟨data', hdata', hk'⟩ := Option.bind_eq_some_iff.mp hw
  exact h t u hne idx hidx data data' hdata hdata' k (Finmap.mem_iff.mpr ⟨v, hk⟩)
    (Finmap.mem_iff.mpr ⟨w, hk'⟩)

variable [LawfulGraph G] {self : GraphInstance G} {ops : ι → Op} {tr tr' : List (Event ι)}
  {c c' : Config ι (Store G) Lock Reply}

/-- The order in which the calls got the write guard of `inner` is one in which they can be run one
after another. -/
theorem lockOrder_writers (hops : ∀ t, (ops t).writesOnlyEdgeData = true)
    (hrun : Run (self.calls ops) self.store tr c) :
    LockOrder (self.calls ops) (.inner, .write) Retains self.store c (self.writers ops tr) :=
  hrun.lockOrder fun t => actsUnder_call (hops t)

/-- An update that has replied and whose key is cached has had the write lock. -/
theorem mem_writers (hops : ∀ t, (ops t).writesOnlyEdgeData = true)
    (hrun : Run (self.calls ops) self.store tr c) {t : ι} (hreplied : (c.phase t).reply?.isSome)
    {key : String} {data : Dict String}
    (hupdate : (ops t).edgeUpdate? self.segment = some (key, data))
    (hkey : key ∈ self.store.edgeCache) : t ∈ self.writers ops tr := by
  by_contra hpassed
  have horder := lockOrder_writers hops hrun
  have hnot := horder.passed t hpassed hreplied c.store (refl c.store)
  rw [GraphInstance.calls, takes_of_edgeUpdate? hupdate (horder.rely_store.edgeCache ▸ hkey)]
    at hnot
  simp at hnot

/-- What an interleaving makes of the data of an edge. -/
theorem exists_data_run_concurrent (hops : ∀ t, (ops t).writesOnlyEdgeData = true)
    (hrun : Run (self.calls ops) self.store tr c) {idx : Nat} {e : Edge EdgeM}
    (he : (Graph.rawEdges self.store.inner)[idx]? = some e) :
    ∃ data, (Graph.rawEdges c.store.inner)[idx]? = some (withData data e) ∧
      ∀ k, data.lookup k = ((self.writers ops tr).reverse.findSome? fun t =>
        ((ops t).dataFor self.segment self.store idx).bind fun new => new.lookup k).or
          (e.weight.data.lookup k) := by
  have horder := lockOrder_writers hops hrun
  have hquiet : ∀ op ∈ (self.writers ops tr).map ops, op.writesOnlyEdgeData = true := by
    intro op hop
    obtain ⟨t, -, rfl⟩ := List.mem_map.mp hop
    exact hops t
  obtain ⟨data, hdata, hlookup⟩ := exists_data_runAll self.segment hquiet he
  refine ⟨data, ?_, fun k => ?_⟩
  · rw [runAll, ← map_calls, horder.store_eq] at hdata
    exact hdata
  · rw [hlookup, ← List.map_reverse, List.findSome?_map]
    rfl

/-- When all calls have replied, the value that an edge gets for a data key is the value of the
one call that sends it. -/
theorem findSome?_writers_iff (hops : ∀ t, (ops t).writesOnlyEdgeData = true)
    (hrun : Run (self.calls ops) self.store tr c) (hall : ∀ t, (c.phase t).reply?.isSome)
    (hapart : DataApart self.segment self.store ops) {idx : Nat}
    (hidx : idx < (Graph.rawEdges self.store.inner).length) {k v : String} :
    ((self.writers ops tr).reverse.findSome? fun t =>
      ((ops t).dataFor self.segment self.store idx).bind fun new => new.lookup k) = some v ↔
    ∃ t, (((ops t).dataFor self.segment self.store idx).bind fun new => new.lookup k) = some v := by
  rw [findSome?_eq_some_iff_exists fun t _ u _ ht hu => hapart.unique hidx ht hu]
  refine exists_congr fun t => and_iff_right_of_imp fun hv => ?_
  obtain ⟨data, hdata, -⟩ := Option.bind_eq_some_iff.mp hv
  obtain ⟨⟨key, data'⟩, hupdate, hresolves⟩ := Option.bind_eq_some_iff.mp hdata
  have hkey : key ∈ self.store.edgeCache := by
    by_contra hnot
    simp [Finmap.lookup_eq_none.mpr hnot] at hresolves
  exact List.mem_reverse.mpr (mem_writers hops hrun (hall t) hupdate hkey)

/-- Under disjoint data keys two finished interleavings leave the same edges. -/
theorem rawEdges_eq_of_apart (hops : ∀ t, (ops t).writesOnlyEdgeData = true)
    (hapart : DataApart self.segment self.store ops)
    (hrun : Run (self.calls ops) self.store tr c) (hall : ∀ t, (c.phase t).reply?.isSome)
    (hrun' : Run (self.calls ops) self.store tr' c') (hall' : ∀ t, (c'.phase t).reply?.isSome) :
    Graph.rawEdges c.store.inner = Graph.rawEdges c'.store.inner := by
  refine List.ext_getElem? fun idx => ?_
  cases he : (Graph.rawEdges self.store.inner)[idx]? with
  | none =>
    rw [(lockOrder_writers hops hrun).rely_store.getElem?_eq_none he,
      (lockOrder_writers hops hrun').rely_store.getElem?_eq_none he]
  | some e =>
    have hidx := (List.getElem?_eq_some_iff.mp he).1
    obtain ⟨data, hdata, hlookup⟩ := exists_data_run_concurrent hops hrun he
    obtain ⟨data', hdata', hlookup'⟩ := exists_data_run_concurrent hops hrun' he
    -- in both runs the value of a data key comes from the one call that has it
    have hsame : data = data' := by
      refine Finmap.ext_lookup fun k => ?_
      rw [hlookup, hlookup']
      congr 1
      refine Option.ext fun v => ?_
      rw [findSome?_writers_iff hops hrun hall hapart hidx,
        findSome?_writers_iff hops hrun' hall' hapart hidx]
    rw [hdata, hdata', hsame]

/-- A reply is the one the call would give alone in the store that all began in. -/
theorem reply_eq_alone (hops : ∀ t, (ops t).writesOnlyEdgeData = true)
    (hrun : Run (self.calls ops) self.store tr c) {t : ι} (hreplied : (c.phase t).reply?.isSome) :
    (c.phase t).reply? = some ((ops t).run self.segment self.store).2 := by
  obtain ⟨r, hr⟩ := Option.isSome_iff_exists.mp hreplied
  obtain ⟨s', hretains, hreply⟩ := (lockOrder_writers hops hrun).reply_eq t r hr
  rw [hr, ← hreply]
  exact congrArg some (hretains.reply_eq (hops t))

/-- **Concurrent edge updates lose nothing.** From any state of an instance and for every
interleaving of edge updates, with lookups among them: an update that has replied and whose edge
key is cached has had the write lock; each data key of each edge has the value that the last call
to get the write lock sent there, or its old value if no call did; and nothing else has changed.
If the calls that send data to one edge use disjoint data keys, the interleaving does not matter:
two that are finished have the same graph and the same replies. -/
theorem edge_updates_lose_nothing (self : GraphInstance G) {ops : ι → Op}
    (hops : ∀ t, (ops t).writesOnlyEdgeData = true) {tr : List (Event ι)}
    {c : Config ι (Store G) Lock Reply} (hrun : Run (self.calls ops) self.store tr c) :
    ((self.writers ops tr).Nodup ∧ ∀ t key data, (c.phase t).reply?.isSome →
      (ops t).edgeUpdate? self.segment = some (key, data) → key ∈ self.store.edgeCache →
      t ∈ self.writers ops tr) ∧
    (∀ idx e, (Graph.rawEdges self.store.inner)[idx]? = some e →
      ∃ data, (Graph.rawEdges c.store.inner)[idx]? = some (withData data e) ∧
        ∀ k, data.lookup k = ((self.writers ops tr).reverse.findSome? fun t =>
          ((ops t).dataFor self.segment self.store idx).bind fun new => new.lookup k).or
            (e.weight.data.lookup k)) ∧
    ((Graph.rawEdges c.store.inner).length = (Graph.rawEdges self.store.inner).length ∧
      Graph.rawNodes c.store.inner = Graph.rawNodes self.store.inner ∧
      c.store.nodeCache = self.store.nodeCache ∧ c.store.edgeCache = self.store.edgeCache) ∧
    (DataApart self.segment self.store ops → (∀ t, (c.phase t).reply?.isSome) →
      ∀ tr' c', Run (self.calls ops) self.store tr' c' → (∀ t, (c'.phase t).reply?.isSome) →
        Graph.rawEdges c.store.inner = Graph.rawEdges c'.store.inner ∧
        Graph.rawNodes c.store.inner = Graph.rawNodes c'.store.inner ∧
        ∀ t, (c.phase t).reply? = (c'.phase t).reply?) := by
  have horder := lockOrder_writers hops hrun
  have hretains := horder.rely_store
  refine ⟨⟨horder.nodup, ?_⟩, fun idx e he => exists_data_run_concurrent hops hrun he,
    ⟨hretains.length_eq, hretains.nodes, hretains.nodeCache, hretains.edgeCache⟩, ?_⟩
  · intro t key data hreplied hupdate hkey
    exact mem_writers hops hrun hreplied hupdate hkey
  -- with disjoint data keys, neither edges nor replies depend on the order
  · intro hapart hall tr' c' hrun' hall'
    have hretains' := (lockOrder_writers hops hrun').rely_store
    refine ⟨rawEdges_eq_of_apart hops hapart hrun hall hrun' hall',
      hretains.nodes.trans hretains'.nodes.symm, fun t => ?_⟩
    rw [reply_eq_alone hops hrun (hall t), reply_eq_alone hops hrun' (hall' t)]

/-- Two callers on one edge, which they reach by different edge keys. -/
inductive Updater where
  | byKey
  | byNode
  deriving DecidableEq

/-- After the removal of `"a_b"` the key `"b_c"` resolves to the edge added last. -/
def aliased : GraphInstance (ListGraph true NodeM EdgeM) where
  segment := "_"
  store := (GraphInstance.blank.runAll [.addNode ⟨"a", ∅⟩, .addNode ⟨"b", ∅⟩, .addNode ⟨"c", ∅⟩,
    .addEdge "a" "b" ⟨1, "a", "b", ∅⟩, .addEdge "b" "c" ⟨2, "b", "c", ∅⟩, .removeEdge "a_b",
    .addEdge "c" "a" ⟨3, "c", "a", ∅⟩]).1

def updating : Updater → Op
  | .byKey => .updateEdge "b_c" (.singleton "x" "1")
  | .byNode => .updateEdgeByNode "c" "a" (.singleton "y" "2")

/-- The two calls use different data keys. -/
theorem updating_apart : DataApart "_" aliased.store updating := by
  have hkey : ∀ idx data k, (updating .byKey).dataFor "_" aliased.store idx = some data →
      k ∈ data → k = "x" := by
    simp +contextual [updating, Op.dataFor, Op.edgeUpdate?, eq_comm]
  have hnode : ∀ idx data k, (updating .byNode).dataFor "_" aliased.store idx = some data →
      k ∈ data → k = "y" := by
    simp +contextual [updating, Op.dataFor, Op.edgeUpdate?, eq_comm]
  intro t u hne idx _ data data' hdata hdata' k hk hk'
  have hxy : "x" ≠ "y" := by decide
  cases t <;> cases u
  · exact hne rfl
  · exact hxy ((hkey idx data k hdata hk).symm.trans (hnode idx data' k hdata' hk'))
  · exact hxy ((hkey idx data' k hdata' hk').symm.trans (hnode idx data k hdata hk))
  · exact hne rfl

/-- The two calls get the write lock in either order. -/
theorem edge_updates_lose_nothing_aliased :
    ∃ c c', Run (aliased.calls updating) aliased.store
        [.begin .byKey, .begin .byNode, .enter .byKey, .enter .byNode, .enter .byNode,
          .enter .byKey] c ∧
      Run (aliased.calls updating) aliased.store
        [.begin .byKey, .enter .byKey, .enter .byKey, .begin .byNode, .enter .byNode,
          .enter .byNode] c' ∧
      aliased.writers updating [.begin .byKey, .begin .byNode, .enter .byKey, .enter .byNode,
        .enter .byNode, .enter .byKey] = [.byNode, .byKey] ∧
      Graph.rawEdges c.store.inner = Graph.rawEdges c'.store.inner := by
  have hops : ∀ t, (updating t).writesOnlyEdgeData = true := fun t => by cases t <;> rfl
  have hrun : ∃ c, Run (aliased.calls updating) aliased.store [.begin .byKey, .begin .byNode,
      .enter .byKey, .enter .byNode, .enter .byNode, .enter .byKey] c ∧
      ∀ t, (c.phase t).reply?.isSome := ⟨_, Run.of_replay rfl, fun t => by cases t <;> rfl⟩
  have hrun' : ∃ c, Run (aliased.calls updating) aliased.store [.begin .byKey, .enter .byKey,
      .enter .byKey, .begin .byNode, .enter .byNode, .enter .byNode] c ∧
      ∀ t, (c.phase t).reply?.isSome := ⟨_, Run.of_replay rfl, fun t => by cases t <;> rfl⟩
  obtain ⟨c, hrun, hall⟩ := hrun
  obtain ⟨c', hrun', hall'⟩ := hrun'
  have hsame := (edge_updates_lose_nothing aliased hops hrun).2.2.2 updating_apart hall _ c' hrun'
    hall'
  exact ⟨c, c', hrun, hrun', rfl, hsame.1⟩

end Interleavings

end MemoryGraph
