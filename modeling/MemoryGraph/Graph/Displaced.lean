import MemoryGraph.Conc.Between
import MemoryGraph.Graph.Concurrent
import MemoryGraph.Graph.Known
import MemoryGraph.Graph.Removal

/-!
# MemoryGraph — which vids removals lose

`remove_node` moves the last node of the array into the place that becomes free and leaves
`node_cache` alone. A cached vid is **found** while its entry holds its own node
(`Store.Resolves`). The vids that one removal takes from their cached places are the one at the
removed index and the one at the last index (`Store.displaced`).

* **`Drifting`** — the invariant: nodes move towards the front only, so an index in
  `node_cache` is never behind the place of its node;
* **`found_iff_never_displaced`** — between two points of an interleaving a cached vid stays
  found exactly when no call in between displaces it, and one that is lost stays lost;
* **`lost_at_most_twice_removals`** — each `remove_node` call costs two vids at most.
-/

namespace MemoryGraph

open Conc Petgraph

variable {G : Type} [Graph G NodeM EdgeM] {segment : String}

/-- The vids that the call takes from their cached places. -/
def Store.displaced (s : Store G) : Op → List String
  | .removeNode vid =>
    match s.nodeCache.lookup vid with
    | some idx =>
      if idx < s.vids.length then s.vids[idx]?.toList ++ s.vids[s.vids.length - 1]?.toList else []
    | none => []
  | _ => []

/-- A removal displaces the vid at the cached index, which is taken out, and the vid at the last
index, which is moved there. -/
theorem Store.mem_displaced {s : Store G} {op : Op} {vid : String} :
    vid ∈ s.displaced op ↔ ∃ vid' idx, op = .removeNode vid' ∧
      s.nodeCache.lookup vid' = some idx ∧ idx < s.vids.length ∧
        (s.vids[idx]? = some vid ∨ s.vids[s.vids.length - 1]? = some vid) := by
  cases op with
  | removeNode vid' =>
    rw [Store.displaced]
    cases hidx : s.nodeCache.lookup vid' with
    | none => simp [hidx]
    | some idx =>
      by_cases hlt : idx < s.vids.length
      · simp [hidx, hlt, eq_comm]
      · simp [hidx, hlt]
  | _ => simp [Store.displaced]

/-- A vid is found exactly if its cached index is that of a node with this vid. -/
theorem Store.resolves_iff_exists {s : Store G} {vid : String} :
    s.Resolves vid ↔ ∃ idx, s.nodeCache.lookup vid = some idx ∧ s.vids[idx]? = some vid := by
  cases hidx : s.nodeCache.lookup vid with
  | none => simp [Store.Resolves, Store.node?, hidx]
  | some idx => simp [Store.resolves_iff hidx]

/-- Vids are distinct and cached, and no node is behind its cached index. -/
structure Drifting (s : Store G) : Prop extends Distinct s where
  behind : ∀ {vid i idx}, s.vids[i]? = some vid → s.nodeCache.lookup vid = some idx → i ≤ idx

/-- The vids found after the call: those found before that it does not displace, and the vid that it
has added. -/
def FoundAfter (s : Store G) (op : Op) (s' : Store G) : Prop :=
  ∀ vid, s'.Resolves vid ↔
    (s.Resolves vid ∧ vid ∉ s.displaced op) ∨ (op.addsVid? = some vid ∧ vid ∉ s.nodeCache)

/-- Calls that neither add nor remove a node leave the vids where they are. -/
theorem Change.vids_eq [LawfulGraph G] {s s' : Store G} {op : Op} (hchange : Change segment s op s')
    (hadds : op.addsVid? = none) (hremove : ∀ vid, op ≠ .removeNode vid) : s'.vids = s.vids := by
  cases hchange with
  | same => rfl
  | nodeAdded hop _ => simp [hop, Op.addsVid?] at hadds
  | nodeUpdated _ _ hborrow => exact vids_nodeWeightMut hborrow rfl
  | nodeRemoved hop _ => exact absurd hop (hremove _)
  | edgeAdded _ _ _ _ hadd =>
    obtain ⟨-, -, -, hnodes, -⟩ := LawfulGraph.addEdge_eq_some hadd
    simp [Store.vids, hnodes]
  | edgeUpdated _ _ hborrow => exact vids_edgeWeightMut hborrow _
  | edgeRemoved _ _ => simp [Store.vids, LawfulGraph.rawNodes_removeEdge]

namespace Drifting

theorem empty {g : G} (h : Graph.IsEmpty g) : Drifting (⟨g, ∅, ∅⟩ : Store G) where
  toDistinct := .empty h
  behind hvid := by simp [Store.vids, h.1] at hvid

variable {s s' : Store G}

/-- Only the vids and `node_cache` matter. -/
theorem congr (h : Drifting s) (hvids : s'.vids = s.vids) (hnode : s'.nodeCache = s.nodeCache) :
    Drifting s' where
  toDistinct := h.toDistinct.congr hvids hnode
  behind := by rw [hvids, hnode]; exact h.behind

/-- Whether a vid is found depends on the vids of the graph and on `node_cache`. -/
theorem resolves_congr (hvids : s'.vids = s.vids) (hnode : s'.nodeCache = s.nodeCache)
    {vid : String} : s'.Resolves vid ↔ s.Resolves vid := by
  rw [Store.resolves_iff_exists, Store.resolves_iff_exists, hvids, hnode]

/-- A removal at an index in range: the last vid moves there, and the two are lost. -/
theorem swap (h : Drifting s) {a : Nat} (ha : a < s.vids.length)
    (hvids : s'.vids = swapRemove s.vids a) (hnode : s'.nodeCache = s.nodeCache) :
    (∀ {vid i idx}, s'.vids[i]? = some vid → s'.nodeCache.lookup vid = some idx → i ≤ idx) ∧
    ∀ vid, s'.Resolves vid ↔ s.Resolves vid ∧ s.vids[a]? ≠ some vid ∧
      s.vids[s.vids.length - 1]? ≠ some vid := by
  constructor
  · intro vid i idx hi hidx
    rw [hvids, getElem?_swapRemove ha] at hi
    rw [hnode] at hidx
    obtain ⟨hlt, hi⟩ := hi
    split at hi
    -- the moved node was at the last index, which its entry has not passed
    · have := h.behind hi hidx
      omega
    · exact h.behind hi hidx
  · intro vid
    rw [Store.resolves_iff_exists, Store.resolves_iff_exists, hvids, hnode]
    constructor
    · rintro ⟨idx, hidx, hat⟩
      obtain ⟨hlt, hat⟩ := (getElem?_swapRemove ha).mp hat
      split at hat
      · have := h.behind hat hidx
        omega
      · rename_i hne
        refine ⟨⟨idx, hidx, hat⟩, fun hat' => hne ?_, fun hat' => ?_⟩
        · exact (h.toDistinct.getElem?_iff hat' idx).mp hat
        · have := (h.toDistinct.getElem?_iff hat' idx).mp hat
          omega
    · rintro ⟨⟨idx, hidx, hat⟩, hplace, hlast⟩
      have hlt := (List.getElem?_eq_some_iff.mp hat).1
      have hne : idx ≠ a := by rintro rfl; exact hplace hat
      have hne' : idx ≠ s.vids.length - 1 := by rintro rfl; exact hlast hat
      exact ⟨idx, hidx, (getElem?_swapRemove ha).mpr ⟨by omega, by rwa [if_neg hne]⟩⟩

/-- A fresh vid goes behind all nodes, and is found there. -/
theorem append (h : Drifting s) {vid : String} (hfresh : vid ∉ s.nodeCache)
    (hvids : s'.vids = s.vids ++ [vid])
    (hnode : s'.nodeCache = s.nodeCache.insert vid s.vids.length) :
    (∀ {vid' i idx}, s'.vids[i]? = some vid' → s'.nodeCache.lookup vid' = some idx → i ≤ idx) ∧
    ∀ vid', s'.Resolves vid' ↔ s.Resolves vid' ∨ vid' = vid := by
  -- other vids keep their places and their entries
  have hplace : ∀ {vid'} {i : Nat}, vid' ≠ vid →
      (s'.vids[i]? = some vid' ↔ s.vids[i]? = some vid') := by
    intro vid' i hne
    rw [hvids, List.getElem?_append]
    split
    · rfl
    · rw [List.getElem?_singleton, List.getElem?_eq_none (by omega)]
      split <;> simp [hne.symm]
  have hlookup : ∀ {vid' idx}, vid' ≠ vid →
      (s'.nodeCache.lookup vid' = some idx ↔ s.nodeCache.lookup vid' = some idx) :=
    fun hne => by rw [hnode, Finmap.lookup_insert_of_ne _ hne]
  constructor
  · intro vid' i idx hi hidx
    rcases eq_or_ne vid' vid with rfl | hne
    · rw [hnode, Finmap.lookup_insert, Option.some.injEq] at hidx
      have hlt := (List.getElem?_eq_some_iff.mp hi).1
      rw [hvids, List.length_append, List.length_singleton] at hlt
      omega
    · exact h.behind ((hplace hne).mp hi) ((hlookup hne).mp hidx)
  · intro vid'
    rcases eq_or_ne vid' vid with rfl | hne
    · refine iff_of_true ?_ (Or.inr rfl)
      exact Store.resolves_iff_exists.mpr ⟨s.vids.length, by rw [hnode, Finmap.lookup_insert],
        by rw [hvids, List.getElem?_concat_length]⟩
    · rw [Store.resolves_iff_exists, Store.resolves_iff_exists, or_iff_left hne]
      exact exists_congr fun idx => and_congr (hlookup hne) (hplace hne)

variable [LawfulGraph G]

/-- A stale index out of range: nothing is removed. -/
theorem run_removeNode_out_of_range {vid : String} {a : Nat}
    (hidx : s.nodeCache.lookup vid = some a) (ha : s.vids.length ≤ a) :
    ((Op.removeNode vid).run segment s).1 = s := by
  have hlen : (Graph.rawNodes s.inner).length ≤ a := by simpa [Store.vids] using ha
  rw [run_removeNode, hidx]
  change ({ s with inner := (Graph.removeNode s.inner a).2 } : Store G) = s
  rw [LawfulGraph.removeNode_out_of_range hlen]

/-- A new node comes at the end, where the cache says it is. -/
theorem run_addNode (h : Drifting s) (node : NodeM) :
    Drifting ((Op.addNode node).run segment s).1 ∧
      FoundAfter s (.addNode node) ((Op.addNode node).run segment s).1 := by
  have hdistinct : Distinct ((Op.addNode node).run segment s).1 := h.toDistinct.step _
  rw [MemoryGraph.run_addNode] at hdistinct ⊢
  -- a cached vid is refused, and no vid is displaced or found anew
  by_cases hcached : node.vid ∈ s.nodeCache
  · rw [if_pos hcached]
    refine ⟨h, fun vid => ?_⟩
    have hnot : ¬ (node.vid = vid ∧ vid ∉ s.nodeCache) := by
      rintro ⟨rfl, hfresh⟩
      exact hfresh hcached
    simp [Store.displaced, Op.addsVid?, hnot]
  · rw [if_neg hcached] at hdistinct ⊢
    have hvids : ({ s with
        inner := (Graph.addNode s.inner node).2
        nodeCache := s.nodeCache.insert node.vid (Graph.addNode s.inner node).1 } :
          Store G).vids = s.vids ++ [node.vid] := by
      simp [Store.vids, LawfulGraph.rawNodes_addNode]
    obtain ⟨hbehind, hfound⟩ := h.append hcached hvids
      (by simp [LawfulGraph.addNode_index, Store.vids])
    refine ⟨⟨hdistinct, hbehind⟩, fun vid => (hfound vid).trans ?_⟩
    have hadded : vid = node.vid ↔ node.vid = vid ∧ vid ∉ s.nodeCache := by
      constructor
      · rintro rfl
        exact ⟨rfl, hcached⟩
      · exact fun hvid => hvid.1.symm
    simp [Store.displaced, Op.addsVid?, hadded]

/-- A removal moves the last node to the index that was hit, so it moves to the front of where the
cache has it. -/
theorem run_removeNode (h : Drifting s) (vid : String) :
    Drifting ((Op.removeNode vid).run segment s).1 ∧
      FoundAfter s (.removeNode vid) ((Op.removeNode vid).run segment s).1 := by
  cases hidx : s.nodeCache.lookup vid with
  | none =>
    rw [MemoryGraph.run_removeNode, hidx]
    exact ⟨h, fun vid' => by simp [Store.displaced, hidx, Op.addsVid?]⟩
  | some a =>
    rcases Nat.lt_or_ge a s.vids.length with ha | ha
    · have hdistinct : Distinct ((Op.removeNode vid).run segment s).1 := h.toDistinct.step _
      rw [MemoryGraph.run_removeNode, hidx] at hdistinct ⊢
      have hlt : a < (Graph.rawNodes s.inner).length := by simpa [Store.vids] using ha
      have hvids : ({ s with inner := (Graph.removeNode s.inner a).2 } : Store G).vids
          = swapRemove s.vids a := by
        rw [Store.vids, LawfulGraph.rawNodes_removeNode hlt, map_swapRemove, Store.vids]
      obtain ⟨hbehind, hfound⟩ := h.swap ha hvids rfl
      refine ⟨⟨hdistinct, hbehind⟩, fun vid' => (hfound vid').trans ?_⟩
      simp [Store.mem_displaced, hidx, ha, Op.addsVid?, not_or]
    · rw [run_removeNode_out_of_range hidx ha]
      exact ⟨h, fun vid' => by simp [Store.mem_displaced, hidx, Nat.not_lt.mpr ha, Op.addsVid?]⟩

/-- The other calls leave the vids and `node_cache` alone. -/
theorem run_other (h : Drifting s) {op : Op} (hadds : op.addsVid? = none)
    (hremove : ∀ vid, op ≠ .removeNode vid) :
    Drifting (op.run segment s).1 ∧ FoundAfter s op (op.run segment s).1 := by
  have hchange : Change segment s op (op.run segment s).1 := run_change op s
  have hvids := hchange.vids_eq hadds hremove
  have hnode := hchange.nodeCache_eq hadds
  refine ⟨h.congr hvids hnode, fun vid => (resolves_congr hvids hnode).trans ?_⟩
  simp [hadds, Store.mem_displaced, hremove]

/-- **Step.** After a call, the vids found are those found before that the call does not
displace, and the vid it has added. -/
theorem run (h : Drifting s) (op : Op) :
    Drifting (op.run segment s).1 ∧ FoundAfter s op (op.run segment s).1 := by
  cases op with
  | addNode node => exact h.run_addNode node
  | removeNode vid => exact h.run_removeNode vid
  | _ => exact h.run_other rfl (by simp)

theorem runAll (h : Drifting s) (ops : List Op) : Drifting (MemoryGraph.runAll segment ops s).1 :=
  runAll_induction h fun op _ _ hs' => (hs'.run op).1

end Drifting

/-! ## Runs -/

/-- No call of the sequence, run from `s`, displaces the vid. -/
def NeverDisplaced (segment : String) (s : Store G) (ops : List Op) (vid : String) : Prop :=
  ∀ pre op post, ops = pre ++ op :: post → vid ∉ (runAll segment pre s).1.displaced op

/-- A sequence displaces nothing if its first call does not, and the rest does not from there on. -/
theorem neverDisplaced_cons {s : Store G} {op : Op} {ops : List Op} {vid : String} :
    NeverDisplaced segment s (op :: ops) vid ↔
      vid ∉ s.displaced op ∧ NeverDisplaced segment (op.run segment s).1 ops vid := by
  constructor
  · intro h
    exact ⟨h [] op ops rfl, fun pre op' post heq => h (op :: pre) op' post (by rw [heq]; rfl)⟩
  · rintro ⟨hhead, htail⟩ pre op' post heq
    rcases List.cons_eq_append_iff.mp heq with ⟨rfl, hcons⟩ | ⟨pre', rfl, hops⟩
    · obtain ⟨rfl, rfl⟩ := List.cons.inj hcons
      exact hhead
    · exact htail pre' op' post hops

section Laws

variable [LawfulGraph G]

/-- **Run.** A cached vid is found after a sequence of calls exactly when it was found before and
no call has displaced it. -/
theorem Drifting.resolves_runAll_iff {s : Store G} (h : Drifting s) {vid : String}
    (hcached : vid ∈ s.nodeCache) (ops : List Op) :
    (MemoryGraph.runAll segment ops s).1.Resolves vid ↔
      s.Resolves vid ∧ NeverDisplaced segment s ops vid := by
  induction ops generalizing s with
  | nil => exact (and_iff_left fun pre op post heq => by simp at heq).symm
  | cons op ops ih =>
    have hstep : Drifting (op.run segment s).1 ∧ FoundAfter s op (op.run segment s).1 := h.run op
    obtain ⟨hdrift, hfound⟩ := hstep
    have hrest := ih hdrift ((run_extends op s).mem_node hcached)
    have hadds : ¬ (op.addsVid? = some vid ∧ vid ∉ s.nodeCache) := fun hadds => hadds.2 hcached
    rw [hfound vid, or_iff_left hadds, and_assoc, ← neverDisplaced_cons] at hrest
    exact hrest

omit [LawfulGraph G] in
/-- A later store of an interleaving is the earlier one after the calls that have got their replies
in between, each run once. -/
theorem exists_calls_between {ι : Type} [DecidableEq ι] {self : GraphInstance G} {ops : ι → Op}
    {tr evs : List (Event ι)} {c c' : Config ι (Store G) Lock Reply}
    (hrun : Run (self.calls ops) self.store tr c)
    (hreplay : evs.foldlM (Config.next? (self.calls ops)) c = some c') :
    ∃ order : List ι, order.Nodup ∧
      (∀ t, t ∈ order ↔ (c.phase t).reply? = none ∧ (c'.phase t).reply?.isSome) ∧
      (∀ a b, ReturnedBefore (tr ++ evs) a b → a ∈ order → b ∈ order → [a, b].Sublist order) ∧
      (runAll self.segment (order.map ops) c.store).1 = c'.store := by
  obtain ⟨order, hnodup, hmem, hreal, hstore⟩ :=
    hrun.linearizable_between (fun t => commits_call (ops t)) hreplay
  exact ⟨order, hnodup, hmem, hreal, by rw [runAll, ← map_calls]; exact hstore⟩

/-- **Lost vids.** On a new instance over an empty graph, between any two points of an interleaving
of the nine operations, the calls that get their replies in between can be put in an order, each
of them once and consistent with real time, which leads from the earlier store to the later one,
such that a vid cached at the earlier point is found at the later one exactly when it was found
at the earlier one and no call of the order displaces it. -/
theorem found_iff_never_displaced {ι : Type} [DecidableEq ι] (nodeCap edgeCap : Nat) {g : G}
    (hg : Graph.IsEmpty g) {ops : ι → Op} {tr evs : List (Event ι)}
    {c c' : Config ι (Store G) Lock Reply}
    (hrun : Run ((GraphInstance.new nodeCap edgeCap g).calls ops)
      (GraphInstance.new nodeCap edgeCap g).store tr c)
    (hreplay : evs.foldlM (Config.next? ((GraphInstance.new nodeCap edgeCap g).calls ops)) c
      = some c') :
    ∃ order : List ι, order.Nodup ∧
      (∀ t, t ∈ order ↔ (c.phase t).reply? = none ∧ (c'.phase t).reply?.isSome) ∧
      (∀ a b, ReturnedBefore (tr ++ evs) a b → a ∈ order → b ∈ order → [a, b].Sublist order) ∧
      (runAll "_" (order.map ops) c.store).1 = c'.store ∧
      ∀ vid ∈ c.store.nodeCache, (c'.store.Resolves vid ↔
        c.store.Resolves vid ∧ NeverDisplaced "_" c.store (order.map ops) vid) := by
  have hdrift : Drifting c.store :=
    store_induction hrun fun order => (Drifting.empty hg).runAll (order.map ops)
  obtain ⟨order, hnodup, hmem, hreal, hstore⟩ := exists_calls_between hrun hreplay
  refine ⟨order, hnodup, hmem, hreal, hstore, fun vid hcached => ?_⟩
  rw [← hstore]
  exact hdrift.resolves_runAll_iff hcached (order.map ops)

/-! ## How many vids are lost -/

instance (s : Store G) (vid : String) : Decidable (s.Resolves vid) :=
  inferInstanceAs (Decidable ((s.node? vid).map NodeM.vid = some vid))

/-- The cached vids that are not found. -/
def Store.lost (s : Store G) : Finset String := s.nodeCache.keys.filter fun vid => ¬ s.Resolves vid

omit [LawfulGraph G] in
theorem Store.mem_lost {s : Store G} {vid : String} :
    vid ∈ s.lost ↔ vid ∈ s.nodeCache ∧ ¬ s.Resolves vid := by
  rw [Store.lost, Finset.mem_filter, Finmap.mem_keys]

def Op.removesNode : Op → Bool
  | .removeNode _ => true
  | _ => false

omit [LawfulGraph G] in
/-- Only `remove_node` displaces vids, and two at most. -/
theorem Store.length_displaced (s : Store G) (op : Op) :
    (s.displaced op).length ≤ if op.removesNode then 2 else 0 := by
  have htoList : ∀ o : Option String, o.toList.length ≤ 1 := fun o => by cases o <;> simp
  cases op with
  | removeNode vid =>
    rw [Store.displaced, Op.removesNode, if_pos rfl]
    cases s.nodeCache.lookup vid with
    | none => simp
    | some idx =>
      dsimp only
      split
      · rw [List.length_append]
        have h₁ := htoList s.vids[idx]?
        have h₂ := htoList s.vids[s.vids.length - 1]?
        omega
      · simp
  | _ => simp [Store.displaced]

/-- A call loses the vids it displaces, and no others. -/
theorem Drifting.card_lost_run {s : Store G} (h : Drifting s) (op : Op) :
    (op.run segment s).1.lost.card ≤ s.lost.card + if op.removesNode then 2 else 0 := by
  have hsub : (op.run segment s).1.lost ⊆ s.lost ∪ (s.displaced op).toFinset := by
    intro vid hvid
    obtain ⟨hcached, hlost⟩ := Store.mem_lost.mp hvid
    rw [(h.run op).2, not_or, not_and_or, not_not] at hlost
    rw [Finset.mem_union, List.mem_toFinset, Store.mem_lost]
    have hold : vid ∈ s.nodeCache := by
      rcases (mem_nodeCache_run_iff op s).mp hcached with hold | hadds
      · exact hold
      · by_contra hfresh
        exact hlost.2 ⟨hadds, hfresh⟩
    exact hlost.1.imp (fun hnot => ⟨hold, hnot⟩) id
  calc (op.run segment s).1.lost.card
      ≤ (s.lost ∪ (s.displaced op).toFinset).card := Finset.card_le_card hsub
    _ ≤ s.lost.card + (s.displaced op).toFinset.card := Finset.card_union_le _ _
    _ ≤ s.lost.card + (s.displaced op).length := by
      exact Nat.add_le_add_left (List.toFinset_card_le _) _
    _ ≤ s.lost.card + if op.removesNode then 2 else 0 :=
      Nat.add_le_add_left (s.length_displaced op) _

/-- The two vids that each removal displaces are all that a sequence can lose. -/
theorem Drifting.card_lost_runAll {s : Store G} (h : Drifting s) (ops : List Op) :
    (MemoryGraph.runAll segment ops s).1.lost.card
      ≤ s.lost.card + 2 * ops.countP Op.removesNode := by
  induction ops generalizing s with
  | nil => simp [MemoryGraph.runAll]
  | cons op ops ih =>
    have hdrift : Drifting (op.run segment s).1 := (h.run op).1
    have hrest := ih hdrift
    have hhead : (op.run segment s).1.lost.card ≤ _ := h.card_lost_run op
    rw [List.countP_cons]
    change (MemoryGraph.runAll segment ops (op.run segment s).1).1.lost.card ≤ _
    cases hremoves : op.removesNode <;> simp [hremoves] at hhead ⊢ <;> omega

/-- **Each removal loses two vids at most.** On a new instance over an empty graph, in every state
of an interleaving of the nine operations, the cached vids that are not found are at most twice
as many as the `remove_node` calls. -/
theorem lost_at_most_twice_removals {ι : Type} [DecidableEq ι] (nodeCap edgeCap : Nat) {g : G}
    (hg : Graph.IsEmpty g) {ops : ι → Op} {removals : Finset ι}
    (hremovals : ∀ t, (ops t).removesNode = true → t ∈ removals) {tr : List (Event ι)}
    {c : Config ι (Store G) Lock Reply}
    (hrun : Run ((GraphInstance.new nodeCap edgeCap g).calls ops)
      (GraphInstance.new nodeCap edgeCap g).store tr c) :
    c.store.lost.card ≤ 2 * removals.card := by
  obtain ⟨order, hlin⟩ := exists_linearization hrun
  have hempty : (⟨g, ∅, ∅⟩ : Store G).lost = ∅ :=
    Finset.eq_empty_of_forall_notMem fun vid hvid =>
      Finmap.notMem_empty (Store.mem_lost.mp hvid).1
  have hlost : (runAll "_" (order.map ops) (⟨g, ∅, ∅⟩ : Store G)).1.lost.card ≤ _ :=
    (Drifting.empty hg).card_lost_runAll (order.map ops)
  rw [hempty, Finset.card_empty, Nat.zero_add, List.countP_map, List.countP_eq_length_filter,
    ← List.toFinset_card_of_nodup (hlin.nodup.filter _)] at hlost
  rw [← store_eq_runAll hlin]
  refine hlost.trans (Nat.mul_le_mul_left 2 (Finset.card_le_card fun t ht => hremovals t ?_))
  simpa using (List.mem_filter.mp (List.mem_toFinset.mp ht)).2

end Laws

/-- Three vids are added, and then the first of them is removed. -/
def displacing : Fin 4 → Op
  | 0 => .addNode ⟨"a", ∅⟩
  | 1 => .addNode ⟨"b", ∅⟩
  | 2 => .addNode ⟨"c", ∅⟩
  | 3 => .removeNode "a"

def displacingTrace : List (Event (Fin 4)) :=
  [.begin 0, .enter 0, .enter 0, .begin 1, .enter 1, .enter 1, .begin 2, .enter 2, .enter 2,
    .begin 3, .enter 3]

/-- The removal of `"a"` leaves `"b"` found and displaces `"c"`. -/
theorem displacing_found_iff : ∃ c c', Run (GraphInstance.blank.calls displacing)
    GraphInstance.blank.store displacingTrace c ∧
    [Event.enter 3].foldlM (Config.next? (GraphInstance.blank.calls displacing)) c = some c' ∧
    ∃ order : List (Fin 4), order = [3] ∧
      (runAll "_" (order.map displacing) c.store).1 = c'.store ∧
      NeverDisplaced "_" c.store (order.map displacing) "b" ∧
      ¬ NeverDisplaced "_" c.store (order.map displacing) "c" := by
  have hrun : ∃ c c', Run (GraphInstance.blank.calls displacing) GraphInstance.blank.store
      displacingTrace c ∧
      [Event.enter 3].foldlM (Config.next? (GraphInstance.blank.calls displacing)) c = some c' ∧
      (∀ t, (c.phase t).reply? = none ∧ (c'.phase t).reply?.isSome ↔ t = 3) ∧
      (c.store.Resolves "c" ∧ "b" ∈ c.store.nodeCache ∧ "c" ∈ c.store.nodeCache) ∧
      c'.store.Resolves "b" ∧ ¬ c'.store.Resolves "c" :=
    ⟨_, _, Run.of_replay rfl, rfl, by decide, ⟨rfl, by decide, by decide⟩, rfl, by decide⟩
  obtain ⟨c, c', hrun, hreplay, hbetween, ⟨hold, hb, hc⟩, hfound, hlost⟩ := hrun
  obtain ⟨order, hnodup, hmem, -, hstore, hiff⟩ :=
    found_iff_never_displaced 0 0 ⟨rfl, rfl⟩ hrun hreplay
  have honly : order = [3] :=
    List.perm_singleton.mp ((List.perm_ext_iff_of_nodup hnodup (List.nodup_singleton 3)).mpr
      fun t => by rw [hmem, hbetween, List.mem_singleton])
  exact ⟨c, c', hrun, hreplay, order, honly, hstore, ((hiff "b" hb).mp hfound).2,
    fun hnever => hlost ((hiff "c" hc).mpr ⟨hold, hnever⟩)⟩

/-- One `remove_node` call, and two vids are lost. -/
theorem displacing_lost : ∃ c, Run (GraphInstance.blank.calls displacing)
    GraphInstance.blank.store (displacingTrace ++ [.enter 3]) c ∧ c.store.lost.card = 2 ∧
    c.store.lost.card ≤ 2 * ({3} : Finset (Fin 4)).card := by
  have hrun : ∃ c, Run (GraphInstance.blank.calls displacing) GraphInstance.blank.store
      (displacingTrace ++ [.enter 3]) c ∧ c.store.lost.card = 2 :=
    ⟨_, Run.of_replay rfl, by decide⟩
  obtain ⟨c, hrun, htwo⟩ := hrun
  refine ⟨c, hrun, htwo, lost_at_most_twice_removals 0 0 ⟨rfl, rfl⟩ (fun t ht => ?_) hrun⟩
  match t with
  | 0 | 1 | 2 => exact absurd ht (by decide)
  | 3 => exact Finset.mem_singleton_self 3

end MemoryGraph
