import MemoryGraph.Graph.Catalog
import MemoryGraph.Graph.Outcome

/-!
# MemoryGraph — insertions that arrive in any order

Callers that do not wait for each other leave the order of their calls open. Without removals,
what the caches hold in the end depends on that order in one way only: an `add_edge` counts
exactly if both its vids are there before it.

* **`mem_edgeCache_runAll_iff`** — from any store, the keys after a sequence of calls are the old
  ones and those of the pairs joined by the calls;
* **`mem_addedPairs_iff`** — a pair is joined by an `add_edge` that comes after its vids;
* **`exists_arrival_order`** — the caches of an interleaving, by one order of its calls;
* **`second_pass_settles`** — the same calls once more, in any interleaving, make up for every edge
  that came too early and duplicate nothing: which vids and which joined pairs there are after two
  passes does not depend on the order any more.
-/

namespace MemoryGraph

open Conc Petgraph

variable {G : Type} [Graph G NodeM EdgeM] {segment : String}

theorem joins?_eq_some {vids : List String} {op : Op} {p : String × String} :
    op.joins? vids = some p ↔
      (∃ edge, op = .addEdge p.1 p.2 edge) ∧ p.1 ∈ vids ∧ p.2 ∈ vids := by
  obtain ⟨fromVid, toVid⟩ := p
  cases op <;> simp [Op.joins?]
  constructor
  · rintro ⟨hvids, rfl, rfl⟩
    exact ⟨⟨rfl, rfl⟩, hvids⟩
  · rintro ⟨⟨rfl, rfl⟩, hvids⟩
    exact ⟨hvids, rfl, rfl⟩

/-- A pair is joined by an `add_edge` that comes after its vids. -/
theorem mem_addedPairs_iff {vids : List String} {ops : List Op} {p : String × String} :
    p ∈ addedPairs vids ops ↔ ∃ pre edge, pre ++ [.addEdge p.1 p.2 edge] <+: ops ∧
      p.1 ∈ vids ++ addedVids pre ∧ p.2 ∈ vids ++ addedVids pre := by
  induction ops using List.reverseRecOn with
  | nil => simp [addedPairs]
  | append_singleton ops op ih =>
    rw [addedPairs_concat, List.mem_append, Option.mem_toList, joins?_eq_some, ih]
    simp only [List.prefix_concat_iff, List.append_singleton_inj]
    constructor
    · rintro (⟨pre, edge, hpre, hvids⟩ | ⟨⟨edge, rfl⟩, hvids⟩)
      · exact ⟨pre, edge, Or.inr hpre, hvids⟩
      · exact ⟨ops, edge, Or.inl ⟨rfl, rfl⟩, hvids⟩
    · rintro ⟨pre, edge, ⟨rfl, rfl⟩ | hpre, hvids⟩
      · exact Or.inr ⟨⟨edge, rfl⟩, hvids⟩
      · exact Or.inl ⟨pre, edge, hpre, hvids⟩

variable [LawfulGraph G]

/-- Without removals, the keys after a run are those from before and those of the pairs that the
calls join. -/
theorem mem_edgeCache_runAll_iff {s : Store G} (h : NodesInRange s) {ops : List Op}
    (hops : ∀ op ∈ ops, op.isRemoval = false) {vids : List String}
    (hvids : ∀ vid, vid ∈ s.nodeCache ↔ vid ∈ vids) {key : String} :
    key ∈ (runAll segment ops s).1.edgeCache ↔
      key ∈ s.edgeCache ∨ ∃ p ∈ addedPairs vids ops, edgeKey segment p.1 p.2 = key := by
  induction ops generalizing s vids with
  | nil => simp [addedPairs, runAll]
  | cons op ops ih =>
    have hvids' : ∀ vid, vid ∈ (op.run segment s).1.nodeCache ↔
        vid ∈ vids ++ op.addsVid?.toList := fun vid => by
      rw [mem_nodeCache_run_iff, hvids, List.mem_append, Option.mem_toList]
    have hchange : Change segment s op (op.run segment s).1 := run_change op s
    have hrange := h.change (hops op List.mem_cons_self) hchange
    refine (ih hrange (fun op' hop' => hops op' (List.mem_cons_of_mem op hop')) hvids').trans ?_
    rw [h.mem_edgeCache_run_iff op hvids, addedPairs, or_assoc]
    refine or_congr_right ?_
    simp only [List.mem_append, Option.mem_toList, or_and_right, exists_or]

/-! ## Interleavings -/

/-- In a list without repetitions, what is in front of an element comes before it. -/
theorem mem_iff_pair_sublist {ι : Type} {order pre : List ι} {t : ι} (hnodup : order.Nodup)
    (hpre : pre ++ [t] <+: order) (u : ι) : u ∈ pre ↔ [u, t].Sublist order := by
  obtain ⟨post, rfl⟩ := hpre
  rw [List.append_assoc, List.singleton_append] at hnodup ⊢
  induction pre with
  | nil =>
    have hnot : t ∉ post := (List.nodup_cons.mp hnodup).1
    have hafter : ¬ [u, t].Sublist (t :: post) := by
      rw [List.nil_append] at hnodup
      rintro hsub
      rcases List.cons_sublist_cons'.mp hsub with hsub | ⟨-, hsub⟩
      · exact hnot (hsub.subset (by simp))
      · exact hnot (List.singleton_sublist.mp hsub)
    simpa using hafter
  | cons a pre ih =>
    have hne : t ∈ pre ++ t :: post := by simp
    rw [List.mem_cons, ih (List.nodup_cons.mp hnodup).2, List.cons_append,
      List.cons_sublist_cons', List.singleton_sublist, or_comm]
    simp [hne]

/-- A prefix of a mapped list and the element after it, taken back to the list. -/
theorem concat_prefix_map {α β : Type} {f : α → β} {pre : List β} {b : β} {l : List α} :
    pre ++ [b] <+: l.map f ↔ ∃ o a, o ++ [a] <+: l ∧ o.map f = pre ∧ f a = b := by
  rw [List.prefix_map_iff]
  constructor
  · rintro ⟨l', hl', heq⟩
    obtain ⟨o, r, rfl, ho, hr⟩ := List.append_eq_map_iff.mp heq
    obtain ⟨a, rfl, ha⟩ := List.map_eq_singleton_iff.mp hr
    exact ⟨o, a, hl', ho, ha⟩
  · rintro ⟨o, a, hl, rfl, rfl⟩
    exact ⟨o ++ [a], hl, by simp⟩

/-- In an interleaving without removals the graph has what was there and what the calls add that
have replied: every vid, and an edge key if an `add_edge` of it comes after its vids. -/
theorem exists_arrival_order {ι : Type} [DecidableEq ι] {self : GraphInstance G}
    (hindexed : Indexed self.segment self.store) {ops : ι → Op}
    (hops : ∀ t, (ops t).isRemoval = false) {tr : List (Event ι)}
    {c : Config ι (Store G) Lock Reply} (hrun : Run (self.calls ops) self.store tr c) :
    Indexed self.segment c.store ∧
    ∃ order : List ι, order.Nodup ∧ (∀ t, t ∈ order ↔ (c.phase t).reply?.isSome) ∧
      (∀ a b, ReturnedBefore tr a b → b ∈ order → [a, b].Sublist order) ∧
      (∀ vid, vid ∈ c.store.catalog.vids ↔
        vid ∈ self.store.catalog.vids ∨ ∃ t ∈ order, (ops t).addsVid? = some vid) ∧
      ∀ key, key ∈ c.store.catalog.keys self.segment ↔ key ∈ self.store.catalog.keys self.segment ∨
        ∃ t ∈ order, ∃ fromVid toVid edge, ops t = .addEdge fromVid toVid edge ∧
          edgeKey self.segment fromVid toVid = key ∧ ∀ vid ∈ [fromVid, toVid],
            vid ∈ self.store.catalog.vids ∨
              ∃ u, [u, t].Sublist order ∧ (ops u).addsVid? = some vid := by
  obtain ⟨order, hlin⟩ := exists_linearization hrun
  have hkind : ∀ op ∈ order.map ops, op.isRemoval = false := fun op hop => by
    obtain ⟨t, -, rfl⟩ := List.mem_map.mp hop
    exact hops t
  have hstore := store_eq_runAll hlin
  rw [GraphInstance.runAll] at hstore
  have hindexed' : Indexed self.segment c.store := hstore ▸ hindexed.runAll hkind
  -- what the calls in front of a call have added
  have hahead : ∀ {o : List ι} {t : ι}, o ++ [t] <+: order → ∀ vid,
      vid ∈ self.store.catalog.vids ++ addedVids (o.map ops) ↔ vid ∈ self.store.catalog.vids ∨
        ∃ u, [u, t].Sublist order ∧ (ops u).addsVid? = some vid := by
    intro o t ho vid
    rw [List.mem_append]
    simp [addedVids, mem_iff_pair_sublist hlin.nodup ho]
  refine ⟨hindexed', order, hlin.nodup, hlin.mem_iff, hlin.realTime, fun vid => ?_, fun key => ?_⟩
  · rw [hindexed'.mem_vids, hindexed.mem_vids, ← hstore, mem_nodeCache_runAll_iff]
    simp [addedVids]
  · rw [hindexed'.mem_keys, hindexed.mem_keys, ← hstore,
      mem_edgeCache_runAll_iff hindexed.nodesInRange hkind fun _ => hindexed.mem_vids.symm]
    refine or_congr_right ?_
    constructor
    · rintro ⟨⟨fromVid, toVid⟩, hp, hkey⟩
      obtain ⟨pre, edge, hpre, hfrom, hto⟩ := mem_addedPairs_iff.mp hp
      obtain ⟨o, t, ho, rfl, ht⟩ := concat_prefix_map.mp hpre
      refine ⟨t, ho.subset (by simp), fromVid, toVid, edge, ht, hkey, ?_⟩
      simpa using ⟨(hahead ho fromVid).mp hfrom, (hahead ho toVid).mp hto⟩
    · rintro ⟨t, hmem, fromVid, toVid, edge, ht, hkey, hends⟩
      obtain ⟨o, post, rfl⟩ := List.append_of_mem hmem
      have ho : o ++ [t] <+: o ++ t :: post := ⟨post, by simp⟩
      refine ⟨(fromVid, toVid), mem_addedPairs_iff.mpr ⟨o.map ops, edge, ?_, ?_, ?_⟩, hkey⟩
      · exact concat_prefix_map.mpr ⟨o, t, ho, rfl, ht⟩
      · exact (hahead ho fromVid).mpr (hends fromVid (by simp))
      · exact (hahead ho toVid).mpr (hends toVid (by simp))

/-- **A second pass settles the graph.** When the same insertions, lookups and updates run twice on
an empty instance, in any interleaving each time, the caches are exact in the end, no two nodes
share a vid and no two edges their ends, and the graph has exactly the vids of the `add_node`
calls and the keys of the `add_edge` calls between them, however often a call occurs and in
whichever order. -/
theorem second_pass_settles {ι : Type} [DecidableEq ι] (nodeCap edgeCap : Nat) {g : G}
    (hg : Graph.IsEmpty g) {ops : ι → Op} (hops : ∀ t, (ops t).isRemoval = false)
    {tr₁ tr₂ : List (Event ι)} {c₁ c₂ : Config ι (Store G) Lock Reply}
    (hrun₁ : Run ((GraphInstance.new nodeCap edgeCap g).calls ops)
      (GraphInstance.new nodeCap edgeCap g).store tr₁ c₁)
    (hdone₁ : ∀ t, (c₁.phase t).reply?.isSome)
    (hrun₂ : Run ((GraphInstance.new nodeCap edgeCap g).calls ops) c₁.store tr₂ c₂)
    (hdone₂ : ∀ t, (c₂.phase t).reply?.isSome) :
    Indexed "_" c₂.store ∧ c₂.store.vids.Nodup ∧ c₂.store.ends.Nodup ∧
    (∀ vid, vid ∈ c₂.store.catalog.vids ↔ ∃ t, (ops t).addsVid? = some vid) ∧
    ∀ key, key ∈ c₂.store.catalog.keys "_" ↔
      ∃ t fromVid toVid edge, ops t = .addEdge fromVid toVid edge ∧
        fromVid ++ "_" ++ toVid = key ∧ ∀ vid ∈ [fromVid, toVid],
          ∃ u, (ops u).addsVid? = some vid := by
  have hempty : Indexed "_" (GraphInstance.new nodeCap edgeCap g).store := .empty hg
  have hnone : (GraphInstance.new nodeCap edgeCap g).store.catalog = .empty := by
    simp [GraphInstance.new, Store.catalog, Catalog.empty, hg.1, hg.2]
  obtain ⟨hindexed, order₁, -, hmem₁, -, hvids₁, hkeys₁⟩ := exists_arrival_order hempty hops hrun₁
  have hrun₂' : Run ((⟨"_", c₁.store⟩ : GraphInstance G).calls ops) c₁.store tr₂ c₂ := hrun₂
  obtain ⟨hindexed₂, order₂, -, hmem₂, -, hvids₂, hkeys₂⟩ :=
    exists_arrival_order hindexed hops hrun₂'
  have hall₁ : ∀ t, t ∈ order₁ := fun t => (hmem₁ t).mpr (hdone₁ t)
  have hall₂ : ∀ t, t ∈ order₂ := fun t => (hmem₂ t).mpr (hdone₂ t)
  -- after the first pass all vids are there
  have hfirst : ∀ vid, vid ∈ c₁.store.catalog.vids ↔
      ∃ t, (ops t).addsVid? = some vid := fun vid => by
    rw [hvids₁, hnone]
    simp [Catalog.empty, Catalog.vids, hall₁]
  refine ⟨hindexed₂, hindexed₂.vids_nodup, hindexed₂.ends_nodup, fun vid => ?_, fun key => ?_⟩
  · rw [hvids₂, hfirst]
    simp [hall₂]
  · refine (hkeys₂ key).trans ⟨?_, ?_⟩
    · rintro (hold | ⟨t, -, fromVid, toVid, edge, ht, hkey, hends⟩)
      · obtain hnew | ⟨t, -, fromVid, toVid, edge, ht, hkey, hends⟩ := (hkeys₁ key).mp hold
        · simp [hnone, Catalog.empty, Catalog.keys] at hnew
        · refine ⟨t, fromVid, toVid, edge, ht, hkey, fun vid hvid => ?_⟩
          obtain hnew | ⟨u, -, hu⟩ := hends vid hvid
          · simp [hnone, Catalog.empty, Catalog.vids] at hnew
          · exact ⟨u, hu⟩
      · refine ⟨t, fromVid, toVid, edge, ht, hkey, fun vid hvid => ?_⟩
        obtain hold | ⟨u, -, hu⟩ := hends vid hvid
        · exact (hfirst vid).mp hold
        · exact ⟨u, hu⟩
    · rintro ⟨t, fromVid, toVid, edge, ht, hkey, hends⟩
      exact Or.inr ⟨t, hall₂ t, fromVid, toVid, edge, ht, hkey,
        fun vid hvid => Or.inl ((hfirst vid).mpr (hends vid hvid))⟩

/-- A loop, and the node it is at. -/
def loopFirst : Fin 2 → Op
  | 0 => .addEdge "a" "a" ⟨1, "a", "a", ∅⟩
  | 1 => .addNode ⟨"a", ∅⟩

/-- The loop is refused in the first pass, and made up for in the second. -/
theorem loopFirst_settles : ∃ c₁ c₂,
    Run (GraphInstance.blank.calls loopFirst) GraphInstance.blank.store
      [.begin 0, .enter 0, .begin 1, .enter 1, .enter 1] c₁ ∧
    Run (GraphInstance.blank.calls loopFirst) c₁.store
      [.begin 0, .enter 0, .enter 0, .begin 1, .enter 1] c₂ ∧
    "a_a" ∉ c₁.store.catalog.keys "_" ∧ "a_a" ∈ c₂.store.catalog.keys "_" ∧
    c₂.store.vids.Nodup ∧ c₂.store.ends.Nodup := by
  have hruns : ∃ c₁ c₂,
      Run (GraphInstance.blank.calls loopFirst) GraphInstance.blank.store
        [.begin 0, .enter 0, .begin 1, .enter 1, .enter 1] c₁ ∧
      Run (GraphInstance.blank.calls loopFirst) c₁.store
        [.begin 0, .enter 0, .enter 0, .begin 1, .enter 1] c₂ ∧
      "a_a" ∉ c₁.store.catalog.keys "_" ∧
      (∀ t, (c₁.phase t).reply?.isSome) ∧ ∀ t, (c₂.phase t).reply?.isSome :=
    ⟨_, _, Run.of_replay rfl, Run.of_replay rfl, by decide, by decide, by decide⟩
  obtain ⟨c₁, c₂, hrun₁, hrun₂, hrefused, hdone₁, hdone₂⟩ := hruns
  have hops : ∀ t, (loopFirst t).isRemoval = false := by decide
  obtain ⟨-, hvids, hends, -, hkeys⟩ :=
    second_pass_settles 0 0 ⟨rfl, rfl⟩ hops hrun₁ hdone₁ hrun₂ hdone₂
  refine ⟨c₁, c₂, hrun₁, hrun₂, hrefused, (hkeys "a_a").mpr ?_, hvids, hends⟩
  exact ⟨0, "a", "a", _, rfl, rfl, fun vid hvid => ⟨1, by simp_all [loopFirst, Op.addsVid?]⟩⟩

end MemoryGraph
