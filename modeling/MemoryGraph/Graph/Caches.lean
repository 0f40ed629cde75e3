import Mathlib.Order.Fin.Basic
import MemoryGraph.Conc.Deadlock
import MemoryGraph.Conc.Linearize
import MemoryGraph.Graph.Alone

/-!
# MemoryGraph — the caches only grow

No operation takes an entry out of `node_cache` or `edge_cache` or changes one: the two
insertions add a key that was absent, and the removals leave both caches alone. So what a
call looked up in its first section is still what a second look would find, however many
other calls ran in between (`commits_call`). This is the fact the concurrent results rest
on; the lock order of the sections (`ordered_call`) is the other one.
-/

namespace MemoryGraph

open Conc Petgraph

variable {G : Type} [Graph G NodeM EdgeM] {segment : String}

/-- Every entry of the two caches of `s` is still there in `s'`. -/
structure Extends (s s' : Store G) : Prop where
  node : ∀ {vid idx}, s.nodeCache.lookup vid = some idx → s'.nodeCache.lookup vid = some idx
  edge : ∀ {key idx}, s.edgeCache.lookup key = some idx → s'.edgeCache.lookup key = some idx

namespace Extends

omit [Graph G NodeM EdgeM]

theorem rfl {s : Store G} : Extends s s := ⟨id, id⟩

theorem trans {s₁ s₂ s₃ : Store G} (h : Extends s₁ s₂) (h' : Extends s₂ s₃) : Extends s₁ s₃ :=
  ⟨fun hidx => h'.node (h.node hidx), fun hidx => h'.edge (h.edge hidx)⟩

instance : IsPreorder (Store G) Extends where
  refl _ := rfl
  trans _ _ _ := trans

theorem mem_node {s s' : Store G} (h : Extends s s') {vid : String} (hvid : vid ∈ s.nodeCache) :
    vid ∈ s'.nodeCache := by
  obtain ⟨idx, hidx⟩ := Finmap.mem_iff.mp hvid
  exact Finmap.mem_iff.mpr ⟨idx, h.node hidx⟩

theorem mem_edge {s s' : Store G} (h : Extends s s') {key : String} (hkey : key ∈ s.edgeCache) :
    key ∈ s'.edgeCache := by
  obtain ⟨idx, hidx⟩ := Finmap.mem_iff.mp hkey
  exact Finmap.mem_iff.mpr ⟨idx, h.edge hidx⟩

end Extends

theorem lookup_insert_fresh {V : Type} {m : Dict V} {key key' : String} {v v' : V}
    (hfresh : key ∉ m) (h : m.lookup key' = some v') : (m.insert key v).lookup key' = some v' := by
  have hne : key' ≠ key := by
    rintro rfl
    exact hfresh (Finmap.mem_iff.mpr ⟨v', h⟩)
  rwa [Finmap.lookup_insert_of_ne _ hne]

/-- Of all changes, only the two insertions touch the caches, and they add an entry. -/
theorem Change.extends {s s' : Store G} {op : Op} (h : Change segment s op s') : Extends s s' := by
  cases h with
  | nodeAdded _ hfresh => exact ⟨lookup_insert_fresh hfresh, id⟩
  | edgeAdded _ hfresh _ _ _ => exact ⟨id, lookup_insert_fresh hfresh⟩
  | _ => exact ⟨id, id⟩

/-- No call takes an entry out of a cache or changes one. -/
theorem run_extends (op : Op) (s : Store G) : Extends s (op.run segment s).1 :=
  (run_change op s).extends

/-! ## Every call commits in its last section -/

omit [Graph G NodeM EdgeM] in
/-- A lookup that finds the same index later, and an action that keeps the caches. -/
theorem commits_resolve {lock : Lock} {lookup : Store G → Option Nat} {absent : Reply} {mode : Mode}
    {act : Nat → Store G → Store G × Reply}
    (hlookup : ∀ {s s' : Store G} {idx}, Extends s s' → lookup s = some idx → lookup s' = some idx)
    (hact : ∀ idx s, Extends s (act idx s).1) :
    (resolve lock lookup absent mode act).Commits Extends := by
  refine Proc.commits_critical fun s => ?_
  cases hidx : lookup s with
  | none => exact Or.inl ⟨rfl, .rfl⟩
  | some idx =>
    refine Or.inr ⟨rfl, Proc.commits_critical fun s => Or.inl ⟨rfl, hact idx s⟩, fun s' hs' => ?_⟩
    simp [hlookup hs' hidx]

omit [Graph G NodeM EdgeM] in
/-- If the action only extends the caches, the index that was looked up in the first section is
still the cached one in the second, so the call may be run there as a whole. -/
theorem commits_resolveNode {vid : String} {absent : Reply} {mode : Mode}
    {act : Nat → Store G → Store G × Reply} (hact : ∀ idx s, Extends s (act idx s).1) :
    (resolveNode vid absent mode act).Commits Extends :=
  commits_resolve (fun hs hidx => hs.node hidx) hact

omit [Graph G NodeM EdgeM] in
/-- The same for a key of `edge_cache`. -/
theorem commits_resolveEdge {key : String} {absent : Reply} {mode : Mode}
    {act : Nat → Store G → Store G × Reply} (hact : ∀ idx s, Extends s (act idx s).1) :
    (resolveEdge key absent mode act).Commits Extends :=
  commits_resolve (fun hs hidx => hs.edge hidx) hact

/-- A vid that the first section of `add_node` finds cached is cached for good. If it finds none,
the second section looks again, so the first one decides nothing. -/
theorem commits_addNode (node : NodeM) : (addNode node : Call G).Commits Extends := by
  refine Proc.commits_critical fun s => ?_
  by_cases hvid : node.vid ∈ s.nodeCache
  · exact Or.inl (by simp [hvid, Extends.rfl])
  · refine Or.inr ⟨by simp [hvid], ?_, fun s' _ => ?_⟩
    · rw [if_neg hvid]
      refine Proc.commits_critical fun s => Or.inl ?_
      by_cases hvid : node.vid ∈ s.nodeCache
      · simp [hvid, Extends.rfl]
      -- the insertion is the change that the call makes when it runs alone
      · have hadded : Change "" s (.addNode node) _ := .nodeAdded rfl hvid
        simpa [hvid] using hadded.extends
    · -- the second section looks again, so the first one adds nothing
      by_cases hvid' : node.vid ∈ s'.nodeCache <;> simp [hvid, hvid']

/-- `add_edge` looks up the key and both ends under guards that it drops again. The indices it has
found are still the cached ones in its second section, and the key is looked up again there. -/
theorem commits_addEdge (fromVid toVid : String) (edge : EdgeM) :
    (addEdge segment fromVid toVid edge : Call G).Commits Extends := by
  refine Proc.commits_critical fun s => ?_
  by_cases hkey : edgeKey segment fromVid toVid ∈ s.edgeCache
  · exact Or.inl (by simp [hkey, Extends.rfl])
  cases hfrom : s.nodeCache.lookup fromVid with
  | none => exact Or.inl (by simp [hkey, Extends.rfl])
  | some a =>
    cases hto : s.nodeCache.lookup toVid with
    | none => exact Or.inl (by simp [hkey, Extends.rfl])
    | some b =>
      refine Or.inr ⟨by simp [hkey], ?_, fun s' hs' => ?_⟩
      · rw [if_neg hkey]
        refine Proc.commits_critical fun s => Or.inl ?_
        by_cases hkey : edgeKey segment fromVid toVid ∈ s.edgeCache
        · simp [hkey, Extends.rfl]
        · cases hadd : Graph.addEdge s.inner a b edge with
          | none => simp [hkey, Extends.rfl]
          | some added => simpa [hkey] using ⟨id, lookup_insert_fresh hkey⟩
      · -- the indices read in the first section are still the cached ones
        have hfrom' := hs'.node hfrom
        have hto' := hs'.node hto
        by_cases hkey' : edgeKey segment fromVid toVid ∈ s'.edgeCache <;>
          simp [hkey, hkey', hfrom', hto']

/-- Every call takes effect as a whole in its last section, whatever the others do in between. -/
theorem commits_call (op : Op) : (op.call segment : Call G).Commits Extends := by
  cases op with
  | addNode node => exact commits_addNode node
  | addEdge fromVid toVid edge => exact commits_addEdge fromVid toVid edge
  | findNodeByVid vid => exact commits_resolveNode fun _ _ => .rfl
  | removeNode vid => exact commits_resolveNode fun _ _ => ⟨id, id⟩
  | updateNode vid data =>
    refine commits_resolveNode fun idx s => ?_
    cases hborrow : Graph.nodeWeightMut s.inner idx <;> exact ⟨id, id⟩
  | updateEdge edgeVid data =>
    refine commits_resolveEdge fun idx s => ?_
    cases hborrow : Graph.edgeWeightMut s.inner idx <;> exact ⟨id, id⟩
  | updateEdgeByNode fromVid toVid data =>
    refine commits_resolveEdge fun idx s => ?_
    cases hborrow : Graph.edgeWeightMut s.inner idx <;> exact ⟨id, id⟩
  | removeEdge edgeVid => exact commits_resolveEdge fun _ _ => ⟨id, id⟩
  | removeEdgeByNode fromVid toVid => exact commits_resolveEdge fun _ _ => ⟨id, id⟩

/-! ## The lock order -/

/-- The order in which every section takes its locks: `inner`, `edge_cache`, `node_cache`. -/
def Lock.rank : Lock → Fin 3
  | .inner => 0
  | .edgeCache => 1
  | .nodeCache => 2

omit [Graph G NodeM EdgeM] in
/-- The cache is locked alone, and `inner` alone after that. -/
theorem ordered_resolve (lock : Lock) (lookup : Store G → Option Nat) (absent : Reply)
    (mode : Mode) (act : Nat → Store G → Store G × Reply) :
    (resolve lock lookup absent mode act).Ordered Lock.rank := by
  refine Proc.ordered_critical (by simp) fun s => ?_
  cases lookup s with
  | none => trivial
  | some idx => exact Proc.ordered_critical (by simp) fun _ => trivial

/-- `add_node` takes `node_cache` alone, and then `inner` before `node_cache`. -/
theorem ordered_addNode (node : NodeM) : (addNode node : Call G).Ordered Lock.rank := by
  refine Proc.ordered_critical (by simp) fun s => ?_
  split
  · trivial
  · refine Proc.ordered_critical (by simp [Lock.rank]) fun s => ?_
    split <;> trivial

/-- `add_edge` takes `edge_cache` before `node_cache`, and then `inner` before `edge_cache`. -/
theorem ordered_addEdge (fromVid toVid : String) (edge : EdgeM) :
    (addEdge segment fromVid toVid edge : Call G).Ordered Lock.rank := by
  refine Proc.ordered_critical (by simp [Lock.rank]) fun s => ?_
  split
  · trivial
  · cases s.nodeCache.lookup fromVid with
    | none => trivial
    | some a =>
      cases s.nodeCache.lookup toVid with
      | none => trivial
      | some b =>
        refine Proc.ordered_critical (by simp [Lock.rank]) fun s => ?_
        split
        · trivial
        · cases Graph.addEdge s.inner a b edge <;> trivial

/-- Every section of every public operation takes its locks in the order of `Lock.rank`. -/
theorem ordered_call (op : Op) : (op.call segment : Call G).Ordered Lock.rank := by
  cases op with
  | addNode node => exact ordered_addNode node
  | addEdge fromVid toVid edge => exact ordered_addEdge fromVid toVid edge
  | _ => exact ordered_resolve ..

end MemoryGraph
