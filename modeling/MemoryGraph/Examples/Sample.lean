import MemoryGraph.Examples.Find
import MemoryGraph.Graph.Undirected

/-!
# MemoryGraph — the sample rows (`write_data` of `examples/graph.rs`)

`write_data` fills the two tables with a line of nodes, each joined to the one before it.
`read_data` then takes all rows, in whatever order the database returns them, and `find` has a path
to print between any two of the nodes.

* **`Written.sound`** — rows written to empty tables are sound tables: numbers have no `_` in them,
  so no two edge keys are the same;
* **`written_rows_found`** — they load without a panic, and every request is answered with a path.
-/

namespace MemoryGraph.Examples

open MemoryGraph Petgraph

/-- One round of the loop. The rows are inserted with the id 0, for which the database takes one of
its own (`nodeId`, `edgeId`). -/
def writeRound (nodeId edgeId : Nat → Int32) (T : Tables) (i : Nat) : Tables :=
  if 0 < i then
    (T.insert (.node ⟨nodeId i, toString i⟩)).insert
      (.edge ⟨edgeId i, toString (i - 1), toString i⟩)
  else T.insert (.node ⟨nodeId i, toString i⟩)

/-- `write_data` on empty tables, with `count` for the 100000 of the source. -/
def writeData (nodeId edgeId : Nat → Int32) (count : Nat) : Tables :=
  (List.range count).foldl (writeRound nodeId edgeId) .empty

variable {nodeId edgeId : Nat → Int32} {count : Nat} {T : Tables}

/-- The rows of all rounds: a node in each, and an edge in each but the first. -/
theorem writeData_eq (nodeId edgeId : Nat → Int32) (count : Nat) :
    writeData nodeId edgeId count =
      ⟨(List.range count).map fun i => ⟨nodeId i, toString i⟩,
        (List.range (count - 1)).map fun i =>
          ⟨edgeId (i + 1), toString i, toString (i + 1)⟩⟩ := by
  induction count with
  | zero => rfl
  | succ count ih =>
    rw [writeData, List.range_succ, List.foldl_concat, ← writeData, ih, writeRound]
    cases count with
    | zero => rfl
    | succ count => simp [Tables.insert, List.range_succ]

/-! ## Written rows are sound tables -/

/-- Numbers have no underscore in them, so keys of numbered vids can be read back. -/
theorem underscore_notMem_toString (i : Nat) : '_' ∉ (toString i).toList := by
  rw [Nat.toString_eq_repr, Nat.toList_repr]
  exact Nat.underscore_not_in_toDigits

theorem toString_injective : Function.Injective (toString : Nat → String) := by
  intro i j h
  have hdigits := congrArg String.toList h
  rw [Nat.toString_eq_repr, Nat.toString_eq_repr, Nat.toList_repr, Nat.toList_repr] at hdigits
  have hnumber := congrArg (Nat.ofDigitChars 10 · 0) hdigits
  simpa [Nat.ofDigitChars_toDigits] using hnumber

/-- The tables have the written rows, in any order. -/
structure Written (nodeId edgeId : Nat → Int32) (count : Nat) (T : Tables) : Prop where
  nodes : T.nodes.Perm (writeData nodeId edgeId count).nodes
  edges : T.edges.Perm (writeData nodeId edgeId count).edges

namespace Written

variable (h : Written nodeId edgeId count T)
include h

/-- In some order, the vids are the numbers below `count`. -/
theorem vids_perm : T.vids.Perm ((List.range count).map toString) := by
  have hperm := h.nodes.map NodeY.vid
  rw [writeData_eq, List.map_map] at hperm
  exact hperm

theorem mem_vids {i : Nat} (hi : i < count) : toString i ∈ T.vids :=
  h.vids_perm.mem_iff.mpr (List.mem_map_of_mem (List.mem_range.mpr hi))

/-- The edge rows join each number to the next. -/
theorem mem_edges {v : EdgeY} : v ∈ T.edges ↔ ∃ i, i + 1 < count ∧
    v = ⟨edgeId (i + 1), toString i, toString (i + 1)⟩ := by
  rw [h.edges.mem_iff, writeData_eq, List.mem_map]
  simp only [List.mem_range, eq_comm, Nat.lt_sub_iff_add_lt]

/-- The written tables are sound, however the database returns them. -/
theorem sound : T.Sound where
  vids_nodup := h.vids_perm.nodup_iff.mpr (List.nodup_range.map toString_injective)
  keys_nodup := by
    have hperm := h.edges.map EdgeY.key
    rw [writeData_eq, List.map_map] at hperm
    refine hperm.nodup_iff.mpr (List.nodup_range.map fun i j hkey => ?_)
    have hends := (edgeKey_eq_iff (underscore_notMem_toString i)
      (underscore_notMem_toString (i + 1))).mp hkey
    exact toString_injective hends.1
  ends_known v hv := by
    obtain ⟨i, hi, rfl⟩ := h.mem_edges.mp hv
    exact ⟨h.mem_vids (by omega), h.mem_vids hi⟩

theorem neighbours {i : Nat} (hi : i + 1 < count) :
    T.Neighbours (toString i) (toString (i + 1)) :=
  Or.inl (List.mem_map.mpr ⟨_, h.mem_edges.mpr ⟨i, hi, rfl⟩, rfl⟩)

/-- Every node is joined to the first one. -/
theorem connected_zero {i : Nat} (hi : i < count) :
    Relation.ReflTransGen (fun u v => ∃ _ : EdgeM, T.Neighbours u v) (toString 0) (toString i) := by
  induction i with
  | zero => exact .refl
  | succ i ih => exact (ih (by omega)).tail ⟨⟨0, "", "", ∅⟩, h.neighbours hi⟩

/-- The numbers make a path, so any two of them are joined by a walk. -/
theorem exists_walk {u v : String} (hu : u ∈ T.vids) (hv : v ∈ T.vids) :
    ∃ steps, Walk (fun u v (_ : EdgeM) => T.Neighbours u v) u steps v := by
  obtain ⟨i, hi, rfl⟩ := List.mem_map.mp (h.vids_perm.mem_iff.mp hu)
  obtain ⟨j, hj, rfl⟩ := List.mem_map.mp (h.vids_perm.mem_iff.mp hv)
  have hsymm : Std.Symm fun u v => ∃ _ : EdgeM, T.Neighbours u v :=
    ⟨fun _ _ ⟨edge, hends⟩ => ⟨edge, hends.symm⟩⟩
  -- back to the first node, and from there to the other
  have hback := Std.Symm.symm _ _ (h.connected_zero (List.mem_range.mp hi))
  exact exists_walk_of_reflTransGen (hback.trans (h.connected_zero (List.mem_range.mp hj)))

end Written

variable {G : Type} [Graph G NodeM EdgeM] [LawfulGraph G] [Incidence G EdgeM] [LawfulIncidence G]

/-- **From the sample rows to a path.** Whatever ids the database gives to the rows that
`write_data` inserts into empty tables, and in whatever order it returns them, `read_data` loads
them into an empty undirected graph without a panic, and a request between any two different of
the nodes prints a path from the one to the other along written edge rows. -/
theorem written_rows_found (hundirected : Graph.isDirected G = false) {g : G}
    (hg : Graph.IsEmpty g) {astar : Astar G EdgeM} (hastar : IsAstar astar)
    (h : Written nodeId edgeId count T) {startNode targetNode : Nat}
    (hne : startNode ≠ targetNode) (hstart : startNode < count) (htarget : targetNode < count) :
    (readData (some T.nodes) (some T.edges) (graph g).store).2 = none ∧
    ∃ u v steps, T.vids[startNode]? = some u ∧ T.vids[targetNode]? = some v ∧
      Walk (fun u v (_ : EdgeM) => T.Neighbours u v) u steps v ∧
      findBetween astar startNode targetNode
        (readData (some T.nodes) (some T.edges) (graph g).store).1.inner
          = some (report u steps) := by
  have hcopied : Copied (afterLoading g T) T := .of_loaded (loaded_afterLoading hg h.sound)
  have hmirrored := hcopied.mirrored
  have hvids : (afterLoading g T).vids = T.vids := hcopied.vids
  obtain ⟨lines, hlines, hanswers⟩ :=
    findBetween_answers hmirrored.inRange hmirrored.distinct.nodup hastar hne
  rw [hvids] at hanswers
  refine ⟨(readData_eq_none_iff hg (some T.nodes) (some T.edges)).mpr h.sound, ?_⟩
  rcases hanswers.unlabelled fun u v => exists_joined_iff hmirrored hundirected with
    ⟨u, v, steps, hu, hv, hwalk, rfl⟩ | ⟨hnone, -⟩
  · exact ⟨u, v, steps, hu, hv, hwalk, hlines⟩
  -- there are two places, and a walk between their vids
  · have hlen : T.vids.length = count := by simpa using h.vids_perm.length_eq
    have hu := List.getElem?_eq_getElem (hlen.symm ▸ hstart)
    have hv := List.getElem?_eq_getElem (hlen.symm ▸ htarget)
    obtain ⟨steps, hwalk⟩ := h.exists_walk (List.mem_of_getElem? hu) (List.mem_of_getElem? hv)
    exact absurd hwalk (hnone _ _ steps hu hv)

/-- Three written nodes, which the database returns last row first. -/
def reversedRows : Tables where
  nodes := (writeData (fun i => .ofNat (i + 1)) Int32.ofNat 3).nodes.reverse
  edges := (writeData (fun i => .ofNat (i + 1)) Int32.ofNat 3).edges.reverse

/-- The rows come back in reverse order, and the path is found from the last number down. -/
theorem reversedRows_found : ∃ steps, findBetween ListGraph.search 0 2
    (readData (some reversedRows.nodes) (some reversedRows.edges) (graph blankGraph).store).1.inner
      = some (report "2" steps) := by
  have hwritten : Written (fun i => .ofNat (i + 1)) Int32.ofNat 3 reversedRows :=
    ⟨List.reverse_perm _, List.reverse_perm _⟩
  obtain ⟨-, u, v, steps, hu, -, -, hlines⟩ := written_rows_found rfl blankGraph_isEmpty
    ListGraph.isAstar_search hwritten (by decide : 0 ≠ 2) (by decide) (by decide)
  have hfirst : reversedRows.vids[0]? = some "2" := by decide
  obtain rfl : "2" = u := Option.some.inj (hfirst.symm.trans hu)
  exact ⟨steps, hlines⟩

end MemoryGraph.Examples
