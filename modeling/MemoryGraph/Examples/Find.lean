import MemoryGraph.Conc.Readers
import MemoryGraph.Examples.Mirror
import MemoryGraph.Examples.Tasks
import MemoryGraph.Petgraph.ListSearch

/-!
# MemoryGraph — finding a path (`find` of `examples/graph.rs`)

The one request that the server takes looks for a path between two nodes, by their indices, and
prints it. It holds a read guard on `inner` from its first line to its last, and indexes the graph
as it prints, which panics out of range. `astar` is petgraph's, and a parameter.

* **`findBetween_answers`** — on a graph with its ends in range and distinct vids, a request never
  panics, and prints a walk through the named graph, or that there is none; **`find_answers`** is
  the case of `find` itself;
* **`requests_answered`** — so it is in every interleaving with calls of the nine operations, for
  one graph between two calls;
* **`find_follows_tables`** — after loading and benign callbacks, requests are answered as the
  tables at that time say.
-/

namespace MemoryGraph.Examples

open MemoryGraph Conc Petgraph Refine

/-! ## The request -/

/-- A line that `find` prints; the times it prints are left out. -/
inductive Line where
  /-- `从 Router 到 Server 的最短距离: {}` -/
  | distance (distance : Int)
  /-- `路径:` -/
  | path
  /-- `  {}: {:?}` -/
  | node (i : Nat) (vid : String)
  /-- `经过的边:` -/
  | edges
  /-- `  {} -> {} (权重: {:?})` -/
  | edge (src dst : String) (weight : Nat)
  /-- `无法从 Router 到达 Server` -/
  | unreachable
  deriving DecidableEq, Repr

variable {G : Type} [Graph G NodeM EdgeM]

/-- `graph[idx].vid`; `none` is the panic on an index out of range. -/
def vidAt (graph : G) (idx : Nat) : Option String := (Graph.nodeWeight graph idx).map NodeM.vid

/-- The nodes of the path, numbered from `i`. -/
def printNodes (graph : G) : Nat → List Nat → Option (List Line)
  | _, [] => some []
  | i, node :: path => do
    let vid ← vidAt graph node
    let lines ← printNodes graph (i + 1) path
    return .node i vid :: lines

section Incidence

variable [Incidence G EdgeM]

/-- The first edge from `src` that leads to `dst`. -/
def printEdge (graph : G) (src dst : Nat) : Option (List Line) :=
  match (Incidence.edges graph src).find? fun edge => edge.target = dst with
  | none => some []
  | some edge => do
    let srcVid ← vidAt graph src
    let dstVid ← vidAt graph dst
    return [.edge srcVid dstVid edge.weight.weight]

/-- The edges of the path. On an empty path, `path.len() - 1` overflows. -/
def printEdges (graph : G) : List Nat → Option (List Line)
  | [] => none
  | [_] => some []
  | src :: dst :: path => do
    let line ← printEdge graph src dst
    let lines ← printEdges graph (dst :: path)
    return line ++ lines

/-- `find`, between any two nodes. Both closures are constant, whatever the comments beside them
say: no edge costs anything, and no distance is estimated. -/
def findBetween (astar : Astar G EdgeM) (startNode targetNode : Nat) (graph : G) :
    Option (List Line) :=
  match astar graph startNode (fun node => node = targetNode) (fun _ => 0) (fun _ => 0) with
  | some (distance, path) => do
    let nodes ← printNodes graph 0 path
    let edges ← printEdges graph path
    return .distance distance :: .path :: nodes ++ .edges :: edges
  | none => some [.unreachable]

/-- `find`. The two indices are the first and the last of the nodes that `write_data` writes. -/
def find (astar : Astar G EdgeM) : G → Option (List Line) := findBetween astar 0 99999

end Incidence

/-! ## What it should print -/

def nodeLines (i : Nat) : List String → List Line
  | [] => []
  | vid :: vids => .node i vid :: nodeLines (i + 1) vids

def edgeLines (src : String) : List (EdgeM × String) → List Line
  | [] => []
  | (edge, dst) :: steps => .edge src dst edge.weight :: edgeLines dst steps

/-- The walk that starts at `u`, printed. Edges cost nothing. -/
def report (u : String) (steps : List (EdgeM × String)) : List Line :=
  .distance 0 :: .path :: nodeLines 0 (u :: steps.map Prod.snd) ++ .edges :: edgeLines u steps

/-- The lines show a walk between the two places of `vids`, or say that there is none. -/
def Answers (vids : List String) (R : String → String → EdgeM → Prop) (startNode targetNode : Nat)
    (lines : List Line) : Prop :=
  (∃ u v steps, vids[startNode]? = some u ∧ vids[targetNode]? = some v ∧ Walk R u steps v ∧
    lines = report u steps) ∨
  ((∀ u v steps, vids[startNode]? = some u → vids[targetNode]? = some v → ¬ Walk R u steps v) ∧
    lines = [.unreachable])

/-- There is an edge from the one vid to the other. Without directions, one from the other to the
one is one. -/
def Joined (s : Store G) (u v : String) (edge : EdgeM) : Prop :=
  ⟨u, v, edge⟩ ∈ s.named.links ∨ Graph.isDirected G = false ∧ ⟨v, u, edge⟩ ∈ s.named.links

/-! ## By indices and by vids -/

section Names

variable {s : Store G} {a b : Nat} {u v : String} {edge : EdgeM}

/-- An edge with its ends in range shows as a link between the vids there. -/
theorem link_of_mem {a b : Nat} (h : EndsInRange s.inner)
    (hmem : ⟨edge, a, b⟩ ∈ Graph.rawEdges s.inner) : ∃ u v, s.vids[a]? = some u ∧
      s.vids[b]? = some v ∧ (⟨u, v, edge⟩ : LiveEdge) ∈ s.named.links := by
  obtain ⟨l, hl⟩ := h.exists_link NodeM.vid hmem
  obtain ⟨ha, hb, rfl⟩ := link?_eq_some.mp hl
  exact ⟨l.source, l.target, ha, hb, List.mem_filterMap.mpr ⟨_, hmem, hl⟩⟩

/-- A link comes from an edge between indices of its vids. -/
theorem exists_of_link (hmem : (⟨u, v, edge⟩ : LiveEdge) ∈ s.named.links) :
    ∃ a b, s.vids[a]? = some u ∧ s.vids[b]? = some v ∧
      ⟨edge, a, b⟩ ∈ Graph.rawEdges s.inner := by
  obtain ⟨⟨weight, a, b⟩, he, hl⟩ := List.mem_filterMap.mp (Multiset.mem_coe.mp hmem)
  obtain ⟨ha, hb, rfl⟩ := link?_eq_some.mp hl
  exact ⟨a, b, ha, hb, he⟩

/-- A vid has one place. -/
theorem place_unique (hvids : s.vids.Nodup) (ha : s.vids[a]? = some u) (hb : s.vids[b]? = some u) :
    a = b :=
  (List.getElem?_inj (List.getElem?_eq_some_iff.mp ha).1 hvids).mp (ha.trans hb.symm)

theorem exists_vid_of_joins (h : EndsInRange s.inner) (hjoins : Joins s.inner a b edge) :
    ∃ u, s.vids[a]? = some u := by
  rcases hjoins with hmem | ⟨-, hmem⟩
  · obtain ⟨u, v, hu, -, -⟩ := link_of_mem h hmem
    exact ⟨u, hu⟩
  · obtain ⟨v, u, -, hu, -⟩ := link_of_mem h hmem
    exact ⟨u, hu⟩

/-- A step by indices is a step by vids. -/
theorem joined_of_joins (h : EndsInRange s.inner) (hjoins : Joins s.inner a b edge)
    (hu : s.vids[a]? = some u) : ∃ v, s.vids[b]? = some v ∧ Joined s u v edge := by
  rcases hjoins with hmem | ⟨hundirected, hmem⟩
  · obtain ⟨u', v, hu', hv, hlink⟩ := link_of_mem h hmem
    obtain rfl : u = u' := Option.some.inj (hu.symm.trans hu')
    exact ⟨v, hv, Or.inl hlink⟩
  · obtain ⟨v, u', hv, hu', hlink⟩ := link_of_mem h hmem
    obtain rfl : u = u' := Option.some.inj (hu.symm.trans hu')
    exact ⟨v, hv, Or.inr ⟨hundirected, hlink⟩⟩

/-- A step by vids is a step by indices, because a vid has one index. -/
theorem joins_of_joined (hvids : s.vids.Nodup) (hjoined : Joined s u v edge)
    (hu : s.vids[a]? = some u) : ∃ b, s.vids[b]? = some v ∧ Joins s.inner a b edge := by
  rcases hjoined with hlink | ⟨hundirected, hlink⟩
  · obtain ⟨a', b, hu', hv, hmem⟩ := exists_of_link hlink
    obtain rfl := place_unique hvids hu hu'
    exact ⟨b, hv, Or.inl hmem⟩
  · obtain ⟨b, a', hv, hu', hmem⟩ := exists_of_link hlink
    obtain rfl := place_unique hvids hu hu'
    exact ⟨b, hv, Or.inr ⟨hundirected, hmem⟩⟩

end Names

/-! ## One request -/

section Laws

variable [LawfulGraph G] [Incidence G EdgeM] [LawfulIncidence G] {s : Store G}

omit [Incidence G EdgeM] [LawfulIncidence G] in
/-- `graph[idx].vid` is the vid at the index, and panics where there is none. -/
theorem vidAt_eq (s : Store G) (idx : Nat) : vidAt s.inner idx = s.vids[idx]? := by
  rw [vidAt, LawfulGraph.nodeWeight_eq, Store.vids, List.getElem?_map]

/-- A walk by indices is printed as a walk by vids. The edges that are printed need not be those
of the search. -/
theorem prints_walk (h : EndsInRange s.inner) {a b : Nat} {steps : List (EdgeRef EdgeM × Nat)}
    (hwalk : Walk (Leads s.inner) a steps b) {u : String} (hu : s.vids[a]? = some u) :
    ∃ steps' v, Walk (Joined s) u steps' v ∧ s.vids[b]? = some v ∧
      (∀ i, printNodes s.inner i (a :: steps.map Prod.snd)
        = some (nodeLines i (u :: steps'.map Prod.snd))) ∧
      printEdges s.inner (a :: steps.map Prod.snd) = some (edgeLines u steps') := by
  induction hwalk generalizing u with
  | nil a =>
    refine ⟨[], u, .nil u, hu, fun i => ?_, rfl⟩
    simp [printNodes, vidAt_eq, hu, nodeLines]
  | @cons a b c r steps hstep _ ih =>
    -- the search came along some edge to `b`, so there is a first one
    obtain ⟨r', hfirst⟩ : ∃ r', (Incidence.edges s.inner a).find? (fun edge => edge.target = b)
        = some r' := by
      rw [← Option.isSome_iff_exists, List.find?_isSome]
      exact ⟨r, hstep.1, by simpa using hstep.2⟩
    have hleads : Leads s.inner a b r' :=
      ⟨List.mem_of_find?_eq_some hfirst, by simpa using List.find?_some hfirst⟩
    obtain ⟨v, hv, hjoined⟩ := joined_of_joins h (joins_of_leads hleads) hu
    obtain ⟨steps', w, hrest, hw, hnodes, hedges⟩ := ih hv
    refine ⟨(r'.weight, v) :: steps', w, .cons hjoined hrest, hw, fun i => ?_, ?_⟩
    · rw [List.map_cons, printNodes, hnodes, vidAt_eq, hu]
      rfl
    · rw [List.map_cons, printEdges, hedges, printEdge, hfirst]
      simp [vidAt_eq, hu, hv, edgeLines]

/-- **Request.** Between two different places, a request is answered without a panic. -/
theorem findBetween_answers (h : EndsInRange s.inner) (hvids : s.vids.Nodup)
    {astar : Astar G EdgeM} (hastar : IsAstar astar) {startNode targetNode : Nat}
    (hne : startNode ≠ targetNode) :
    ∃ lines, findBetween astar startNode targetNode s.inner = some lines ∧
      Answers s.vids (Joined s) startNode targetNode lines := by
  unfold findBetween
  cases hfound : astar s.inner startNode (fun node => node = targetNode) (fun _ => 0)
      fun _ => 0 with
  | none =>
    refine ⟨_, rfl, Or.inr ⟨fun u v steps hu hv hwalk => ?_, rfl⟩⟩
    obtain ⟨steps', b, hwalk', hb⟩ := hwalk.simulate (N := fun vid idx => s.vids[idx]? = some vid)
      (fun hjoined ha => by
        obtain ⟨b, hb, hjoins⟩ := joins_of_joined hvids hjoined ha
        exact ⟨b, hb, _, leads_of_joins hjoins⟩) hu
    obtain rfl := place_unique hvids hb hv
    have hmissed := hastar.missed (fun _ => le_rfl)
      (admissible_zero _ _ fun _ => le_rfl) hfound hwalk'
    simp at hmissed
  | some found =>
    obtain ⟨distance, path⟩ := found
    obtain ⟨steps, goal, hwalk, hgoal, rfl, rfl⟩ := hastar.found (fun _ => le_rfl)
      (admissible_zero _ _ fun _ => le_rfl) hfound
    obtain rfl : goal = targetNode := by simpa using hgoal
    -- the places are different, so there is a first edge, and its ends are in range
    obtain ⟨u, hu⟩ : ∃ u, s.vids[startNode]? = some u := by
      cases hwalk with
      | nil => exact absurd rfl hne
      | cons hstep _ => exact exists_vid_of_joins h (joins_of_leads hstep)
    obtain ⟨steps', v, hwalk', hv, hnodes, hedges⟩ := prints_walk h hwalk hu
    refine ⟨report u steps', ?_, Or.inl ⟨u, v, steps', hu, hv, hwalk', rfl⟩⟩
    simp [hnodes, hedges, report, pathCost_free]

/-- **`find`.** The two indices of the code are different, so `find` is answered without a panic. -/
theorem find_answers (h : EndsInRange s.inner) (hvids : s.vids.Nodup) {astar : Astar G EdgeM}
    (hastar : IsAstar astar) : ∃ lines, find astar s.inner = some lines ∧
      Answers s.vids (Joined s) 0 99999 lines :=
  findBetween_answers h hvids hastar (by decide)

/-! ## Requests among calls -/

end Laws

/-- What a client of the graph can ask for: a call, or a path. -/
inductive Request where
  | call (op : Op)
  | find (startNode targetNode : Nat)

namespace Request

def op? : Request → Option Op
  | call op => some op
  | find _ _ => none

variable [Incidence G EdgeM]

/-- `find` runs with a read guard on `inner`. -/
def proc (astar : Astar G EdgeM) (segment : String) :
    Request → Proc (Store G) Lock (Reply ⊕ Option (List Line))
  | call op => (op.call segment).map Sum.inl
  | find startNode targetNode =>
    .look [(.inner, .read)] fun s => .inr (findBetween astar startNode targetNode s.inner)

/-- A request for a path is a single section, so it takes effect there. -/
theorem commits_proc (astar : Astar G EdgeM) (segment : String) (request : Request) :
    (request.proc astar segment : Proc (Store G) Lock _).Commits Extends := by
  cases request with
  | call op => exact (commits_call op).map
  | find startNode targetNode => exact Proc.commits_look _ _

/-- Requests that look for a path change nothing. -/
theorem store_runAll (astar : Astar G EdgeM) (segment : String) (requests : List Request)
    (s : Store G) : (Proc.runAll (requests.map (proc astar segment)) s).1
      = (runAll segment (requests.filterMap op?) s).1 := by
  induction requests generalizing s with
  | nil => rfl
  | cons request requests ih =>
    rw [List.map_cons, Proc.runAll_cons, ih]
    cases request with
    | call op => rw [proc, Proc.run_map]; rfl
    | find startNode targetNode => rw [proc, Proc.run_look]; rfl

end Request

section Requests

variable [LawfulGraph G] [Incidence G EdgeM] [LawfulIncidence G] {ι : Type} [DecidableEq ι]

/-- **Requests.** Calls of the nine operations and requests for paths run concurrently on an
instance whose edges have their ends in range and whose vids are distinct, and all in
`node_cache`, as it is after `new` over an empty graph. In every interleaving,
those that have replied can be put in one order, consistent with real time, such that the graph
is the one that the calls of the order leave, and each call and each request replies what it
replies on the graph that the calls in front of it leave. No request panics between two different
places, and what it prints is a walk through that graph, or that there is none. -/
theorem requests_answered {astar : Astar G EdgeM} (hastar : IsAstar astar)
    {self : GraphInstance G} (hends : EndsInRange self.store.inner) (hvids : Distinct self.store)
    {requests : ι → Request} {tr : List (Event ι)}
    {c : Config ι (Store G) Lock (Reply ⊕ Option (List Line))}
    (hrun : Run (fun t => (requests t).proc astar self.segment) self.store tr c) :
    ∃ order : List ι, order.Nodup ∧ (∀ t, t ∈ order ↔ (c.phase t).reply?.isSome) ∧
      (∀ a b, ReturnedBefore tr a b → b ∈ order → [a, b].Sublist order) ∧
      (self.runAll (order.filterMap fun t => (requests t).op?)).1 = c.store ∧
      ∀ pre t post, order = pre ++ t :: post →
        let before := (self.runAll (pre.filterMap fun t => (requests t).op?)).1
        (∀ op, requests t = .call op →
          (c.phase t).reply? = some (.inl (op.run self.segment before).2)) ∧
        ∀ startNode targetNode, requests t = .find startNode targetNode →
          startNode ≠ targetNode → ∃ lines, (c.phase t).reply? = some (.inr (some lines)) ∧
            Answers before.vids (Joined before) startNode targetNode lines := by
  obtain ⟨order, hlin⟩ := hrun.linearizable fun t => (requests t).commits_proc astar self.segment
  have hstore : ∀ ts : List ι, (Proc.runAll (ts.map fun t =>
      (requests t).proc astar self.segment) self.store).1
        = (self.runAll (ts.filterMap fun t => (requests t).op?)).1 := fun ts => by
    have h := Request.store_runAll astar self.segment (ts.map requests) self.store
    rwa [List.map_map, List.filterMap_map] at h
  refine ⟨order, hlin.nodup, hlin.mem_iff, hlin.realTime, ?_, fun pre t post horder => ?_⟩
  · rw [← hstore, hlin.store_eq]
  -- the reply is that of the request, run on what the requests in front of it leave
  · have hreply := hlin.reply_at horder
    rw [hstore] at hreply
    refine ⟨fun op hop => ?_, fun startNode targetNode hfind hne => ?_⟩
    · rw [hreply, hop, Request.proc, Proc.run_map]
      rfl
    · obtain ⟨lines, hlines, hanswers⟩ := findBetween_answers
        (endsInRange_runAll hends (pre.filterMap fun t => (requests t).op?))
        (hvids.runAll (pre.filterMap fun t => (requests t).op?)).nodup hastar hne
      refine ⟨lines, ?_, hanswers⟩
      rw [hreply, hfind, Request.proc, Proc.run_look]
      exact congrArg (fun out => some (Sum.inr out)) hlines

end Requests

/-- A path is looked for while the only edge is removed. -/
def halfway : Fin 2 → Request
  | 0 => .find 0 1
  | 1 => .call (.removeEdgeByNode "a" "b")

/-- The request comes between the two sections of the removal, and the edge is still there. -/
theorem halfway_answered : ∃ c, Run
    (fun t => (halfway t).proc ListGraph.search (loadedGraph blankGraph pair).segment)
    (loadedGraph blankGraph pair).store [.begin 0, .begin 1, .enter 1, .enter 0, .enter 1] c ∧
    (c.phase 0).reply? = some (.inr (some
      [.distance 0, .path, .node 0 "a", .node 1 "b", .edges, .edge "a" "b" 1])) ∧
    ∃ order : List (Fin 2), order.Nodup ∧ (∀ t, t ∈ order) ∧
      ((loadedGraph blankGraph pair).runAll (order.filterMap fun t => (halfway t).op?)).1
        = c.store := by
  have hrun : ∃ c, Run
      (fun t => (halfway t).proc ListGraph.search (loadedGraph blankGraph pair).segment)
      (loadedGraph blankGraph pair).store [.begin 0, .begin 1, .enter 1, .enter 0, .enter 1] c ∧
      (∀ t, (c.phase t).reply?.isSome) ∧ (c.phase 0).reply? = some (.inr (some
        [.distance 0, .path, .node 0 "a", .node 1 "b", .edges, .edge "a" "b" 1])) :=
    ⟨_, Run.of_replay rfl, fun t => match t with | 0 | 1 => rfl, rfl⟩
  obtain ⟨c, hrun, hall, hlines⟩ := hrun
  have hmirrored : Mirrored (loadedGraph blankGraph pair).store pair :=
    (Copied.of_loaded (loaded_afterLoading blankGraph_isEmpty pair_sound)).mirrored
  obtain ⟨order, hnodup, hmem, -, hstore, -⟩ := requests_answered ListGraph.isAstar_search
    hmirrored.inRange hmirrored.distinct hrun
  exact ⟨c, hrun, hlines, order, hnodup, fun t => (hmem t).mpr (hall t), hstore⟩

/-! ## Requests after callbacks -/

/-- An edge row has the two vids, in either order. -/
def Tables.Neighbours (T : Tables) (u v : String) : Prop := (u, v) ∈ T.ends ∨ (v, u) ∈ T.ends

/-- In a graph with the content of the tables, two vids are joined exactly if an edge row has them.
-/
theorem exists_joined_iff {s : Store G} {T : Tables} (h : Mirrored s T)
    (hundirected : Graph.isDirected G = false) {u v : String} :
    (∃ edge, Joined s u v edge) ↔ T.Neighbours u v := by
  have hlink : ∀ u v, (∃ edge, (⟨u, v, edge⟩ : LiveEdge) ∈ s.named.links) ↔
      (u, v) ∈ T.ends := by
    intro u v
    have hmem : (u, v) ∈ s.content.ends ↔ (u, v) ∈ T.content.ends := by rw [h.content]
    refine Iff.trans ?_ hmem
    constructor
    · rintro ⟨edge, hlink⟩
      exact Multiset.mem_map_of_mem linkEnds hlink
    · intro hends
      have hmap : (u, v) ∈ s.named.links.map linkEnds := hends
      obtain ⟨⟨u', v', edge⟩, hlink, heq⟩ := Multiset.mem_map.mp hmap
      obtain ⟨rfl, rfl⟩ := Prod.mk.inj heq
      exact ⟨edge, hlink⟩
  simp only [Joined, hundirected, true_and, exists_or, hlink, Tables.Neighbours]

/-- Which edge joins two vids does not matter to whether a walk does. -/
theorem Answers.unlabelled {vids : List String} {R : String → String → EdgeM → Prop}
    {P : String → String → Prop} (h : ∀ u v, (∃ edge, R u v edge) ↔ P u v)
    {startNode targetNode : Nat} {lines : List Line}
    (hanswers : Answers vids R startNode targetNode lines) :
    Answers vids (fun u v _ => P u v) startNode targetNode lines := by
  refine hanswers.imp ?_ ?_
  · rintro ⟨u, v, steps, hu, hv, hwalk, rfl⟩
    exact ⟨u, v, steps, hu, hv, hwalk.mono fun hstep => (h _ _).mp ⟨_, hstep⟩, rfl⟩
  · rintro ⟨hnone, rfl⟩
    refine ⟨fun u v steps hu hv hwalk => ?_, rfl⟩
    obtain ⟨steps', v', hwalk', rfl⟩ := hwalk.simulate (N := Eq)
      (fun {_ v _ _} hstep hu => ⟨v, rfl, (h _ _).mpr (hu ▸ hstep)⟩) rfl
    exact hnone u v steps' hu hv hwalk'

variable (parseAsString : List UInt8 → Parsed) (textOf : List UInt8 → String)

/-- **Paths in the tables.** Sound tables are loaded, and the watcher is fed a stream in which every
table number is bound to a single table and that deletes no row of the two tables. It spawns the
calls of the callbacks. Where they run in order, every callback benign where it comes, a request
between two different places after any of them is answered as the tables at that time say: it
prints a path from the node row at the one place to the node row at the other along edge rows, or
that there is none. -/
theorem find_follows_tables [LawfulGraph G] [Incidence G EdgeM] [LawfulIncidence G]
    (hundirected : Graph.isDirected G = false) {g : G} (hg : Graph.IsEmpty g) {T : Tables}
    (hT : T.Sound) {astar : Astar G EdgeM} (hastar : IsAstar astar)
    {stream : List (EventData RowEvent)} (hbound : BoundOnce stream)
    (hdeletes : ∀ c ∈ callbacksOf parseAsString stream, c.tag ≠ 3)
    (hbenign : ∀ pre c, pre ++ [c] <+: callbacksOf parseAsString stream →
      Benign parseAsString textOf (pre.all (survives parseAsString))
        (pre.foldl (Tables.follow textOf) T) c) :
    (((binlog parseAsString).feed stream).run.run []).2
      = callsOf parseAsString (callbacksOf parseAsString stream) ∧
    ∀ pre, pre <+: callbacksOf parseAsString stream → ∀ startNode targetNode,
      startNode ≠ targetNode → ∃ lines, findBetween astar startNode targetNode
          (runAll "_" (callsOf parseAsString pre) (afterLoading g T)).1.inner = some lines ∧
        Answers (pre.foldl (Tables.follow textOf) T).vids
          (fun u v _ => (pre.foldl (Tables.follow textOf) T).Neighbours u v)
          startNode targetNode lines := by
  refine ⟨(feed_spawns parseAsString hbound []).1, fun pre hpre startNode targetNode hne => ?_⟩
  have hcopied := (copied_iff_benign parseAsString textOf hg hT hdeletes).mpr hbenign pre hpre
  have hmirrored := hcopied.mirrored
  obtain ⟨lines, hlines, hanswers⟩ :=
    findBetween_answers hmirrored.inRange hmirrored.distinct.nodup hastar hne
  -- a copy has the vids at the places of the rows, and joins what edge rows join
  rw [show Store.vids _ = _ from hcopied.vids] at hanswers
  exact ⟨lines, hlines, hanswers.unlabelled fun u v => exists_joined_iff hmirrored hundirected⟩

/-- The first node and the one that is inserted last are joined by way of the second. -/
theorem crossing_found : ∃ lines, findBetween ListGraph.search 0 2
    (runAll "_" (callsOf parseAscii (callbacksOf parseAscii crossing))
      (afterLoading blankGraph pair)).1.inner = some lines ∧ lines ≠ [.unreachable] := by
  have hcallbacks : callbacksOf parseAscii crossing = [⟨.node, 1, [⟨[.long 3, .string [99]]⟩]⟩,
      ⟨.edge, 1, [⟨[.long 2, .string [98], .string [99]]⟩]⟩] := by decide
  have hdeletes : ∀ c ∈ callbacksOf parseAscii crossing, c.tag ≠ 3 := by decide
  have hbenign : ∀ pre c, pre ++ [c] <+: callbacksOf parseAscii crossing →
      Benign parseAscii asciiText (pre.all (survives parseAscii))
        (pre.foldl (Tables.follow asciiText) pair) c := by
    rw [hcallbacks, forall_prefix_cons, forall_prefix_cons]
    exact ⟨⟨fun _ => by decide, fun h => absurd h (by decide)⟩,
      ⟨fun _ => by decide, fun h => absurd h (by decide)⟩, forall_prefix_nil⟩
  obtain ⟨-, hall⟩ := find_follows_tables parseAscii asciiText rfl blankGraph_isEmpty pair_sound
    ListGraph.isAstar_search (by decide) hdeletes hbenign
  obtain ⟨lines, hlines, hanswers⟩ := hall _ List.prefix_rfl 0 2 (by decide)
  refine ⟨lines, hlines, ?_⟩
  rcases hanswers with ⟨u, v, steps, -, -, -, rfl⟩ | ⟨hnone, -⟩
  · simp [report]
  · rw [hcallbacks] at hnone
    exact absurd (.cons (Or.inl (by decide)) (.cons (Or.inl (by decide)) (.nil "c")))
      (hnone "a" "c" [(⟨0, "", "", ∅⟩, "b"), (⟨0, "", "", ∅⟩, "c")] (by decide) (by decide))

end MemoryGraph.Examples
