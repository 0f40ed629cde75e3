import MemoryGraph.Petgraph.ListGraph
import MemoryGraph.Petgraph.Walks

/-!
# Petgraph — searching a list graph

The list graph with the edges of a node, and a search on it that goes through the simple paths one
by one. The edges are as petgraph documents them (`instLawfulIncidence`), and so is the search
(`isAstar_search`): nothing assumed about them is contradictory, and searches can be evaluated.

petgraph promises no order of the edges of a node, and its own is another one: without directions it
lists the edges that leave the node before those that come in, the newest first in both, where
the list graph keeps the order of insertion. No law mentions the order. A run on the list graph
may so print another of several parallel edges than a run on petgraph.
-/

namespace Petgraph

namespace ListGraph

variable {directed : Bool} {N E : Type}

/-- The edge as one that leaves `a`. -/
def leaving (directed : Bool) (a : Nat) (e : Edge E) : Option (EdgeRef E) :=
  if e.source = a then some ⟨a, e.target, e.weight⟩
  else if directed = false ∧ e.target = a then some ⟨a, e.source, e.weight⟩
  else none

instance : Incidence (ListGraph directed N E) E where
  edges g a := g.edges.filterMap (leaving directed a)

/-- An edge leaves the node at its source and, without directions, the one at its target. -/
theorem leaving_eq_some {a : Nat} {e : Edge E} {r : EdgeRef E} :
    leaving directed a e = some r ↔ r.source = a ∧
      (e = ⟨r.weight, a, r.target⟩ ∨ directed = false ∧ e = ⟨r.weight, r.target, a⟩) := by
  obtain ⟨weight, source, target⟩ := e
  obtain ⟨from_, to_, weight'⟩ := r
  unfold leaving
  split_ifs <;> grind

instance instLawfulIncidence : LawfulIncidence (ListGraph directed N E) where
  mem_edges {g a r} := by
    have hmem : r ∈ Incidence.edges g a ↔ ∃ e ∈ g.edges, leaving directed a e = some r :=
      List.mem_filterMap
    rw [hmem, Joins]
    simp only [leaving_eq_some]
    constructor
    · rintro ⟨e, he, rfl, rfl | ⟨hdirected, rfl⟩⟩
      · exact ⟨rfl, Or.inl he⟩
      · exact ⟨rfl, Or.inr ⟨hdirected, he⟩⟩
    · rintro ⟨rfl, he | ⟨hdirected, he⟩⟩
      · exact ⟨_, he, rfl, Or.inl rfl⟩
      · exact ⟨_, he, rfl, Or.inr ⟨hdirected, rfl⟩⟩

/-! ## Simple paths -/

/-- The steps of the first simple path from `a` to a goal that keeps clear of `seen`; `fuel` bounds
their number. -/
def explore (edges : Nat → List (EdgeRef E)) (isGoal : Nat → Bool) :
    Nat → List Nat → Nat → Option (List (EdgeRef E × Nat))
  | 0, _, a => if isGoal a then some [] else none
  | fuel + 1, seen, a =>
    if isGoal a then some []
    else (edges a).findSome? fun r =>
      if r.target ∈ seen then none
      else (explore edges isGoal fuel (r.target :: seen) r.target).map ((r, r.target) :: ·)

variable {g : ListGraph directed N E} {isGoal : Nat → Bool}

/-- What the search finds is a walk to a goal. -/
theorem explore_walk {fuel a : Nat} {seen : List Nat} {steps : List (EdgeRef E × Nat)}
    (h : explore (Incidence.edges g) isGoal fuel seen a = some steps) :
    ∃ b, Walk (Leads g) a steps b ∧ isGoal b = true := by
  induction fuel generalizing seen a steps with
  | zero =>
    unfold explore at h
    split at h
    · rename_i hgoal
      obtain rfl : [] = steps := by simpa using h
      exact ⟨a, .nil a, hgoal⟩
    · simp at h
  | succ fuel ih =>
    unfold explore at h
    split at h
    · rename_i hgoal
      obtain rfl : [] = steps := by simpa using h
      exact ⟨a, .nil a, hgoal⟩
    -- the search went on along `r`, and found a walk from its other end
    · obtain ⟨r, hr, hfound⟩ := List.exists_of_findSome?_eq_some h
      split at hfound
      · simp at hfound
      · obtain ⟨rest, hrest, rfl⟩ := Option.map_eq_some_iff.mp hfound
        obtain ⟨b, hwalk, hgoal⟩ := ih hrest
        exact ⟨b, .cons ⟨hr, rfl⟩ hwalk, hgoal⟩

/-- A simple path that is short enough is found, or another one. -/
theorem explore_complete {fuel a b : Nat} {seen : List Nat} {steps : List (EdgeRef E × Nat)}
    (hwalk : Walk (Leads g) a steps b) (hgoal : isGoal b = true)
    (hnodup : (steps.map Prod.snd).Nodup) (hclear : ∀ v ∈ steps.map Prod.snd, v ∉ seen)
    (hfuel : steps.length ≤ fuel) :
    (explore (Incidence.edges g) isGoal fuel seen a).isSome := by
  induction hwalk generalizing fuel seen with
  | nil u => cases fuel <;> simp [explore, hgoal]
  | @cons u v w r steps hstep hrest ih =>
    obtain ⟨hr, rfl⟩ := hstep
    obtain ⟨fuel, rfl⟩ : ∃ k, fuel = k + 1 := ⟨fuel - 1, by simp at hfuel; omega⟩
    unfold explore
    split
    · rfl
    · rw [List.map_cons, List.nodup_cons] at hnodup
      rw [List.findSome?_isSome_iff]
      refine ⟨r, hr, ?_⟩
      rw [if_neg (hclear r.target List.mem_cons_self), Option.isSome_map]
      refine ih hgoal hnodup.2 (fun x hx => ?_) (by simpa using hfuel)
      rw [List.mem_cons, not_or]
      exact ⟨fun heq => hnodup.1 (heq ▸ hx), hclear x (List.mem_cons_of_mem _ hx)⟩

/-- The places that edges lead to. -/
def endpoints (g : ListGraph directed N E) : List Nat :=
  g.edges.flatMap fun e => [e.source, e.target]

/-- A step leads to an end of an edge, so there are finitely many nodes to come to. -/
theorem mem_endpoints_of_leads {a b : Nat} {r : EdgeRef E} (h : Leads g a b r) :
    b ∈ g.endpoints := by
  rcases joins_of_leads h with he | ⟨-, he⟩
  · exact List.mem_flatMap.mpr ⟨_, he, by simp⟩
  · exact List.mem_flatMap.mpr ⟨_, he, by simp⟩

theorem mem_endpoints_of_walk {a b : Nat} {steps : List (EdgeRef E × Nat)}
    (h : Walk (Leads g) a steps b) : ∀ v ∈ steps.map Prod.snd, v ∈ g.endpoints := by
  induction h with
  | nil u => simp
  | cons hstep _ ih =>
    rw [List.map_cons, List.forall_mem_cons]
    exact ⟨mem_endpoints_of_leads hstep, ih⟩

/-- A search that goes through the simple paths. The estimate is not used. -/
def search : Astar (ListGraph directed N E) E := fun g start isGoal edgeCost _ =>
  (explore (Incidence.edges g) isGoal g.endpoints.length [start] start).map fun steps =>
    (pathCost edgeCost steps, start :: steps.map Prod.snd)

/-- The search meets what petgraph documents about `astar`: it finds a walk to a goal, with its
cost, or there is none. -/
theorem isAstar_search : IsAstar (search : Astar (ListGraph directed N E) E) where
  found {g start isGoal edgeCost estimateCost cost path} _ _ h := by
    obtain ⟨steps, hfound, heq⟩ := Option.map_eq_some_iff.mp h
    obtain ⟨rfl, rfl⟩ := Prod.mk.inj heq
    obtain ⟨goal, hwalk, hgoal⟩ := explore_walk hfound
    exact ⟨steps, goal, hwalk, hgoal, rfl, rfl⟩
  missed {g start isGoal edgeCost estimateCost} _ _ h {steps b} hwalk := by
    obtain ⟨steps', hsimple, hnodup⟩ := hwalk.exists_simple
    obtain ⟨hstart, hnodup'⟩ := List.nodup_cons.mp hnodup
    have hshort : steps'.length ≤ g.endpoints.length := by
      have hlen := (List.subperm_of_subset hnodup' (mem_endpoints_of_walk hsimple)).length_le
      rwa [List.length_map] at hlen
    rw [← Bool.not_eq_true]
    intro hgoal
    have hclear : ∀ v ∈ steps'.map Prod.snd, v ∉ [start] := fun v hv hv' => by
      rw [List.mem_singleton] at hv'
      exact hstart (hv' ▸ hv)
    have hfound := explore_complete hsimple hgoal hnodup' hclear hshort
    rw [Option.map_eq_none_iff.mp h] at hfound
    simp at hfound

end ListGraph

end Petgraph
