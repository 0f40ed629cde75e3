import Mathlib.Data.List.Nodup
import Mathlib.Logic.Relation
import MemoryGraph.Petgraph.Interface

/-!
# Petgraph — walks, and searches for them

A walk goes from place to place by labelled steps. What petgraph documents about `edges` and
`astar` is stated with walks (`LawfulIncidence`, `IsAstar`): a search comes back with a walk to a
goal and its cost, or there is no such walk. That the walk is a cheapest one is left out.

* **`Walk.simulate`** — walks of node indices and walks of node names carry over to each other;
* **`Walk.exists_simple`** — where there is a walk, there is one that comes to no place twice.
-/

namespace Petgraph

variable {V W E F : Type}

/-- `Walk R u steps v`: from `u`, the steps lead to `v`. A step is its label and the place that it
goes to. -/
inductive Walk (R : V → V → E → Prop) : V → List (E × V) → V → Prop where
  | nil (u : V) : Walk R u [] u
  | cons {u v w : V} {e : E} {steps : List (E × V)} (hstep : R u v e) (hrest : Walk R v steps w) :
      Walk R u ((e, v) :: steps) w

namespace Walk

variable {R : V → V → E → Prop} {R' : W → W → F → Prop} {u v : V} {steps : List (E × V)}

theorem mono {R' : V → V → E → Prop} (hstep : ∀ {u v e}, R u v e → R' u v e)
    (h : Walk R u steps v) : Walk R' u steps v := by
  induction h with
  | nil u => exact .nil u
  | cons hhead _ ih => exact .cons (hstep hhead) ih

/-- Where every step has its counterpart in `R'`, between places in the relation `N`, so has a
walk. -/
theorem simulate {N : V → W → Prop}
    (hstep : ∀ {u v e u'}, R u v e → N u u' → ∃ v', N v v' ∧ ∃ e', R' u' v' e')
    (h : Walk R u steps v) {u' : W} (hu : N u u') : ∃ steps' v', Walk R' u' steps' v' ∧ N v v' := by
  induction h generalizing u' with
  | nil u => exact ⟨[], u', .nil u', hu⟩
  | cons hhead _ ih =>
    obtain ⟨v', hv, e', hhead'⟩ := hstep hhead hu
    obtain ⟨steps', w', hrest', hw⟩ := ih hv
    exact ⟨_, w', .cons hhead' hrest', hw⟩

/-- What is left of a walk from a place on it. -/
theorem from_mem (h : Walk R u steps v) {w : V} (hw : w ∈ u :: steps.map Prod.snd) :
    ∃ steps', Walk R w steps' v ∧
      (w :: steps'.map Prod.snd) <:+ (u :: steps.map Prod.snd) := by
  induction h with
  | nil u =>
    obtain rfl : w = u := by simpa using hw
    exact ⟨[], .nil w, List.suffix_rfl⟩
  | @cons u v₁ v e steps hstep hrest ih =>
    rcases List.mem_cons.mp hw with rfl | hw
    · exact ⟨_, .cons hstep hrest, List.suffix_rfl⟩
    · obtain ⟨steps', hwalk, hsuffix⟩ := ih hw
      exact ⟨steps', hwalk, hsuffix.trans (List.suffix_cons u _)⟩

/-- Without its loops, a walk comes to no place twice. -/
theorem exists_simple (h : Walk R u steps v) :
    ∃ steps', Walk R u steps' v ∧ (u :: steps'.map Prod.snd).Nodup := by
  induction h with
  | nil u => exact ⟨[], .nil u, List.nodup_singleton u⟩
  | @cons u v₁ v e steps hstep _ ih =>
    obtain ⟨steps', hwalk, hnodup⟩ := ih
    by_cases hu : u ∈ v₁ :: steps'.map Prod.snd
    -- the walk comes back to its start, and the rest from there is one
    · obtain ⟨rest, hrest, hsuffix⟩ := hwalk.from_mem hu
      exact ⟨rest, hrest, hnodup.sublist hsuffix.sublist⟩
    · exact ⟨_, .cons hstep hwalk, List.nodup_cons.mpr ⟨hu, hnodup⟩⟩

end Walk

/-- What can be reached can be walked to. -/
theorem exists_walk_of_reflTransGen {R : V → V → E → Prop} {u v : V}
    (h : Relation.ReflTransGen (fun u v => ∃ e, R u v e) u v) : ∃ steps, Walk R u steps v := by
  induction h using Relation.ReflTransGen.head_induction_on with
  | refl => exact ⟨[], .nil v⟩
  | head hstep _ ih =>
    obtain ⟨e, hstep⟩ := hstep
    obtain ⟨steps, hrest⟩ := ih
    exact ⟨_, .cons hstep hrest⟩

/-! ## The edges of a node -/

/-- petgraph's `EdgeReference<E>`. -/
structure EdgeRef (E : Type) where
  source : Nat
  target : Nat
  weight : E
  deriving DecidableEq

class Incidence (G : Type) {N : outParam Type} (E : outParam Type) [Graph G N E] where
  /-- `edges(a)`. -/
  edges : G → Nat → List (EdgeRef E)

variable {G N : Type} [Graph G N E]

/-- There is an edge from `a` to `b`. Without directions, one from `b` to `a` is one. -/
def Joins (g : G) (a b : Nat) (e : E) : Prop :=
  ⟨e, a, b⟩ ∈ Graph.rawEdges g ∨ Graph.isDirected G = false ∧ ⟨e, b, a⟩ ∈ Graph.rawEdges g

/-- What petgraph documents about `edges`: the edges from `a`, without directions all that are
connected to `a`, with `a` as their source. -/
class LawfulIncidence (G : Type) {N E : outParam Type} [Graph G N E] [Incidence G E] : Prop where
  mem_edges {g : G} {a : Nat} {r : EdgeRef E} :
    r ∈ Incidence.edges g a ↔ r.source = a ∧ Joins g a r.target r.weight

variable [Incidence G E]

/-- The edge is one that a search goes along from `a` to `b`. -/
def Leads (g : G) (a b : Nat) (r : EdgeRef E) : Prop := r ∈ Incidence.edges g a ∧ r.target = b

/-- The arguments of `astar`, and its reply: the cost and the nodes of a path. -/
abbrev Astar (G E : Type) : Type :=
  G → Nat → (Nat → Bool) → (EdgeRef E → Int) → (Nat → Int) → Option (Int × List Nat)

/-- What the edges of a path cost together. -/
def pathCost (edgeCost : EdgeRef E → Int) : List (EdgeRef E × Nat) → Int
  | [] => 0
  | (r, _) :: steps => edgeCost r + pathCost edgeCost steps

/-- A path costs nothing where its edges do not. -/
theorem pathCost_free (steps : List (EdgeRef E × Nat)) : pathCost (fun _ => 0) steps = 0 := by
  induction steps with
  | nil => rfl
  | cons step steps ih => rw [pathCost, ih, Int.zero_add]

theorem pathCost_nonneg {edgeCost : EdgeRef E → Int} (hcost : ∀ r, 0 ≤ edgeCost r)
    (steps : List (EdgeRef E × Nat)) : 0 ≤ pathCost edgeCost steps := by
  induction steps with
  | nil => exact Int.le_refl 0
  | cons step steps ih => exact Int.add_nonneg (hcost step.1) ih

/-- The estimate is nowhere above what a walk from there to a goal costs. -/
def Admissible (g : G) (isGoal : Nat → Bool) (edgeCost : EdgeRef E → Int)
    (estimateCost : Nat → Int) : Prop :=
  ∀ a steps goal, Walk (Leads g) a steps goal → isGoal goal = true →
    estimateCost a ≤ pathCost edgeCost steps

/-- The estimate that makes `astar` Dijkstra's search. -/
theorem admissible_zero (g : G) (isGoal : Nat → Bool) {edgeCost : EdgeRef E → Int}
    (hcost : ∀ r, 0 ≤ edgeCost r) : Admissible g isGoal edgeCost fun _ => 0 :=
  fun _ steps _ _ _ => pathCost_nonneg hcost steps

/-- What petgraph documents about `astar`, where no edge costs less than nothing and the estimate
is admissible: a path from the start to a goal with its cost, if there is one. -/
structure IsAstar (astar : Astar G E) : Prop where
  found {g : G} {start : Nat} {isGoal : Nat → Bool} {edgeCost : EdgeRef E → Int}
    {estimateCost : Nat → Int} {cost : Int} {path : List Nat} (hcost : ∀ r, 0 ≤ edgeCost r)
    (hestimate : Admissible g isGoal edgeCost estimateCost)
    (h : astar g start isGoal edgeCost estimateCost = some (cost, path)) :
    ∃ steps goal, Walk (Leads g) start steps goal ∧ isGoal goal = true ∧
      path = start :: steps.map Prod.snd ∧ cost = pathCost edgeCost steps
  missed {g : G} {start : Nat} {isGoal : Nat → Bool} {edgeCost : EdgeRef E → Int}
    {estimateCost : Nat → Int} (hcost : ∀ r, 0 ≤ edgeCost r)
    (hestimate : Admissible g isGoal edgeCost estimateCost)
    (h : astar g start isGoal edgeCost estimateCost = none)
    {steps : List (EdgeRef E × Nat)} {b : Nat} (hwalk : Walk (Leads g) start steps b) :
    isGoal b = false

/-- A step of the search goes along an edge of the graph. -/
theorem joins_of_leads [LawfulIncidence G] {g : G} {a b : Nat} {r : EdgeRef E} (h : Leads g a b r) :
    Joins g a b r.weight := by
  obtain ⟨hmem, rfl⟩ := h
  exact (LawfulIncidence.mem_edges.mp hmem).2

/-- Every edge of the graph gives a step, in the direction it may be gone. -/
theorem leads_of_joins [LawfulIncidence G] {g : G} {a b : Nat} {e : E} (h : Joins g a b e) :
    Leads g a b ⟨a, b, e⟩ :=
  ⟨LawfulIncidence.mem_edges.mpr ⟨rfl, h⟩, rfl⟩

end Petgraph
