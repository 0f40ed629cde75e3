import Mathlib.Data.List.Basic

/-!
# Refine — a machine against an abstract specification

A machine `step : S → Op → S × R` is compared with an abstract model that has states `M` of
its own. The model says, for each operation, which outcomes it allows (`Allows`) and what its
next state is (`next`), whatever the outcome was. So two questions can be asked of a
sequence of operations: does the machine follow the model all along it (`Follows`), and does
it keep away from the operations that make the two drift apart (`Avoids`)?

* **`Simulation`** — a relation that the harmless operations keep and under which every
  outcome is allowed;
* **`Trap`** — a relation that a harmful operation leads into, that is never left, and in
  which some operation has a forbidden outcome;
* **`follows_next_iff`** — with both, following the model along a sequence and one operation
  more, whichever it is, is the same as avoiding the harmful ones;
* **`follows_iff`** — where a harmful operation shows at once, following is avoiding;
* **`avoids_iff_pairwise`** — where harm is killing a key that is alive, avoiding it is a
  condition on pairs of operations.
-/

namespace Refine

universe u v w x y

variable {M : Type u} {S : Type v} {Op : Type w} {R : Type x}

/-- An abstract model: its next state, and the outcomes it allows. -/
structure Spec (M : Type u) (S : Type v) (Op : Type w) (R : Type x) where
  next : M → Op → M
  Allows : M → Op → S × R → Prop

namespace Spec

/-- A machine as the model: it allows its own result, in a state that looks like its own. -/
def ofMachine (step : M → Op → M × R) (Same : S → M → Prop) : Spec M S Op R where
  next m op := (step m op).1
  Allows m op outcome := outcome.2 = (step m op).2 ∧ Same outcome.1 (step m op).1

variable (spec : Spec M S Op R) (step : S → Op → S × R)

/-- Every outcome along the sequence is one the model allows. -/
def Follows : M → S → List Op → Prop
  | _, _, [] => True
  | m, s, op :: ops => spec.Allows m op (step s op) ∧ Follows (spec.next m op) (step s op).1 ops

/-- No operation of the sequence is bad for the state the model is in. -/
def Avoids (Bad : M → Op → Prop) : M → List Op → Prop
  | _, [] => True
  | m, op :: ops => ¬ Bad m op ∧ Avoids Bad (spec.next m op) ops

/-- `Sim` relates model and machine: all outcomes are allowed, and what is not bad keeps the
relation. Only the operations in `Dom` count. -/
structure Simulation (Dom : Op → Prop) (Bad : M → Op → Prop) (Sim : M → S → Prop) : Prop where
  allows : ∀ {m s op}, Sim m s → Dom op → spec.Allows m op (step s op)
  keeps : ∀ {m s op}, Sim m s → Dom op → ¬ Bad m op → Sim (spec.next m op) (step s op).1

/-- `Broken` is where a bad operation leads: it is never left while outcomes are allowed, and
some operation of `Dom` has an outcome that is not. -/
structure Trap (Dom : Op → Prop) (Bad : M → Op → Prop) (Sim Broken : M → S → Prop) : Prop where
  enters : ∀ {m s op}, Sim m s → Dom op → Bad m op → Broken (spec.next m op) (step s op).1
  stays : ∀ {m s op}, Broken m s → Dom op → spec.Allows m op (step s op) →
    Broken (spec.next m op) (step s op).1
  probe : ∀ {m s}, Broken m s → ∃ op, Dom op ∧ ¬ spec.Allows m op (step s op)

variable {spec step} {Dom : Op → Prop} {Bad : M → Op → Prop} {Sim Broken : M → S → Prop}

/-- Once broken, the machine departs from the model along any sequence, at the latest with one
operation more. -/
theorem Trap.not_follows (htrap : spec.Trap step Dom Bad Sim Broken) {m : M} {s : S}
    (h : Broken m s) {ops : List Op} (hops : ∀ op ∈ ops, Dom op) :
    ∃ op, Dom op ∧ ¬ spec.Follows step m s (ops ++ [op]) := by
  induction ops generalizing m s with
  | nil =>
    obtain ⟨op, hop, hforbidden⟩ := htrap.probe h
    exact ⟨op, hop, fun hfollows => hforbidden hfollows.1⟩
  | cons op ops ih =>
    have hop : Dom op := hops op List.mem_cons_self
    -- either this operation shows the break, or the trap holds and the rest does
    by_cases hallowed : spec.Allows m op (step s op)
    · obtain ⟨op', hop', hfails⟩ :=
        ih (htrap.stays h hop hallowed) fun op' hmem => hops op' (List.mem_cons_of_mem op hmem)
      exact ⟨op', hop', fun hfollows => hfails hfollows.2⟩
    · exact ⟨op, hop, fun hfollows => hallowed hfollows.1⟩

/-- **The exact condition.** From related states, the machine follows the model along `ops`
and any one operation after it if and only if `ops` avoids the bad operations. -/
theorem follows_next_iff (hsim : spec.Simulation step Dom Bad Sim)
    (htrap : spec.Trap step Dom Bad Sim Broken) {m : M} {s : S} (h : Sim m s) {ops : List Op}
    (hops : ∀ op ∈ ops, Dom op) :
    (∀ op, Dom op → spec.Follows step m s (ops ++ [op])) ↔ spec.Avoids Bad m ops := by
  induction ops generalizing m s with
  | nil => exact iff_of_true (fun op hop => ⟨hsim.allows h hop, trivial⟩) trivial
  | cons op ops ih =>
    have hop : Dom op := hops op List.mem_cons_self
    have hrest : ∀ op' ∈ ops, Dom op' := fun op' hmem => hops op' (List.mem_cons_of_mem op hmem)
    by_cases hbad : Bad m op
    · -- the bad operation leads into the trap, and no sequence leads out of it
      obtain ⟨op', hop', hfails⟩ := htrap.not_follows (htrap.enters h hop hbad) hrest
      exact iff_of_false (fun hall => hfails (hall op' hop').2) fun havoids => havoids.1 hbad
    · have hih := ih (hsim.keeps h hop hbad) hrest
      constructor
      · intro hall
        exact ⟨hbad, hih.mp fun op' hop' => (hall op' hop').2⟩
      · rintro ⟨-, havoids⟩ op' hop'
        exact ⟨hsim.allows h hop, hih.mpr havoids op' hop'⟩

/-- Where the outcome of an operation is allowed exactly when the operation is not bad, the
machine follows the model along the sequences that avoid the bad operations and along no other. -/
theorem follows_iff
    (hallows : ∀ {m s op}, Sim m s → Dom op → (spec.Allows m op (step s op) ↔ ¬ Bad m op))
    (hkeeps : ∀ {m s op}, Sim m s → Dom op → ¬ Bad m op → Sim (spec.next m op) (step s op).1)
    {m : M} {s : S} (h : Sim m s) {ops : List Op} (hops : ∀ op ∈ ops, Dom op) :
    spec.Follows step m s ops ↔ spec.Avoids Bad m ops := by
  induction ops generalizing m s with
  | nil => exact Iff.rfl
  | cons op ops ih =>
    have hop : Dom op := hops op List.mem_cons_self
    have hrest : ∀ op' ∈ ops, Dom op' := fun op' hmem => hops op' (List.mem_cons_of_mem op hmem)
    rw [Follows, Avoids, hallows h hop]
    exact and_congr_right fun hgood => ih (hkeeps h hop hgood) hrest

/-- **Keys that live and die.** Where an operation is bad when it kills a live key, and the
others add their births to the live keys, a sequence avoids the bad operations if and only if
none of them kills a key that was alive at the start or that one before it gave birth to. -/
theorem avoids_iff_pairwise {K : Type y} {live : M → K → Prop} {births kills : Op → K → Prop}
    (hnext : ∀ {m op}, (∀ k, live m k → ¬ kills op k) →
      ∀ k, live (spec.next m op) k ↔ live m k ∨ births op k) {m : M} {ops : List Op} :
    spec.Avoids (fun m op => ∃ k, live m k ∧ kills op k) m ops ↔
      (∀ op ∈ ops, ∀ k, live m k → ¬ kills op k) ∧
        ops.Pairwise fun op op' => ∀ k, births op k → ¬ kills op' k := by
  induction ops generalizing m with
  | nil => simp [Avoids]
  | cons op ops ih =>
    rw [Avoids, ih, List.pairwise_cons, List.forall_mem_cons]
    -- a key alive after `op` was alive before it or born by it: the two parts of each side
    constructor
    · rintro ⟨hop, hlive, hpairs⟩
      have hop' : ∀ k, live m k → ¬ kills op k := fun k hk hkills => hop ⟨k, hk, hkills⟩
      refine ⟨⟨hop', fun op' hmem k hk => ?_⟩, fun op' hmem k hk => ?_, hpairs⟩
      · exact hlive op' hmem k ((hnext hop' k).mpr (Or.inl hk))
      · exact hlive op' hmem k ((hnext hop' k).mpr (Or.inr hk))
    · rintro ⟨⟨hop, hlive⟩, hborn, hpairs⟩
      refine ⟨fun ⟨k, hk, hkills⟩ => hop k hk hkills, fun op' hmem k hk => ?_, hpairs⟩
      rcases (hnext hop k).mp hk with hold | hnew
      · exact hlive op' hmem k hold
      · exact hborn op' hmem k hnew

end Spec

end Refine
