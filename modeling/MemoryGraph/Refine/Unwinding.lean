import Mathlib.Data.List.Basic

/-!
# Refine — operations that leave no trace

Some operations of a machine `step : S → Op → S × R` are **visible** and the others are not.
The others leave no trace when deleting them from any run changes nothing that can be seen: the
outcomes of the visible operations, and the states up to a relation `Rel`.

Two conditions on single steps are enough (`Unwinding`): a visible operation gives related
states the same outcome and keeps them related, and an invisible one may be done on one side
alone. The induction over the run is done once, in **`Unwinding.purge`**.
-/

namespace Refine

universe u v w

variable {S : Type u} {Op : Type v} {R : Type w}

/-- The operations run one after another, with their outcomes in order. -/
def exec (step : S → Op → S × R) : S → List Op → S × List R
  | s, [] => (s, [])
  | s, op :: ops =>
    ((exec step (step s op).1 ops).1, (step s op).2 :: (exec step (step s op).1 ops).2)

/-- The conditions on single steps. -/
structure Unwinding (step : S → Op → S × R) (visible : Op → Bool) (Rel : S → S → Prop) : Prop where
  consistent : ∀ {s t op}, Rel s t → visible op = true →
    (step s op).2 = (step t op).2 ∧ Rel (step s op).1 (step t op).1
  silent : ∀ {s t op}, Rel s t → visible op = false → Rel (step s op).1 t

variable {step : S → Op → S × R} {visible : Op → Bool} {Rel : S → S → Prop}

/-- **Deleting the invisible operations changes nothing.** From related states, a run and the
same run without its invisible operations end in related states, and the visible operations
have the same outcomes in both. -/
theorem Unwinding.purge (h : Unwinding step visible Rel) {s t : S} (hrel : Rel s t)
    (ops : List Op) :
    Rel (exec step s ops).1 (exec step t (ops.filter visible)).1 ∧
      ((ops.zip (exec step s ops).2).filter fun p => visible p.1).map Prod.snd
        = (exec step t (ops.filter visible)).2 := by
  induction ops generalizing s t with
  | nil => exact ⟨hrel, rfl⟩
  | cons op ops ih =>
    cases hvisible : visible op with
    | false =>
      -- the operation is done on the left only
      obtain ⟨hend, houtcomes⟩ := ih (h.silent hrel hvisible)
      simpa [exec, hvisible] using ⟨hend, houtcomes⟩
    | true =>
      obtain ⟨hsame, hnext⟩ := h.consistent hrel hvisible
      obtain ⟨hend, houtcomes⟩ := ih hnext
      simpa [exec, hvisible, hsame] using ⟨hend, houtcomes⟩

end Refine
