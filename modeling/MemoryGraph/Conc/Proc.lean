import Mathlib.Data.List.Basic

/-!
# Conc — procedures written in lock sections

A procedure that synchronises through reader-writer locks alternates between running
with no guard and running a **lock section**: it acquires a list of locks, works on the
shared store while it holds all of them, and drops them again. What it does next may
depend on what it read, so a section yields the new store and the rest of the procedure.

* **`Proc`** — the syntax: return, or run one section and continue;
* **`Proc.run`** — the meaning of a procedure running alone;
* **`Proc.runAll`** — a list of procedures, each run to its end before the next begins.

Nothing here fixes the store, the lock names or the result type.
-/

namespace Conc

universe u v w

inductive Mode where
  | read
  | write
  deriving DecidableEq, Repr

/-- A procedure over a store `S` with locks named by `L` and results in `R`. The section
`locked locks effect next` acquires `locks` from left to right, replaces the store `s` by
`effect s`, drops the guards and goes on as `next s`. -/
inductive Proc (S : Type u) (L : Type v) (R : Type w) where
  | ret (r : R)
  | locked (locks : List (L × Mode)) (effect : S → S) (next : S → Proc S L R)

namespace Proc

variable {S : Type u} {L : Type v} {R : Type w}

/-- One section given by its body: the store it leaves and what the procedure does next. -/
def critical (locks : List (L × Mode)) (body : S → S × Proc S L R) : Proc S L R :=
  .locked locks (fun s => (body s).1) (fun s => (body s).2)

/-- The reply of a procedure that has no section left. -/
def reply? : Proc S L R → Option R
  | .ret r => some r
  | .locked .. => none

@[simp] theorem reply?_ret (r : R) : (ret r : Proc S L R).reply? = some r := rfl

@[simp] theorem reply?_locked (locks : List (L × Mode)) (effect : S → S)
    (next : S → Proc S L R) : (locked locks effect next).reply? = none := rfl

theorem reply?_eq_some {p : Proc S L R} {r : R} (h : p.reply? = some r) : p = .ret r := by
  cases p with
  | ret r' => simpa using h
  | locked locks effect next => simp at h

/-! ## Running alone -/

/-- The procedure run to its end with no other procedure in between. -/
def run : Proc S L R → S → S × R
  | .ret r, s => (s, r)
  | .locked _ effect next, s => (next s).run (effect s)

@[simp] theorem run_ret (r : R) (s : S) : (ret r : Proc S L R).run s = (s, r) := rfl

theorem run_locked (locks : List (L × Mode)) (effect : S → S) (next : S → Proc S L R) (s : S) :
    (locked locks effect next).run s = (next s).run (effect s) := rfl

@[simp] theorem run_critical (locks : List (L × Mode)) (body : S → S × Proc S L R) (s : S) :
    (critical locks body).run s = (body s).2.run (body s).1 := rfl

/-- The procedures of a list run one after another, with their results in order. -/
def runAll : List (Proc S L R) → S → S × List R
  | [], s => (s, [])
  | p :: ps, s => ((runAll ps (p.run s).1).1, (p.run s).2 :: (runAll ps (p.run s).1).2)

@[simp] theorem runAll_nil (s : S) : runAll ([] : List (Proc S L R)) s = (s, []) := rfl

@[simp] theorem runAll_cons (p : Proc S L R) (ps : List (Proc S L R)) (s : S) :
    runAll (p :: ps) s
      = ((runAll ps (p.run s).1).1, (p.run s).2 :: (runAll ps (p.run s).1).2) := rfl

/-- Runs compose: the second list starts from the store the first one leaves. -/
theorem runAll_append (ps qs : List (Proc S L R)) (s : S) :
    runAll (ps ++ qs) s
      = ((runAll qs (runAll ps s).1).1, (runAll ps s).2 ++ (runAll qs (runAll ps s).1).2) := by
  induction ps generalizing s with
  | nil => rfl
  | cons p ps ih => simp [ih]

/-- The run of a list with one procedure more at its end. -/
theorem runAll_concat (ps : List (Proc S L R)) (p : Proc S L R) (s : S) :
    runAll (ps ++ [p]) s =
      ((p.run (runAll ps s).1).1, (runAll ps s).2 ++ [(p.run (runAll ps s).1).2]) := by
  rw [runAll_append]
  rfl

/-- What every procedure of the list preserves, the whole run preserves. -/
theorem runAll_induction {motive : S → Prop} {ps : List (Proc S L R)} {s : S}
    (hstart : motive s) (hstep : ∀ p ∈ ps, ∀ s, motive s → motive (p.run s).1) :
    motive (runAll ps s).1 := by
  induction ps generalizing s with
  | nil => exact hstart
  | cons p ps ih =>
    refine ih (hstep p (by simp) s hstart) ?_
    intro q hq s' hs'
    exact hstep q (List.mem_cons_of_mem p hq) s' hs'

end Proc

end Conc
