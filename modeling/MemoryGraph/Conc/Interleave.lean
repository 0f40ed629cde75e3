import Mathlib.Logic.Function.Basic
import MemoryGraph.Conc.Proc

/-!
# Conc — interleavings of lock sections

A family of procedures `calls : ι → Proc S L R` runs concurrently on one store. Each lock
section is one atomic step, and the sections of different calls interleave in any order. A
call also begins and returns in steps of its own, so that a trace carries the real-time
order of the calls: `a` returned before `b` began when the trace has `finish a` somewhere
in front of `begin b`.

* **`Config`** — the store and where every call stands;
* **`Step`**, **`Run`** — one event, and a trace of events from the initial configuration;
* **`Config.next?`**, **`Run.of_replay`** — the same semantics computed: a trace can be
  replayed, and a replay that gets to its end is a run.
-/

namespace Conc

universe u v w x

variable {S : Type u} {L : Type v} {R : Type w} {ι : Type x}

/-- Where one call stands: not begun, running with the sections `p` still ahead of it, or
returned. A call that runs `Proc.ret r` is about to return `r`. -/
inductive Phase (S : Type u) (L : Type v) (R : Type w) where
  | waiting
  | running (p : Proc S L R)
  | returned (r : R)

/-- The result of a call that has run its last section. -/
def Phase.reply? : Phase S L R → Option R
  | .waiting => none
  | .running p => p.reply?
  | .returned r => some r

@[simp] theorem Phase.reply?_waiting : (waiting : Phase S L R).reply? = none := rfl

@[simp] theorem Phase.reply?_running (p : Proc S L R) : (running p).reply? = p.reply? := rfl

@[simp] theorem Phase.reply?_returned (r : R) : (returned r : Phase S L R).reply? = some r := rfl

structure Config (ι : Type x) (S : Type u) (L : Type v) (R : Type w) where
  store : S
  phase : ι → Phase S L R

def Config.initial (s : S) : Config ι S L R := ⟨s, fun _ => .waiting⟩

inductive Event (ι : Type x) where
  | begin (t : ι)
  | enter (t : ι)
  | finish (t : ι)
  deriving DecidableEq

variable [DecidableEq ι]

inductive Step (calls : ι → Proc S L R) : Config ι S L R → Event ι → Config ι S L R → Prop where
  /-- Call `t` begins. -/
  | begin {c : Config ι S L R} {t : ι} (hphase : c.phase t = .waiting) :
      Step calls c (.begin t) { c with phase := Function.update c.phase t (.running (calls t)) }
  /-- Call `t` runs its next section from beginning to end. -/
  | enter {c : Config ι S L R} {t : ι} {locks : List (L × Mode)} {effect : S → S}
      {next : S → Proc S L R} (hphase : c.phase t = .running (.locked locks effect next)) :
      Step calls c (.enter t)
        ⟨effect c.store, Function.update c.phase t (.running (next c.store))⟩
  /-- Call `t` has no section left and returns. -/
  | finish {c : Config ι S L R} {t : ι} {r : R} (hphase : c.phase t = .running (.ret r)) :
      Step calls c (.finish t) { c with phase := Function.update c.phase t (.returned r) }

/-- `Run calls s tr c`: the events of `tr`, in order, lead from the store `s` with no call
begun to the configuration `c`. -/
inductive Run (calls : ι → Proc S L R) (s : S) : List (Event ι) → Config ι S L R → Prop where
  | nil : Run calls s [] (.initial s)
  | concat {tr : List (Event ι)} {c c' : Config ι S L R} {ev : Event ι}
      (hrun : Run calls s tr c) (hstep : Step calls c ev c') : Run calls s (tr ++ [ev]) c'

/-! ## Replaying a trace -/

/-- The configuration after one event, if the event is possible. -/
def Config.next? (calls : ι → Proc S L R) (c : Config ι S L R) :
    Event ι → Option (Config ι S L R)
  | .begin t =>
    match c.phase t with
    | .waiting => some { c with phase := Function.update c.phase t (.running (calls t)) }
    | _ => none
  | .enter t =>
    match c.phase t with
    | .running (.locked _ effect next) =>
      some ⟨effect c.store, Function.update c.phase t (.running (next c.store))⟩
    | _ => none
  | .finish t =>
    match c.phase t with
    | .running (.ret r) => some { c with phase := Function.update c.phase t (.returned r) }
    | _ => none

/-- The step relation is what `next?` computes, so traces can be replayed. -/
theorem step_iff_next? {calls : ι → Proc S L R} {c c' : Config ι S L R} {ev : Event ι} :
    Step calls c ev c' ↔ c.next? calls ev = some c' := by
  constructor
  · rintro (hphase | hphase | hphase) <;> simp [Config.next?, hphase]
  · intro h
    cases ev with
    | begin t =>
      simp only [Config.next?] at h
      split at h <;> cases h
      exact .begin ‹_›
    | enter t =>
      simp only [Config.next?] at h
      split at h <;> cases h
      exact .enter ‹_›
    | finish t =>
      simp only [Config.next?] at h
      split at h <;> cases h
      exact .finish ‹_›

/-- A run, continued by a trace that can be replayed. -/
theorem Run.replay {calls : ι → Proc S L R} {s : S} {tr : List (Event ι)} {c c' : Config ι S L R}
    (h : Run calls s tr c) {evs : List (Event ι)}
    (hreplay : evs.foldlM (Config.next? calls) c = some c') :
    Run calls s (tr ++ evs) c' := by
  induction evs generalizing tr c with
  | nil =>
    obtain rfl : c = c' := by simpa using hreplay
    simpa using h
  | cons ev evs ih =>
    rw [List.foldlM_cons] at hreplay
    obtain ⟨c₁, hnext, hrest⟩ := Option.bind_eq_some_iff.mp hreplay
    simpa using ih (h.concat (step_iff_next?.mpr hnext)) hrest

/-- A trace whose replay gets to its end is a run. -/
theorem Run.of_replay {calls : ι → Proc S L R} {s : S} {tr : List (Event ι)} {c : Config ι S L R}
    (h : tr.foldlM (Config.next? calls) (.initial s) = some c) : Run calls s tr c :=
  Run.nil.replay h

/-! ## Real time -/

def ReturnedBefore (tr : List (Event ι)) (a b : ι) : Prop :=
  [Event.finish a, Event.begin b].Sublist tr

omit [DecidableEq ι] in
/-- A two-element sublist of a list with one element more at its end is one of the shorter
list, or it ends in the new element. -/
theorem pair_sublist_concat {α : Type*} {x y z : α} {l : List α}
    (h : [x, y].Sublist (l ++ [z])) : [x, y].Sublist l ∨ (x ∈ l ∧ y = z) := by
  obtain ⟨l₁, l₂, hsplit, h₁, h₂⟩ := List.sublist_append_iff.mp h
  rcases List.sublist_singleton.mp h₂ with rfl | rfl
  · rw [List.append_nil] at hsplit
    exact Or.inl (hsplit ▸ h₁)
  · obtain ⟨hx, hy⟩ : [x] = l₁ ∧ [y] = [z] :=
      List.append_inj' (show [x] ++ [y] = l₁ ++ [z] from hsplit) rfl
    refine Or.inr ⟨?_, by simpa using hy⟩
    exact h₁.subset (by simp [← hx])

/-- A returned call stays returned: once a trace has its `finish`, its phase is `returned`. -/
theorem Run.returned_of_finish {calls : ι → Proc S L R} {s : S} {tr : List (Event ι)}
    {c : Config ι S L R} (h : Run calls s tr c) {t : ι} (ht : Event.finish t ∈ tr) :
    ∃ r, c.phase t = .returned r := by
  induction h with
  | nil => simp at ht
  | @concat tr c c' ev hrun hstep ih =>
    -- a call whose phase is `returned` is not the one that steps
    have keep : ∀ {u : ι} {ph : Phase S L R}, (∀ r, c.phase u ≠ .returned r) →
        Event.finish t ∈ tr → ∃ r, Function.update c.phase u ph t = .returned r := by
      intro u ph hu hmem
      obtain ⟨r, hr⟩ := ih hmem
      have hne : t ≠ u := by
        rintro rfl
        exact hu r hr
      exact ⟨r, by rw [Function.update_of_ne hne, hr]⟩
    cases hstep with
    | begin hphase => exact keep (by simp [hphase]) (by simpa using ht)
    | enter hphase => exact keep (by simp [hphase]) (by simpa using ht)
    | @finish u r hphase =>
      rcases eq_or_ne t u with rfl | hne
      · exact ⟨r, by simp⟩
      · exact keep (by simp [hphase]) (by simpa [hne] using ht)

end Conc
