import MemoryGraph.Conc.Interleave
import MemoryGraph.Conc.RwLock

/-!
# Conc — running procedures on first-come-first-served locks

The machine below runs a family of `Proc`s on one `RwLock` per lock name. A section is
spread over many events: one request for each lock of its list, from left to right, each
followed by a wait for the grant; the work, once all guards are there; one event for each
guard dropped, the last one acquired first.

* **`Stage`** — where a call stands inside its section, with the guards it holds;
* **`LockStep`**, **`LockRun`** — the events of the machine and its runs;
* **`LockRun.run`** — the machine refines the interleaving of atomic sections: a run of the
  machine is a run of `Conc.Run` with the same store, real-time order included.
-/

namespace Conc

universe u v w x

variable {S : Type u} {L : Type v} {R : Type w} {ι : Type x}

/-- Where a call stands. `held` lists its guards, the last one acquired first. -/
inductive Stage (S : Type u) (L : Type v) (R : Type w) where
  | idle
  /-- In the section `p`, with `todo` still to be requested. -/
  | acquire (p : Proc S L R) (held : List (L × Mode)) (todo : List (L × Mode))
  /-- In the section `p`, with the lock `l` requested. -/
  | await (p : Proc S L R) (held : List (L × Mode)) (l : L) (m : Mode) (todo : List (L × Mode))
  /-- Behind its section, with the guards `held` to drop before it goes on as `p`. -/
  | release (p : Proc S L R) (held : List (L × Mode))
  /-- No section left, about to return. -/
  | done (r : R)
  | returned (r : R)

namespace Stage

/-- The stage of a call that goes on as `p` and holds nothing. -/
def start : Proc S L R → Stage S L R
  | .ret r => .done r
  | .locked locks effect next => .acquire (.locked locks effect next) [] locks

def guards : Stage S L R → List (L × Mode)
  | .acquire _ held _ => held
  | .await _ held _ _ _ => held
  | .release _ held => held
  | _ => []

/-- The request a call has made and not yet seen granted. -/
def request? : Stage S L R → Option (L × Mode)
  | .await _ _ l m _ => some (l, m)
  | _ => none

/-- The call has begun and not returned. -/
def Unfinished : Stage S L R → Prop
  | .idle => False
  | .returned _ => False
  | _ => True

/-- The stage seen at the granularity of whole sections: the work is the section. -/
def phase : Stage S L R → Phase S L R
  | .idle => .waiting
  | .acquire p _ _ => .running p
  | .await p _ _ _ _ => .running p
  | .release p _ => .running p
  | .done r => .running (.ret r)
  | .returned r => .returned r

section Simp

/-! `phase`, `guards` and `request?` at each stage. They stay folded at a stage that is not known,
so the frame lemmas can speak of them. -/

variable (p : Proc S L R) (held : List (L × Mode)) (l : L) (m : Mode) (todo : List (L × Mode))
  (r : R)

@[simp] theorem phase_idle : (idle : Stage S L R).phase = .waiting := rfl
@[simp] theorem phase_acquire : (acquire p held todo).phase = .running p := rfl
@[simp] theorem phase_await : (await p held l m todo).phase = .running p := rfl
@[simp] theorem phase_release : (release p held).phase = .running p := rfl
@[simp] theorem phase_done : (done r : Stage S L R).phase = .running (.ret r) := rfl
@[simp] theorem phase_returned : (returned r : Stage S L R).phase = .returned r := rfl

@[simp] theorem guards_idle : (idle : Stage S L R).guards = [] := rfl
@[simp] theorem guards_acquire : (acquire p held todo).guards = held := rfl
@[simp] theorem guards_await : (await p held l m todo).guards = held := rfl
@[simp] theorem guards_release : (release p held).guards = held := rfl
@[simp] theorem guards_done : (done r : Stage S L R).guards = [] := rfl
@[simp] theorem guards_returned : (returned r : Stage S L R).guards = [] := rfl

@[simp] theorem request?_idle : (idle : Stage S L R).request? = none := rfl
@[simp] theorem request?_acquire : (acquire p held todo).request? = none := rfl
@[simp] theorem request?_await : (await p held l m todo).request? = some (l, m) := rfl
@[simp] theorem request?_release : (release p held).request? = none := rfl
@[simp] theorem request?_done : (done r : Stage S L R).request? = none := rfl
@[simp] theorem request?_returned : (returned r : Stage S L R).request? = none := rfl

end Simp

@[simp] theorem guards_start (p : Proc S L R) : (start p).guards = [] := by cases p <;> rfl

@[simp] theorem request?_start (p : Proc S L R) : (start p).request? = none := by cases p <;> rfl

@[simp] theorem phase_start (p : Proc S L R) : (start p).phase = .running p := by cases p <;> rfl

end Stage

structure LockConfig (ι : Type x) (S : Type u) (L : Type v) (R : Type w) where
  store : S
  locks : L → RwLock ι
  stage : ι → Stage S L R

namespace LockConfig

def initial (s : S) : LockConfig ι S L R := ⟨s, fun _ => .free, fun _ => .idle⟩

/-- Call `t` sits in the queue of some lock. -/
def Waiting (c : LockConfig ι S L R) (t : ι) : Prop := ∃ l m, (t, m) ∈ (c.locks l).queue

/-- The configuration seen at the granularity of whole sections. -/
def toConfig (c : LockConfig ι S L R) : Config ι S L R := ⟨c.store, fun t => (c.stage t).phase⟩

end LockConfig

inductive LockEvent (ι : Type x) where
  | begin (t : ι)
  | request (t : ι)
  | resume (t : ι)
  | work (t : ι)
  | drop (t : ι)
  | leave (t : ι)
  | finish (t : ι)

namespace LockEvent

def caller : LockEvent ι → ι
  | begin t | request t | resume t | work t | drop t | leave t | finish t => t

/-- What an event is at the granularity of whole sections. -/
def toEvents : LockEvent ι → List (Event ι)
  | .begin t => [.begin t]
  | .work t => [.enter t]
  | .finish t => [.finish t]
  | _ => []

end LockEvent

variable [DecidableEq ι] [DecidableEq L]

open Function (update)

inductive LockStep (calls : ι → Proc S L R) :
    LockConfig ι S L R → LockEvent ι → LockConfig ι S L R → Prop where
  | begin {c : LockConfig ι S L R} {t : ι} (hstage : c.stage t = .idle) :
      LockStep calls c (.begin t) { c with stage := update c.stage t (.start (calls t)) }
  /-- Ask for the next lock of the section. -/
  | request {c : LockConfig ι S L R} {t : ι} {p : Proc S L R} {held : List (L × Mode)} {l : L}
      {m : Mode} {todo : List (L × Mode)} (hstage : c.stage t = .acquire p held ((l, m) :: todo)) :
      LockStep calls c (.request t)
        { c with
          locks := update c.locks l ((c.locks l).request t m)
          stage := update c.stage t (.await p held l m todo) }
  /-- The request has been granted; the caller goes on with the guard. -/
  | resume {c : LockConfig ι S L R} {t : ι} {p : Proc S L R} {held : List (L × Mode)} {l : L}
      {m : Mode} {todo : List (L × Mode)} (hstage : c.stage t = .await p held l m todo)
      (hgrant : (t, m) ∈ (c.locks l).holders) :
      LockStep calls c (.resume t)
        { c with stage := update c.stage t (.acquire p ((l, m) :: held) todo) }
  /-- All guards of the section are there. -/
  | work {c : LockConfig ι S L R} {t : ι} {locks : List (L × Mode)} {effect : S → S}
      {next : S → Proc S L R} {held : List (L × Mode)}
      (hstage : c.stage t = .acquire (.locked locks effect next) held []) :
      LockStep calls c (.work t)
        { c with
          store := effect c.store
          stage := update c.stage t (.release (next c.store) held) }
  | drop {c : LockConfig ι S L R} {t : ι} {p : Proc S L R} {l : L} {m : Mode}
      {held : List (L × Mode)} (hstage : c.stage t = .release p ((l, m) :: held)) :
      LockStep calls c (.drop t)
        { c with
          locks := update c.locks l ((c.locks l).release t)
          stage := update c.stage t (.release p held) }
  /-- The last guard is gone; the caller goes on with its next section, if any. -/
  | leave {c : LockConfig ι S L R} {t : ι} {p : Proc S L R} (hstage : c.stage t = .release p []) :
      LockStep calls c (.leave t) { c with stage := update c.stage t (.start p) }
  | finish {c : LockConfig ι S L R} {t : ι} {r : R} (hstage : c.stage t = .done r) :
      LockStep calls c (.finish t) { c with stage := update c.stage t (.returned r) }

/-- `LockRun calls s tr c`: the events `tr`, in order, lead from the store `s` with no call
begun and every lock free to the configuration `c`. -/
inductive LockRun (calls : ι → Proc S L R) (s : S) :
    List (LockEvent ι) → LockConfig ι S L R → Prop where
  | nil : LockRun calls s [] (.initial s)
  | concat {tr : List (LockEvent ι)} {c c' : LockConfig ι S L R} {ev : LockEvent ι}
      (hrun : LockRun calls s tr c) (hstep : LockStep calls c ev c') :
      LockRun calls s (tr ++ [ev]) c'

/-! ## Replaying a trace -/

/-- The configuration after one event, if the event is possible. -/
def LockConfig.next? (calls : ι → Proc S L R) (c : LockConfig ι S L R) :
    LockEvent ι → Option (LockConfig ι S L R)
  | .begin t =>
    match c.stage t with
    | .idle => some { c with stage := update c.stage t (.start (calls t)) }
    | _ => none
  | .request t =>
    match c.stage t with
    | .acquire p held ((l, m) :: todo) =>
      some { c with
        locks := update c.locks l ((c.locks l).request t m)
        stage := update c.stage t (.await p held l m todo) }
    | _ => none
  | .resume t =>
    match c.stage t with
    | .await p held l m todo =>
      if (t, m) ∈ (c.locks l).holders then
        some { c with stage := update c.stage t (.acquire p ((l, m) :: held) todo) }
      else none
    | _ => none
  | .work t =>
    match c.stage t with
    | .acquire (.locked _ effect next) held [] =>
      some { c with
        store := effect c.store
        stage := update c.stage t (.release (next c.store) held) }
    | _ => none
  | .drop t =>
    match c.stage t with
    | .release p ((l, _) :: held) =>
      some { c with
        locks := update c.locks l ((c.locks l).release t)
        stage := update c.stage t (.release p held) }
    | _ => none
  | .leave t =>
    match c.stage t with
    | .release p [] => some { c with stage := update c.stage t (.start p) }
    | _ => none
  | .finish t =>
    match c.stage t with
    | .done r => some { c with stage := update c.stage t (.returned r) }
    | _ => none

theorem lockStep_iff_next? {calls : ι → Proc S L R} {c c' : LockConfig ι S L R}
    {ev : LockEvent ι} : LockStep calls c ev c' ↔ c.next? calls ev = some c' := by
  constructor
  · intro h
    cases h with
    | resume hstage hgrant => simp [LockConfig.next?, hstage, hgrant]
    | begin hstage | request hstage | work hstage | drop hstage | leave hstage | finish hstage =>
      simp [LockConfig.next?, hstage]
  · intro h
    -- each event asks for one stage of its caller, and the rule of that stage applies
    cases ev with
    | begin t =>
      simp only [LockConfig.next?] at h
      split at h <;> cases h
      exact .begin ‹_›
    | request t =>
      simp only [LockConfig.next?] at h
      split at h <;> cases h
      exact .request ‹_›
    | resume t =>
      simp only [LockConfig.next?] at h
      split at h
      · split at h <;> cases h
        exact .resume ‹_› ‹_›
      · cases h
    | work t =>
      simp only [LockConfig.next?] at h
      split at h <;> cases h
      exact .work ‹_›
    | drop t =>
      simp only [LockConfig.next?] at h
      split at h <;> cases h
      exact .drop ‹_›
    | leave t =>
      simp only [LockConfig.next?] at h
      split at h <;> cases h
      exact .leave ‹_›
    | finish t =>
      simp only [LockConfig.next?] at h
      split at h <;> cases h
      exact .finish ‹_›

theorem LockRun.replay {calls : ι → Proc S L R} {s : S} {tr : List (LockEvent ι)}
    {c c' : LockConfig ι S L R} (h : LockRun calls s tr c) {evs : List (LockEvent ι)}
    (hreplay : evs.foldlM (LockConfig.next? calls) c = some c') :
    LockRun calls s (tr ++ evs) c' := by
  induction evs generalizing tr c with
  | nil =>
    obtain rfl : c = c' := by simpa using hreplay
    simpa using h
  | cons ev evs ih =>
    rw [List.foldlM_cons] at hreplay
    obtain ⟨c₁, hnext, hrest⟩ := Option.bind_eq_some_iff.mp hreplay
    simpa using ih (h.concat (lockStep_iff_next?.mpr hnext)) hrest

/-- A trace whose replay gets to its end is a run of the machine. -/
theorem LockRun.of_replay {calls : ι → Proc S L R} {s : S} {tr : List (LockEvent ι)}
    {c : LockConfig ι S L R} (h : tr.foldlM (LockConfig.next? calls) (.initial s) = some c) :
    LockRun calls s tr c :=
  LockRun.nil.replay h

/-! ## The machine refines the interleaving of sections -/

omit [DecidableEq L] in
theorem phase_update (stage : ι → Stage S L R) (t : ι) (st : Stage S L R) :
    (fun u => (update stage t st u).phase) = update (fun u => (stage u).phase) t st.phase := by
  funext u
  rcases eq_or_ne u t with rfl | hne
  · simp
  · simp [hne]

omit [DecidableEq L] in
/-- A stage that keeps its phase is no event of the interleaving. -/
theorem phase_update_self (stage : ι → Stage S L R) (t : ι) (st : Stage S L R)
    (h : st.phase = (stage t).phase) :
    (fun u => (update stage t st u).phase) = fun u => (stage u).phase := by
  rw [phase_update, h]
  exact Function.update_eq_self t _

/-- One event of the machine is one event of the interleaving, or none. -/
theorem LockStep.run {calls : ι → Proc S L R} {s : S} {tr : List (Event ι)}
    {c c' : LockConfig ι S L R} {ev : LockEvent ι} (hrun : Run calls s tr c.toConfig)
    (hstep : LockStep calls c ev c') : Run calls s (tr ++ ev.toEvents) c'.toConfig := by
  -- `begin`, `work` and `finish` are events of sections; the others keep every phase
  cases hstep with
  | @begin t hstage =>
    have h := hrun.concat (.begin (t := t) (by simp [LockConfig.toConfig, hstage]))
    simpa [LockConfig.toConfig, phase_update, LockEvent.toEvents] using h
  | @request t p held l m todo hstage =>
    have hphase := phase_update_self c.stage t (.await p held l m todo) (by simp [hstage])
    simpa [LockConfig.toConfig, hphase, LockEvent.toEvents] using hrun
  | @resume t p held l m todo hstage hgrant =>
    have hphase := phase_update_self c.stage t (.acquire p ((l, m) :: held) todo) (by simp [hstage])
    simpa [LockConfig.toConfig, hphase, LockEvent.toEvents] using hrun
  | @work t locks effect next held hstage =>
    have h := hrun.concat (.enter (t := t)
      (show c.toConfig.phase t = .running (.locked locks effect next) by
        simp [LockConfig.toConfig, hstage]))
    simpa [LockConfig.toConfig, phase_update, LockEvent.toEvents] using h
  | @drop t p l m held hstage =>
    have hphase := phase_update_self c.stage t (.release p held) (by simp [hstage])
    simpa [LockConfig.toConfig, hphase, LockEvent.toEvents] using hrun
  | @leave t p hstage =>
    have hphase := phase_update_self c.stage t (.start p) (by simp [hstage])
    simpa [LockConfig.toConfig, hphase, LockEvent.toEvents] using hrun
  | @finish t r hstage =>
    have h := hrun.concat (.finish (t := t) (r := r)
      (by simp [LockConfig.toConfig, hstage]))
    simpa [LockConfig.toConfig, phase_update, LockEvent.toEvents] using h

/-- **Refinement.** Forgetting the lock events turns a run of the machine into a run of the
interleaving of sections that reaches the same store. -/
theorem LockRun.run {calls : ι → Proc S L R} {s : S} {tr : List (LockEvent ι)}
    {c : LockConfig ι S L R} (h : LockRun calls s tr c) :
    Run calls s (tr.flatMap LockEvent.toEvents) c.toConfig := by
  induction h with
  | nil => exact .nil
  | concat _ hstep ih => simpa using hstep.run ih

end Conc
