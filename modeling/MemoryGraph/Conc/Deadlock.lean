import Mathlib.Order.WellFounded
import MemoryGraph.Conc.LockMachine

/-!
# Conc — lock order, exclusion and freedom from deadlock

Give every lock name a rank. When each section lists its locks in strictly increasing rank
(`Proc.Ordered`), no reachable configuration of the lock machine is a deadlock
(`LockInv.no_deadlock`): among the locks somebody waits for take one of maximal rank. The
head of its queue is not admitted, so somebody holds it; a holder that waits in turn waits
for a lock of higher rank, which the choice excludes.

The argument needs the locks and the stages to agree about who holds and who waits. That
is the invariant `LockInv`, preserved by every event (`LockInv.step`) and so by every run
(`LockRun.inv`). It also gives exclusion (`LockRun.exclusive`): while a call does the work
of a section, nobody else has a guard on a lock the section takes for writing.
-/

namespace Conc

universe u v w x y

variable {S : Type u} {L : Type v} {R : Type w} {ι : Type x} {α : Type y} [LinearOrder α]

/-- Every section takes its locks in strictly increasing rank. -/
def Proc.Ordered (rank : L → α) : Proc S L R → Prop
  | .ret _ => True
  | .locked locks _ next =>
      locks.Pairwise (fun a b => rank a.1 < rank b.1) ∧ ∀ s, (next s).Ordered rank

/-- A section is ordered if its locks are, and what comes after it. -/
theorem Proc.ordered_critical {rank : L → α} {locks : List (L × Mode)} {body : S → S × Proc S L R}
    (hlocks : locks.Pairwise fun a b => rank a.1 < rank b.1)
    (hnext : ∀ s, (body s).2.Ordered rank) : (Proc.critical locks body).Ordered rank :=
  ⟨hlocks, hnext⟩

/-- The guards and requests of a call follow the list of its section. -/
def Stage.OnPlan (rank : L → α) : Stage S L R → Prop
  | .acquire p held todo => p.Ordered rank ∧
      ∃ locks effect next, p = .locked locks effect next ∧ locks = held.reverse ++ todo
  | .await p held l m todo => p.Ordered rank ∧
      ∃ locks effect next, p = .locked locks effect next ∧ locks = held.reverse ++ (l, m) :: todo
  | .release p held => p.Ordered rank ∧ held.Pairwise (fun a b => rank b.1 < rank a.1)
  | _ => True

/-- Lock `k`, named `l`, and the stage `st` agree about call `t`. -/
structure Linked (k : RwLock ι) (l : L) (t : ι) (st : Stage S L R) : Prop where
  holder : ∀ m, (t, m) ∈ k.holders → (l, m) ∈ st.guards ∨ st.request? = some (l, m)
  queued : ∀ m, (t, m) ∈ k.queue → st.request? = some (l, m)
  requested : ∀ m, st.request? = some (l, m) → (t, m) ∈ k.holders ∨ (t, m) ∈ k.queue
  guard : ∀ m, (l, m) ∈ st.guards → (t, m) ∈ k.holders

/-- The invariant of the lock machine. -/
structure LockInv (rank : L → α) (c : LockConfig ι S L R) : Prop where
  wf : ∀ l, (c.locks l).WF
  linked : ∀ l t, Linked (c.locks l) l t (c.stage t)
  onPlan : ∀ t, (c.stage t).OnPlan rank

/-! ## The order of a section -/

section Order

variable {rank : L → α} {p : Proc S L R} {held todo : List (L × Mode)} {l : L} {m m' : Mode}

/-- A call begins on plan, with all the locks of its section to do. -/
theorem Stage.onPlan_start (h : p.Ordered rank) : (Stage.start p).OnPlan rank := by
  cases p with
  | ret r => trivial
  | locked locks effect next => exact ⟨h, locks, effect, next, rfl, rfl⟩

/-- The lock that a call waits for is above all that it holds. -/
theorem Stage.OnPlan.guard_lt (h : (Stage.await p held l m todo).OnPlan rank) {l' : L}
    (hheld : (l', m') ∈ held) : rank l' < rank l := by
  obtain ⟨hordered, locks, effect, next, rfl, rfl⟩ := h
  exact (List.pairwise_append.mp hordered.1).2.2 (l', m') (by simpa using hheld) (l, m) (by simp)

/-- The lock that is requested next is not held yet. -/
theorem Stage.OnPlan.not_held (h : (Stage.acquire p held ((l, m) :: todo)).OnPlan rank) :
    (l, m') ∉ held := by
  intro hheld
  have hawait : (Stage.await p held l m todo).OnPlan rank := h
  exact lt_irrefl _ (hawait.guard_lt hheld)

/-- The guard dropped next is held once. -/
theorem Stage.OnPlan.not_held_twice (h : (Stage.release p ((l, m) :: held)).OnPlan rank) :
    (l, m') ∉ held := fun hheld => lt_irrefl _ ((List.pairwise_cons.mp h.2).1 (l, m') hheld)

end Order

/-! ## Locks and stages keep agreeing -/

section Link

variable {k : RwLock ι} {l l' : L} {t u : ι} {st st' : Stage S L R} {p : Proc S L R}
  {held todo : List (L × Mode)} {m : Mode}

theorem Linked.free : Linked (RwLock.free : RwLock ι) l t (.idle : Stage S L R) := by
  constructor <;> simp [RwLock.free]

/-- Only the guards and the open request of a stage matter. -/
theorem Linked.congr (h : Linked k l t st) (hguards : st'.guards = st.guards)
    (hrequest : st'.request? = st.request?) : Linked k l t st' where
  holder m hm := by rw [hguards, hrequest]; exact h.holder m hm
  queued m hm := by rw [hrequest]; exact h.queued m hm
  requested m hm := h.requested m (hrequest ▸ hm)
  guard m hm := h.guard m (hguards ▸ hm)

/-- A request of another call takes nobody's place. -/
theorem Linked.request_other (h : Linked k l u st) (hne : u ≠ t) :
    Linked (k.request t m) l u st where
  holder m' hm' := by
    rcases RwLock.mem_request_iff.mp (Or.inl hm') with hold | hqueue | ⟨heq, -⟩
    · exact h.holder m' hold
    · exact Or.inr (h.queued m' hqueue)
    · exact absurd heq hne
  queued m' hm' := by
    rcases RwLock.of_mem_queue_request hm' with hqueue | ⟨heq, -⟩
    · exact h.queued m' hqueue
    · exact absurd heq hne
  requested m' hm' := by
    refine RwLock.mem_request_iff.mpr ?_
    rcases h.requested m' hm' with hold | hqueue
    · exact Or.inl hold
    · exact Or.inr (Or.inl hqueue)
  guard m' hm' := RwLock.mem_holders_request (h.guard m' hm')

/-- A request by the call itself opens the request in its stage. -/
theorem Linked.request_self (h : Linked k l t (.acquire p held ((l, m) :: todo))) :
    Linked (k.request t m) l t (.await p held l m todo) where
  holder m' hm' := by
    rcases RwLock.mem_request_iff.mp (Or.inl hm') with hold | hqueue | ⟨-, rfl⟩
    · exact Or.inl (by simpa using h.holder m' hold)
    · simpa using h.queued m' hqueue
    · exact Or.inr rfl
  queued m' hm' := by
    rcases RwLock.of_mem_queue_request hm' with hqueue | ⟨-, rfl⟩
    · simpa using h.queued m' hqueue
    · rfl
  requested m' hm' := by
    obtain rfl : m = m' := by simpa using hm'
    exact RwLock.mem_request_iff.mpr (Or.inr (Or.inr ⟨rfl, rfl⟩))
  guard m' hm' := RwLock.mem_holders_request (h.guard m' (by simpa using hm'))

/-- A lock the section does not ask for now is not touched by the request. -/
theorem Linked.request_away (h : Linked k l' t (.acquire p held ((l, m) :: todo)))
    (hne : l' ≠ l) : Linked k l' t (.await p held l m todo) where
  holder m' hm' := Or.inl (by simpa using h.holder m' hm')
  queued m' hm' := by simpa using h.queued m' hm'
  requested m' hm' := absurd (by simpa using hm') (fun hl : l = l' ∧ m = m' => hne hl.1.symm)
  guard m' hm' := h.guard m' (by simpa using hm')

/-- A call goes on once the lock lists it as a holder, and it has the guard then. -/
theorem Linked.resume (h : Linked k l' t (.await p held l m todo)) (hwf : k.WF)
    (hgrant : l' = l → (t, m) ∈ k.holders) :
    Linked k l' t (.acquire p ((l, m) :: held) todo) where
  holder m' hm' := by
    rcases h.holder m' hm' with hguard | hrequest
    · exact Or.inl (by simp_all)
    · exact Or.inl (by simp_all)
  queued m' hm' := by
    obtain ⟨rfl, rfl⟩ : l = l' ∧ m = m' := by simpa using h.queued m' hm'
    exact absurd hm' (hwf.not_queued_of_holder (hgrant rfl))
  requested m' hm' := by simp at hm'
  guard m' hm' := by
    rcases List.mem_cons.mp hm' with heq | hheld
    · obtain ⟨rfl, rfl⟩ : l' = l ∧ m' = m := by simpa using heq
      exact hgrant rfl
    · exact h.guard m' hheld

variable [DecidableEq ι]

/-- When another call lets go, this one keeps its place or is let in. -/
theorem Linked.release_other (h : Linked k l u st) (hne : u ≠ t) :
    Linked (k.release t) l u st where
  holder m' hm' := by
    rcases RwLock.mem_release_iff.mp (Or.inl hm') with ⟨hold, -⟩ | hqueue
    · exact h.holder m' hold
    · exact Or.inr (h.queued m' hqueue)
  queued m' hm' := h.queued m' (RwLock.of_mem_queue_release hm')
  requested m' hm' := by
    refine RwLock.mem_release_iff.mpr ?_
    rcases h.requested m' hm' with hold | hqueue
    · exact Or.inl ⟨hold, hne⟩
    · exact Or.inr hqueue
  guard m' hm' := RwLock.mem_holders_release (h.guard m' hm') hne

/-- The call itself no longer holds the lock whose guard it dropped. -/
theorem Linked.release_self (h : Linked k l t (.release p ((l, m) :: held))) (hwf : k.WF)
    (honce : ∀ m', (l, m') ∉ held) : Linked (k.release t) l t (.release p held) where
  holder m' hm' := by
    rcases RwLock.mem_release_iff.mp (Or.inl hm') with ⟨-, hne⟩ | hqueue
    · exact absurd rfl hne
    · exact absurd hqueue (hwf.not_queued_of_holder (h.guard m (by simp)))
  queued m' hm' := by simpa using h.queued m' (RwLock.of_mem_queue_release hm')
  requested m' hm' := by simp at hm'
  guard m' hm' := absurd hm' (honce m')

omit [DecidableEq ι] in
/-- Dropping the guard of another lock changes nothing about this one. -/
theorem Linked.release_away (h : Linked k l' t (.release p ((l, m) :: held))) (hne : l' ≠ l) :
    Linked k l' t (.release p held) where
  holder m' hm' := Or.inl (by simpa [hne] using h.holder m' hm')
  queued m' hm' := by simpa using h.queued m' hm'
  requested m' hm' := by simp at hm'
  guard m' hm' := h.guard m' (by simp_all)

end Link

/-! ## The invariant of the machine -/

section Machine

variable [DecidableEq ι] [DecidableEq L] {rank : L → α} {calls : ι → Proc S L R} {s : S}
  {tr : List (LockEvent ι)} {c c' : LockConfig ι S L R} {ev : LockEvent ι}

open Function (update update_self update_of_ne)

omit [DecidableEq ι] [DecidableEq L] in
theorem LockInv.initial (s : S) : LockInv rank (.initial s : LockConfig ι S L R) where
  wf _ := .free
  linked _ _ := .free
  onPlan _ := trivial

omit [DecidableEq L] in
/-- A step that touches no lock keeps the invariant when the stage keeps what the locks see
of it. -/
theorem LockInv.of_stage (h : LockInv rank c) (t : ι) (st : Stage S L R) (store : S)
    (hguards : st.guards = (c.stage t).guards) (hrequest : st.request? = (c.stage t).request?)
    (hplan : st.OnPlan rank) :
    LockInv rank { c with store := store, stage := update c.stage t st } where
  wf := h.wf
  linked l u := by
    rcases eq_or_ne u t with rfl | hne
    · simpa using (h.linked l u).congr hguards hrequest
    · simpa [update_of_ne hne] using h.linked l u
  onPlan u := by
    rcases eq_or_ne u t with rfl | hne
    · simpa using hplan
    · simpa [update_of_ne hne] using h.onPlan u

/-- A step that changes one lock keeps the invariant when the lock stays well formed and
agrees with every call. -/
theorem LockInv.of_lock (h : LockInv rank c) {t : ι} {st : Stage S L R} {l : L} {k : RwLock ι}
    (hwf : k.WF) (hself : Linked k l t st) (haway : ∀ l', l' ≠ l → Linked (c.locks l') l' t st)
    (hother : ∀ u, u ≠ t → Linked k l u (c.stage u)) (hplan : st.OnPlan rank) :
    LockInv rank { c with locks := update c.locks l k, stage := update c.stage t st } where
  wf l' := by
    rcases eq_or_ne l' l with rfl | hl
    · simpa using hwf
    · simpa [update_of_ne hl] using h.wf l'
  linked l' u := by
    rcases eq_or_ne l' l with rfl | hl <;> rcases eq_or_ne u t with rfl | hu
    · simpa using hself
    · simpa [update_of_ne hu] using hother u hu
    · simpa [update_of_ne hl] using haway l' hl
    · simpa [update_of_ne hl, update_of_ne hu] using h.linked l' u
  onPlan u := by
    rcases eq_or_ne u t with rfl | hne
    · simpa using hplan
    · simpa [update_of_ne hne] using h.onPlan u

/-- Every lock event keeps the invariant. Only the lock and the call of the event have to be looked
at. -/
theorem LockInv.step (hcalls : ∀ t, (calls t).Ordered rank) (h : LockInv rank c)
    (hstep : LockStep calls c ev c') : LockInv rank c' := by
  cases hstep with
  | @begin t hstage =>
    exact h.of_stage t (.start (calls t)) c.store (by simp [hstage]) (by simp [hstage])
      (Stage.onPlan_start (hcalls t))
  | @request t p held l m todo hstage =>
    have hplan := h.onPlan t
    have hlink : ∀ l', Linked (c.locks l') l' t (.acquire p held ((l, m) :: todo)) :=
      fun l' => hstage ▸ h.linked l' t
    rw [hstage] at hplan
    -- the caller neither holds the lock nor waits for it: its guards rank below it
    have hhold : ∀ m', (t, m') ∉ (c.locks l).holders := fun m' hm' =>
      hplan.not_held (by simpa using (hlink l).holder m' hm')
    have hqueue : ∀ m', (t, m') ∉ (c.locks l).queue := fun m' hm' => by
      simpa using (hlink l).queued m' hm'
    exact h.of_lock ((h.wf l).request hhold hqueue m) (hlink l).request_self
      (fun l' hl => (hlink l').request_away hl) (fun u hu => (h.linked l u).request_other hu) hplan
  | @resume t p held l m todo hstage hgrant =>
    have hplan := h.onPlan t
    have hlink : ∀ l', Linked (c.locks l') l' t (.await p held l m todo) :=
      fun l' => hstage ▸ h.linked l' t
    rw [hstage] at hplan
    -- no lock changes: the guard has been in the lock since it was granted
    refine ⟨h.wf, fun l' u => ?_, fun u => ?_⟩
    · rcases eq_or_ne u t with rfl | hne
      · simpa using (hlink l').resume (h.wf l') (fun hl => hl ▸ hgrant)
      · simpa [update_of_ne hne] using h.linked l' u
    · rcases eq_or_ne u t with rfl | hne
      · obtain ⟨hordered, locks, effect, next, hp, hlocks⟩ := hplan
        simpa using ⟨hordered, locks, effect, next, hp, by simp [hlocks]⟩
      · simpa [update_of_ne hne] using h.onPlan u
  | @work t locks effect next held hstage =>
    have hplan := h.onPlan t
    rw [hstage] at hplan
    obtain ⟨⟨hsorted, hnext⟩, locks', _, _, heq, hlocks⟩ := hplan
    obtain ⟨rfl, -, -⟩ : locks = locks' ∧ _ := by simpa using heq
    refine h.of_stage t (.release (next c.store) held) (effect c.store) (by simp [hstage])
      (by simp [hstage]) ⟨hnext c.store, ?_⟩
    -- the guards are the locks of the section in reverse, so they rank downwards
    rw [hlocks, List.append_nil] at hsorted
    exact List.pairwise_reverse.mp hsorted
  | @drop t p l m held hstage =>
    have hplan := h.onPlan t
    have hlink : ∀ l', Linked (c.locks l') l' t (.release p ((l, m) :: held)) :=
      fun l' => hstage ▸ h.linked l' t
    rw [hstage] at hplan
    exact h.of_lock ((h.wf l).release t)
      ((hlink l).release_self (h.wf l) fun m' => hplan.not_held_twice)
      (fun l' hl => (hlink l').release_away hl) (fun u hu => (h.linked l u).release_other hu)
      ⟨hplan.1, (List.pairwise_cons.mp hplan.2).2⟩
  | @leave t p hstage =>
    have hplan := h.onPlan t
    rw [hstage] at hplan
    exact h.of_stage t (.start p) c.store (by simp [hstage]) (by simp [hstage])
      (Stage.onPlan_start hplan.1)
  | @finish t r hstage =>
    exact h.of_stage t (.returned r) c.store (by simp [hstage]) (by simp [hstage]) trivial

theorem LockRun.inv (hcalls : ∀ t, (calls t).Ordered rank) (h : LockRun calls s tr c) :
    LockInv rank c := by
  induction h with
  | nil => exact .initial s
  | concat _ hstep ih => exact ih.step hcalls hstep

/-! ## Exclusion -/

/-- **Exclusion.** While call `t` has all guards of its section, no other call has a guard
on a lock that the section takes for writing. -/
theorem LockRun.exclusive (hcalls : ∀ t, (calls t).Ordered rank) (h : LockRun calls s tr c)
    {t u : ι} {locks held : List (L × Mode)} {effect : S → S} {next : S → Proc S L R} {l : L}
    {m : Mode} (hstage : c.stage t = .acquire (.locked locks effect next) held [])
    (hwrite : (l, Mode.write) ∈ locks) (hother : (l, m) ∈ (c.stage u).guards) : u = t := by
  have hinv := h.inv hcalls
  have hplan := hinv.onPlan t
  rw [hstage] at hplan
  obtain ⟨-, locks', _, _, heq, hlocks⟩ := hplan
  obtain ⟨rfl, -, -⟩ : locks = locks' ∧ _ := by simpa using heq
  have hguard : (l, Mode.write) ∈ (c.stage t).guards := by
    simpa [hstage, hlocks] using hwrite
  exact (hinv.wf l).eq_of_writer ((hinv.linked l t).guard _ hguard)
    ((hinv.linked l u).guard _ hother)

/-! ## Freedom from deadlock -/

omit [DecidableEq ι] [DecidableEq L] in
theorem LockInv.unfinished_of_holder (h : LockInv rank c) {t : ι} {l : L} {m : Mode}
    (hhold : (t, m) ∈ (c.locks l).holders) : (c.stage t).Unfinished := by
  have hlink := (h.linked l t).holder m hhold
  cases hstage : c.stage t <;> simp_all [Stage.Unfinished]

omit [DecidableEq ι] [DecidableEq L] in
/-- A holder that waits waits for a lock of higher rank. -/
theorem LockInv.rank_lt_of_waiting_holder (h : LockInv rank c) {t : ι} {l l' : L} {m m' : Mode}
    (hhold : (t, m) ∈ (c.locks l).holders) (hwait : (t, m') ∈ (c.locks l').queue) :
    rank l < rank l' := by
  have hrequest := (h.linked l' t).queued m' hwait
  have hguard := (h.linked l t).holder m hhold
  have hplan := h.onPlan t
  cases hstage : c.stage t with
  | await p held l₂ m₂ todo =>
    rw [hstage] at hplan hrequest hguard
    obtain ⟨rfl, rfl⟩ : l₂ = l' ∧ m₂ = m' := by simpa using hrequest
    rcases hguard with hheld | hsame
    · exact hplan.guard_lt hheld
    -- a call does not hold the lock it waits for
    · obtain ⟨rfl, rfl⟩ : l₂ = l ∧ m₂ = m := by simpa using hsame
      exact absurd hwait ((h.wf l₂).not_queued_of_holder hhold)
  | _ => simp [hstage] at hrequest

omit [DecidableEq ι] [DecidableEq L] in
/-- Nobody waits for a lock that nobody holds. -/
theorem LockInv.exists_holder (h : LockInv rank c) {l : L} {w : ι × Mode}
    (hw : w ∈ (c.locks l).queue) : ∃ t m, (t, m) ∈ (c.locks l).holders := by
  cases hqueue : (c.locks l).queue with
  | nil => simp [hqueue] at hw
  | cons v vs =>
    have hhead := (h.wf l).head v vs hqueue
    -- a lock nobody holds admits every request, so the head would have been granted
    cases hholders : (c.locks l).holders with
    | nil => cases hv : v.2 <;> simp [hholders, hv, admits] at hhead
    | cons x xs => exact ⟨x.1, x.2, by simp⟩

omit [DecidableEq ι] [DecidableEq L] in
/-- **No deadlock.** When some call has begun and not returned, some such call does not
wait for a lock. -/
theorem LockInv.no_deadlock [WellFoundedGT α] (h : LockInv rank c) {t : ι}
    (ht : (c.stage t).Unfinished) : ∃ u, (c.stage u).Unfinished ∧ ¬ c.Waiting u := by
  by_contra hall
  have hwait : ∀ u, (c.stage u).Unfinished → c.Waiting u := fun u hu => by
    by_contra hnot
    exact hall ⟨u, hu, hnot⟩
  -- a lock of maximal rank among those somebody waits for
  obtain ⟨l₀, m₀, hl₀⟩ := hwait t ht
  obtain ⟨a, ⟨l, ⟨w, hw⟩, rfl⟩, hmax⟩ := WellFounded.has_min (wellFounded_gt (α := α))
    {a | ∃ l, (∃ w, w ∈ (c.locks l).queue) ∧ rank l = a} ⟨rank l₀, l₀, ⟨_, hl₀⟩, rfl⟩
  -- its holder waits too, and for a lock of higher rank
  obtain ⟨v, m, hv⟩ := h.exists_holder hw
  obtain ⟨l', m', hl'⟩ := hwait v (h.unfinished_of_holder hv)
  exact hmax (rank l') ⟨l', ⟨_, hl'⟩, rfl⟩ (h.rank_lt_of_waiting_holder hv hl')

/-- A call that has begun, not returned and does not wait has an event to do. -/
theorem LockInv.can_step (h : LockInv rank c) {t : ι} (ht : (c.stage t).Unfinished)
    (hwait : ¬ c.Waiting t) : ∃ ev c', ev.caller = t ∧ LockStep calls c ev c' := by
  have hplan := h.onPlan t
  cases hstage : c.stage t with
  | idle => simp [hstage, Stage.Unfinished] at ht
  | returned r => simp [hstage, Stage.Unfinished] at ht
  | done r => exact ⟨_, _, rfl, .finish hstage⟩
  | release p held =>
    cases held with
    | nil => exact ⟨_, _, rfl, .leave hstage⟩
    | cons g held => exact ⟨_, _, rfl, .drop hstage⟩
  | await p held l m todo =>
    -- the request is still in the lock: granted, or in the queue, where the call would wait
    rcases (h.linked l t).requested m (by simp [hstage]) with hgrant | hqueue
    · exact ⟨_, _, rfl, .resume hstage hgrant⟩
    · exact absurd ⟨l, m, hqueue⟩ hwait
  | acquire p held todo =>
    cases todo with
    | cons g todo => exact ⟨_, _, rfl, .request hstage⟩
    | nil =>
      rw [hstage] at hplan
      obtain ⟨-, locks, effect, next, rfl, -⟩ := hplan
      exact ⟨_, _, rfl, .work hstage⟩

end Machine

end Conc
