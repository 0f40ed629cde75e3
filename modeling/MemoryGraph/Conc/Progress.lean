import Mathlib.Algebra.Order.BigOperators.Group.Finset
import MemoryGraph.Conc.Deadlock

/-!
# Conc — every call gets to its end

`LockInv.no_deadlock` leaves open whether a run of the lock machine ever ends. It does: a
procedure whose sections are bounded in number (`Proc.Within`) has a fixed budget of events,
and every event of a call takes one from the budget of that call and from no other.

* **`LockRun.events_le`** — the events of one call in a run are at most its budget;
* **`LockRun.returned_of_stuck`** — where no event is possible, every call has returned;
* **`LockRun.completion`** — the calls that have begun can always be brought to their ends,
  without any other call beginning.
-/

namespace Conc

universe u v w x y

variable {S : Type u} {L : Type v} {R : Type w} {ι : Type x}

/-! ## Budgets -/

/-- From its start, the procedure does at most `n` events: three for each lock of a section
(request, grant, drop), two for the section itself, and one to return. -/
def Proc.Within : Proc S L R → Nat → Prop
  | .ret _, n => 1 ≤ n
  | .locked locks _ next, n => ∃ k, 3 * locks.length + 2 + k ≤ n ∧ ∀ s, (next s).Within k

/-- A section costs three events for each of its locks, two of its own, and those of what comes
after it. -/
theorem Proc.within_critical {locks : List (L × Mode)} {body : S → S × Proc S L R} {n k : Nat}
    (hbody : ∀ s, (body s).2.Within k) (hn : 3 * locks.length + 2 + k ≤ n) :
    (critical locks body).Within n :=
  ⟨k, hn, hbody⟩

theorem Proc.within_ret (r : R) {n : Nat} (hn : 1 ≤ n) : (ret r : Proc S L R).Within n := hn

/-- At the stage, the call of `call` does at most `n` more events. -/
def Stage.Within (call : Proc S L R) : Stage S L R → Nat → Prop
  | .idle, n => ∃ k, call.Within k ∧ k + 1 ≤ n
  | .acquire p held todo, n => ∃ locks effect next k, p = .locked locks effect next ∧
      (∀ s, (next s).Within k) ∧ 3 * todo.length + held.length + 2 + k ≤ n
  | .await p held _ _ todo, n => ∃ locks effect next k, p = .locked locks effect next ∧
      (∀ s, (next s).Within k) ∧ 3 * todo.length + held.length + 4 + k ≤ n
  | .release p held, n => ∃ k, p.Within k ∧ held.length + 1 + k ≤ n
  | .done _, n => 1 ≤ n
  | .returned _, _ => True

theorem Stage.within_start {call p : Proc S L R} {n : Nat} (h : p.Within n) :
    (Stage.start p).Within call n := by
  cases p with
  | ret r => exact h
  | locked locks effect next =>
    obtain ⟨k, hk, hnext⟩ := h
    exact ⟨locks, effect, next, k, rfl, hnext, by simpa using hk⟩

theorem Stage.start_ne_idle (p : Proc S L R) : Stage.start p ≠ .idle := by
  cases p <;> simp [Stage.start]

/-! ## One event takes one from one budget -/

section Machine

variable [DecidableEq ι] [DecidableEq L] {calls : ι → Proc S L R} {s : S}
  {tr : List (LockEvent ι)} {c c' : LockConfig ι S L R} {ev : LockEvent ι}

/-- An event moves nobody but its caller. -/
theorem LockStep.stage_other (hstep : LockStep calls c ev c') {t : ι} (hne : t ≠ ev.caller) :
    c'.stage t = c.stage t := by
  cases hstep <;> exact Function.update_of_ne hne _ _

omit [DecidableEq L] in
theorem Stage.within_update {call : Proc S L R} {stage : ι → Stage S L R} {t : ι}
    {st : Stage S L R} {n : Nat} (h : st.Within call n) :
    (Function.update stage t st t).Within call n := by
  rwa [Function.update_self]

/-- **Step.** An event leaves its caller with less to do. -/
theorem LockStep.within (hstep : LockStep calls c ev c') {n : Nat}
    (h : (c.stage ev.caller).Within (calls ev.caller) n) :
    ∃ n', n' + 1 ≤ n ∧ (c'.stage ev.caller).Within (calls ev.caller) n' := by
  cases hstep with
  | @begin t hstage =>
    rw [LockEvent.caller, hstage] at h
    obtain ⟨k, hcall, hk⟩ := h
    exact ⟨k, hk, Stage.within_update (Stage.within_start hcall)⟩
  | @request t p held l m todo hstage =>
    rw [LockEvent.caller, hstage] at h
    obtain ⟨locks, effect, next, k, hp, hnext, hk⟩ := h
    rw [List.length_cons] at hk
    -- of the three events for the lock, the grant and the drop are left
    exact ⟨3 * todo.length + held.length + 4 + k, by omega,
      Stage.within_update ⟨locks, effect, next, k, hp, hnext, le_refl _⟩⟩
  | @resume t p held l m todo hstage hgrant =>
    rw [LockEvent.caller, hstage] at h
    obtain ⟨locks, effect, next, k, hp, hnext, hk⟩ := h
    -- the drop is left
    exact ⟨3 * todo.length + (held.length + 1) + 2 + k, by omega,
      Stage.within_update ⟨locks, effect, next, k, hp, hnext, le_refl _⟩⟩
  | @work t locks effect next held hstage =>
    rw [LockEvent.caller, hstage] at h
    obtain ⟨_, _, _, k, hp, hnext, hk⟩ := h
    obtain ⟨rfl, rfl, rfl⟩ := (Proc.locked.injEq ..).mp hp
    rw [List.length_nil] at hk
    exact ⟨held.length + 1 + k, by omega, Stage.within_update ⟨k, hnext c.store, le_refl _⟩⟩
  | @drop t p l m held hstage =>
    rw [LockEvent.caller, hstage] at h
    obtain ⟨k, hp, hk⟩ := h
    rw [List.length_cons] at hk
    exact ⟨held.length + 1 + k, by omega, Stage.within_update ⟨k, hp, le_refl _⟩⟩
  | @leave t p hstage =>
    rw [LockEvent.caller, hstage] at h
    obtain ⟨k, hp, hk⟩ := h
    rw [List.length_nil] at hk
    exact ⟨k, by omega, Stage.within_update (Stage.within_start hp)⟩
  | @finish t r hstage =>
    rw [LockEvent.caller, hstage] at h
    exact ⟨0, h, Stage.within_update trivial⟩

/-- **Run.** What a call has done and what it may still do stay within its budget. -/
theorem LockRun.within {budget : ι → Nat} (hcalls : ∀ t, (calls t).Within (budget t))
    (hrun : LockRun calls s tr c) (t : ι) :
    ∃ n, (tr.map LockEvent.caller).count t + n ≤ budget t + 1 ∧
      (c.stage t).Within (calls t) n := by
  induction hrun with
  | nil => exact ⟨budget t + 1, by simp, budget t, hcalls t, le_refl _⟩
  | @concat tr c c' ev _ hstep ih =>
    obtain ⟨n, hn, hstage⟩ := ih
    rw [List.map_append, List.count_append, List.map_singleton]
    rcases eq_or_ne t ev.caller with rfl | hne
    · obtain ⟨n', hn', hstage'⟩ := hstep.within hstage
      refine ⟨n', ?_, hstage'⟩
      rw [List.count_singleton_self]
      omega
    · refine ⟨n, ?_, by rwa [hstep.stage_other hne]⟩
      rw [List.count_singleton, if_neg (by simpa using hne.symm)]
      omega

/-- The events of one call are at most its budget, whatever the others do. -/
theorem LockRun.events_le {budget : ι → Nat} (hcalls : ∀ t, (calls t).Within (budget t))
    (hrun : LockRun calls s tr c) (t : ι) :
    (tr.map LockEvent.caller).count t ≤ budget t + 1 := by
  obtain ⟨n, hn, -⟩ := hrun.within hcalls t
  omega

/-- A run has no more events than the calls that occur in it have in their budgets. -/
theorem LockRun.length_le {budget : ι → Nat} (hcalls : ∀ t, (calls t).Within (budget t))
    (hrun : LockRun calls s tr c) {callers : Finset ι} (hmem : ∀ ev ∈ tr, ev.caller ∈ callers) :
    tr.length ≤ ∑ t ∈ callers, (budget t + 1) := by
  have hcount : ∑ t ∈ callers, (tr.map LockEvent.caller).count t = tr.length := by
    have h := Multiset.sum_count_eq_card (s := callers) (m := tr.map LockEvent.caller)
      (by simpa using hmem)
    simpa using h
  rw [← hcount]
  exact Finset.sum_le_sum fun t _ => hrun.events_le hcalls t

/-! ## Calls come to their ends -/

/-- The call that does an event has begun. -/
theorem LockStep.not_idle (hstep : LockStep calls c ev c') : c'.stage ev.caller ≠ .idle := by
  cases hstep <;> simp [LockEvent.caller, Stage.start_ne_idle]

/-- A call is idle as long as no event is its own. -/
theorem LockRun.idle_iff (hrun : LockRun calls s tr c) (t : ι) :
    c.stage t = .idle ↔ t ∉ tr.map LockEvent.caller := by
  induction hrun with
  | nil => simp [LockConfig.initial]
  | @concat tr c c' ev _ hstep ih =>
    rw [List.map_append, List.mem_append, List.map_singleton, List.mem_singleton]
    rcases eq_or_ne t ev.caller with rfl | hne
    · simp [hstep.not_idle]
    · simp [hstep.stage_other hne, ih, hne]

variable {α : Type y} [LinearOrder α] [WellFoundedGT α] {rank : L → α}

/-- As long as a call that has begun has not returned, one of those that have begun can move. -/
theorem LockRun.exists_step (hordered : ∀ t, (calls t).Ordered rank)
    (hrun : LockRun calls s tr c) {t : ι} (ht : (c.stage t).Unfinished) :
    ∃ ev c', LockStep calls c ev c' ∧ ev.caller ∈ tr.map LockEvent.caller := by
  have hinv := hrun.inv hordered
  obtain ⟨u, hu, hwait⟩ := hinv.no_deadlock ht
  obtain ⟨ev, c', rfl, hstep⟩ := hinv.can_step hu hwait
  refine ⟨ev, c', hstep, ?_⟩
  by_contra hnot
  rw [(hrun.idle_iff ev.caller).mpr hnot] at hu
  exact hu

/-- Where no event is possible, no call is left. -/
theorem LockRun.returned_of_stuck (hordered : ∀ t, (calls t).Ordered rank)
    (hrun : LockRun calls s tr c) (hstuck : ∀ ev c', ¬ LockStep calls c ev c') (t : ι) :
    ∃ r, c.stage t = .returned r := by
  by_contra hnot
  have ht : (c.stage t).Unfinished := by
    cases hstage : c.stage t with
    | idle => exact absurd (.begin hstage) (hstuck _ _)
    | returned r => exact absurd ⟨r, hstage⟩ hnot
    | _ => trivial
  obtain ⟨ev, c', hstep, -⟩ := hrun.exists_step hordered ht
  exact hstuck ev c' hstep

omit [DecidableEq ι] [DecidableEq L] in
theorem mem_callers_concat (hmem : ev.caller ∈ tr.map LockEvent.caller) {t : ι} :
    t ∈ (tr ++ [ev]).map LockEvent.caller ↔ t ∈ tr.map LockEvent.caller := by
  rw [List.map_append, List.mem_append, List.map_singleton, List.mem_singleton]
  exact or_iff_left_of_imp fun heq => heq ▸ hmem

/-- **Completion.** The calls that have begun can be brought to their ends, and no other call
has to begin for it. -/
theorem LockRun.completion {budget : ι → Nat} (hcalls : ∀ t, (calls t).Within (budget t))
    (hordered : ∀ t, (calls t).Ordered rank) (hrun : LockRun calls s tr c) :
    ∃ evs c', LockRun calls s (tr ++ evs) c' ∧
      (∀ ev ∈ evs, ev.caller ∈ tr.map LockEvent.caller) ∧ ∀ t, ¬ (c'.stage t).Unfinished := by
  obtain ⟨rest, hrest⟩ : ∃ rest, ∑ t ∈ (tr.map LockEvent.caller).toFinset, (budget t + 1)
      ≤ tr.length + rest := ⟨_, Nat.le_add_left _ _⟩
  -- on what the calls that have begun have left in their budgets
  induction rest generalizing tr c with
  | zero =>
    refine ⟨[], c, by simpa using hrun, by simp, fun t ht => ?_⟩
    obtain ⟨ev, c', hstep, hmem⟩ := hrun.exists_step hordered ht
    have hle : (tr ++ [ev]).length ≤ ∑ t ∈ (tr.map LockEvent.caller).toFinset, (budget t + 1) :=
      (hrun.concat hstep).length_le hcalls fun ev' hev' => List.mem_toFinset.mpr
        ((mem_callers_concat hmem).mp (List.mem_map_of_mem hev'))
    rw [List.length_append, List.length_singleton] at hle
    omega
  | succ rest ih =>
    by_cases hquiet : ∀ t, ¬ (c.stage t).Unfinished
    · exact ⟨[], c, by simpa using hrun, by simp, hquiet⟩
    · obtain ⟨t, ht⟩ := not_forall_not.mp hquiet
      obtain ⟨ev, c₁, hstep, hmem⟩ := hrun.exists_step hordered ht
      have hcallers : ((tr ++ [ev]).map LockEvent.caller).toFinset
          = (tr.map LockEvent.caller).toFinset := by
        ext u
        rw [List.mem_toFinset, List.mem_toFinset, mem_callers_concat hmem]
      obtain ⟨evs, c', hrun', hevs, hdone⟩ := ih (hrun.concat hstep) (by
        rw [hcallers, List.length_append, List.length_singleton]
        omega)
      refine ⟨ev :: evs, c', by simpa using hrun', ?_, hdone⟩
      intro ev' hev'
      rcases List.mem_cons.mp hev' with rfl | hev'
      · exact hmem
      · exact (mem_callers_concat hmem).mp (hevs ev' hev')

end Machine

end Conc
