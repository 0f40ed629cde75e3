import MemoryGraph.Conc.Linearize

/-!
# Conc — from one point of a run to a later one

`Run.linearizable` compares the store of a run with the store it started from. The results here
compare two points of one run of calls that commit in their last section. One event leaves the
store as it is, or does to it what the whole call of that event would do alone (`Run.store_step`).
A linearization up to the earlier point goes on to the later one: the calls that run their last
section in between go behind the others (`Linearization.extend`). They alone, each once and in
an order that respects real time, lead from the earlier store to the later one
(`Run.linearizable_between`).
-/

namespace Conc

universe u v w x

variable {S : Type u} {L : Type v} {R : Type w} {ι : Type x} [DecidableEq ι]
  {rely : S → S → Prop} [IsPreorder S rely] {calls : ι → Proc S L R} {s : S}
  {tr evs : List (Event ι)} {c c' : Config ι S L R} {ev : Event ι}

/-- **Step.** An event keeps the store, or runs the whole call of its caller on it. -/
theorem Run.store_step (hcalls : ∀ t, (calls t).Commits rely) (hrun : Run calls s tr c)
    (hstep : Step calls c ev c') :
    c'.store = c.store ∨ ∃ t, ev = .enter t ∧ c'.store = ((calls t).run c.store).1 := by
  cases hstep with
  | begin _ => exact Or.inl rfl
  | finish _ => exact Or.inl rfl
  | @enter t locks effect next hphase =>
    obtain ⟨hcommits, hagree⟩ := hrun.pending hcalls t _ hphase rfl
    obtain ⟨-, -, hlast | ⟨hkeep, -⟩⟩ := hcommits c.store
    · obtain ⟨r, hr⟩ := Option.isSome_iff_exists.mp hlast
      refine Or.inr ⟨t, rfl, ?_⟩
      rw [← hagree c.store (refl c.store), Proc.run_locked, Proc.reply?_eq_some hr, Proc.run_ret]
    · exact Or.inl hkeep

/-- The calls of a linearization stay in front when the run goes on. -/
theorem Linearization.extend {order : List ι} (h : Linearization calls s tr c order)
    (hcalls : ∀ t, (calls t).Commits rely) (hrun : Run calls s tr c)
    (hreplay : evs.foldlM (Config.next? calls) c = some c') :
    ∃ new, Linearization calls s (tr ++ evs) c' (order ++ new) := by
  induction evs generalizing tr c order with
  | nil =>
    obtain rfl : c = c' := by simpa using hreplay
    exact ⟨[], by simpa using h⟩
  | cons ev evs ih =>
    rw [List.foldlM_cons] at hreplay
    obtain ⟨c₁, hnext, hrest⟩ := Option.bind_eq_some_iff.mp hreplay
    have hstep := step_iff_next?.mpr hnext
    obtain ⟨first, hfirst⟩ := h.step hrun (hrun.pending hcalls) hstep
    obtain ⟨new, hnew⟩ := ih hfirst (hrun.concat hstep) hrest
    exact ⟨first ++ new, by simpa using hnew⟩

omit [DecidableEq ι] in
/-- Behind a list that does not have its first element, a pair is a pair of the rest. -/
theorem pair_sublist_of_append {a b : ι} {l l' : List ι} (h : [a, b].Sublist (l ++ l'))
    (ha : a ∉ l) : [a, b].Sublist l' := by
  obtain ⟨l₁, l₂, hsplit, h₁, h₂⟩ := List.sublist_append_iff.mp h
  cases l₁ with
  | nil => exact hsplit ▸ h₂
  | cons a' l₁ =>
    obtain rfl : a = a' := (List.cons.inj hsplit).1
    exact absurd (h₁.subset List.mem_cons_self) ha

/-- **Run.** The calls that get their replies between two points of a run can be put in an order,
consistent with real time, in which running them one at a time leads from the earlier store to the
later one. -/
theorem Run.linearizable_between (hcalls : ∀ t, (calls t).Commits rely) (hrun : Run calls s tr c)
    (hreplay : evs.foldlM (Config.next? calls) c = some c') :
    ∃ order : List ι, order.Nodup ∧
      (∀ t, t ∈ order ↔ (c.phase t).reply? = none ∧ (c'.phase t).reply?.isSome) ∧
      (∀ a b, ReturnedBefore (tr ++ evs) a b → a ∈ order → b ∈ order → [a, b].Sublist order) ∧
      (Proc.runAll (order.map calls) c.store).1 = c'.store := by
  obtain ⟨before, hbefore⟩ := hrun.linearizable hcalls
  obtain ⟨order, hall⟩ := hbefore.extend hcalls hrun hreplay
  obtain ⟨-, hnodup, hdisjoint⟩ := List.nodup_append.mp hall.nodup
  -- who has a reply at the earlier point is in front, and keeps the reply
  have hlate : ∀ {t}, t ∈ order → t ∉ before := fun ht hold => hdisjoint _ hold _ ht rfl
  refine ⟨order, hnodup, fun t => ?_, fun a b hab ha hb => ?_, ?_⟩
  · rw [← Option.not_isSome_iff_eq_none, ← hbefore.mem_iff, ← hall.mem_iff, List.mem_append]
    constructor
    · intro ht
      exact ⟨hlate ht, Or.inr ht⟩
    · rintro ⟨hnot, hold | ht⟩
      · exact absurd hold hnot
      · exact ht
  · have hpair := hall.realTime a b hab (List.mem_append_right before hb)
    exact pair_sublist_of_append hpair (hlate ha)
  · rw [← hall.store_eq, ← hbefore.store_eq, List.map_append, Proc.runAll_append]

end Conc
