import MemoryGraph.Conc.Linearize

/-!
# Conc — the order in which calls get a lock

A trace says which section of which call runs when. The calls that get a lock `l` in mode `m`
do so in an order that the trace determines (`takers`).

The rule proved here is about calls that change the store under that lock only, in their last
section (`Proc.ActsUnder`): then the calls that got the lock, run one at a time in the order in
which they got it, leave the store of the concurrent run, and every other call that has replied
has found nothing to do (`LockOrder`, `Run.lockOrder`). `Run.linearizable` gives some order;
this one is the order of the lock itself.
-/

namespace Conc

universe u v w x

variable {S : Type u} {L : Type v} {R : Type w} {ι : Type x} [DecidableEq L]

/-- Whether the procedure, run alone, takes the lock of `lm` in the mode of `lm`. -/
def Proc.takes (lm : L × Mode) : Proc S L R → S → Bool
  | .ret _, _ => false
  | .locked locks effect next, s => locks.contains lm || (next s).takes lm (effect s)

@[simp] theorem Proc.takes_ret (lm : L × Mode) (r : R) (s : S) :
    (ret r : Proc S L R).takes lm s = false := rfl

@[simp] theorem Proc.takes_critical (lm : L × Mode) (locks : List (L × Mode))
    (body : S → S × Proc S L R) (s : S) :
    (critical locks body).takes lm s = (lm ∈ locks || (body s).2.takes lm (body s).1) := by
  rw [critical, takes, List.contains_eq_mem]

/-- The call that gets the lock by the event. -/
def Config.taker? (lm : L × Mode) (c : Config ι S L R) : Event ι → Option ι
  | .enter t =>
    match c.phase t with
    | .running (.locked locks _ _) => if locks.contains lm then some t else none
    | _ => none
  | _ => none

@[simp] theorem Config.taker?_begin (lm : L × Mode) (c : Config ι S L R) (t : ι) :
    c.taker? lm (.begin t) = none := rfl

@[simp] theorem Config.taker?_finish (lm : L × Mode) (c : Config ι S L R) (t : ι) :
    c.taker? lm (.finish t) = none := rfl

section Order

variable [DecidableEq ι]

/-- The calls that get the lock in a trace, in the order in which they do. -/
def takers (calls : ι → Proc S L R) (lm : L × Mode) : Config ι S L R → List (Event ι) → List ι
  | _, [] => []
  | c, ev :: evs =>
    (c.taker? lm ev).toList ++
      match c.next? calls ev with
      | some c' => takers calls lm c' evs
      | none => []

omit [DecidableEq L] in
/-- A run is replayed by its own trace. -/
theorem Run.replay_eq {calls : ι → Proc S L R} {s : S} {tr : List (Event ι)} {c : Config ι S L R}
    (h : Run calls s tr c) : tr.foldlM (Config.next? calls) (.initial s) = some c := by
  induction h with
  | nil => rfl
  | concat _ hstep ih =>
    rw [List.foldlM_append, ih]
    simpa using step_iff_next?.mp hstep

/-- One event more is one taker more, if a section with that lock is entered. -/
theorem takers_concat {calls : ι → Proc S L R} {lm : L × Mode} {c c' : Config ι S L R}
    {evs : List (Event ι)} (h : evs.foldlM (Config.next? calls) c = some c') (ev : Event ι) :
    takers calls lm c (evs ++ [ev]) = takers calls lm c evs ++ (c'.taker? lm ev).toList := by
  induction evs generalizing c with
  | nil =>
    obtain rfl : c = c' := by simpa using h
    rw [List.nil_append, takers, takers]
    cases c.next? calls ev <;> simp [takers]
  | cons ev' evs ih =>
    rw [List.foldlM_cons] at h
    obtain ⟨c₁, hnext, hrest⟩ := Option.bind_eq_some_iff.mp h
    rw [List.cons_append, takers, takers, hnext]
    simp only [ih hrest, List.append_assoc]

/-- One event more is one taker more, or none. -/
theorem Run.takers_concat {calls : ι → Proc S L R} {lm : L × Mode} {s : S} {tr : List (Event ι)}
    {c : Config ι S L R} (h : Run calls s tr c) (ev : Event ι) :
    takers calls lm (.initial s) (tr ++ [ev])
      = takers calls lm (.initial s) tr ++ (c.taker? lm ev).toList :=
  Conc.takers_concat h.replay_eq ev

end Order

/-- A section under the lock is the last one. A section without it keeps the store, and its
rest does what the whole procedure would do at every later store. -/
def Proc.ActsUnder (lm : L × Mode) (rely : S → S → Prop) : Proc S L R → Prop
  | .ret _ => True
  | .locked locks effect next => ∀ s,
      rely s (effect s) ∧ (next s).ActsUnder lm rely ∧
        (lm ∈ locks → (next s).reply?.isSome) ∧
        (lm ∉ locks → effect s = s ∧ ∀ s', rely s s' →
          (next s).run s' = (Proc.locked locks effect next).run s' ∧
          (next s).takes lm s' = (Proc.locked locks effect next).takes lm s')

section Bodies

variable {lm : L × Mode} {rely : S → S → Prop} {locks : List (L × Mode)}
  {body : S → S × Proc S L R}

/-- A last section under the lock. -/
theorem Proc.actsUnder_act (hlm : lm ∈ locks) (hrely : ∀ s, rely s (body s).1)
    (hlast : ∀ s, (body s).2.reply?.isSome) : (critical locks body).ActsUnder lm rely := by
  intro s
  obtain ⟨r, hr⟩ := Option.isSome_iff_exists.mp (hlast s)
  refine ⟨hrely s, ?_, fun _ => hlast s, fun hmem => absurd hlm hmem⟩
  show (body s).2.ActsUnder lm rely
  rw [reply?_eq_some hr]
  trivial

/-- A section that looks at nothing that may change. -/
theorem Proc.actsUnder_look [Std.Refl rely] (hlm : lm ∉ locks) (hkeep : ∀ s, (body s).1 = s)
    (hrest : ∀ s, (body s).2.ActsUnder lm rely)
    (hsame : ∀ {s s'}, rely s s' → (body s').2 = (body s).2) :
    (critical locks body).ActsUnder lm rely := by
  intro s
  refine ⟨?_, hrest s, fun hmem => absurd hmem hlm, fun _ => ⟨hkeep s, fun s' hs' => ?_⟩⟩
  · show rely s (body s).1
    rw [hkeep]
    exact Std.Refl.refl s
  · show (body s).2.run s' = (critical locks body).run s' ∧
      (body s).2.takes lm s' = (critical locks body).takes lm s'
    rw [run_critical, takes_critical, hsame hs', hkeep]
    simp [hlm]

end Bodies

/-- Where the calls stand that have got the lock in the order `order`, beginning at `s`, and
where the others do. -/
structure LockOrder (calls : ι → Proc S L R) (lm : L × Mode) (rely : S → S → Prop) (s : S)
    (c : Config ι S L R) (order : List ι) : Prop where
  nodup : order.Nodup
  store_eq : (Proc.runAll (order.map calls) s).1 = c.store
  rely_store : rely s c.store
  replied : ∀ t ∈ order, (c.phase t).reply?.isSome
  /-- A reply is what the call would return alone, at some store in between. -/
  reply_eq : ∀ t r, (c.phase t).reply? = some r → ∃ s', rely s s' ∧ ((calls t).run s').2 = r
  /-- A call that replied without the lock would not take it at any later store either. -/
  passed : ∀ t, t ∉ order → (c.phase t).reply?.isSome → ∀ s', rely c.store s' →
    (calls t).takes lm s' = false
  /-- Between two sections the rest of a call does what the whole call would do. -/
  pending : ∀ t p, c.phase t = .running p → p.reply? = none →
    p.ActsUnder lm rely ∧ ∀ s', rely c.store s' →
      p.run s' = (calls t).run s' ∧ p.takes lm s' = (calls t).takes lm s'

section Rule

variable [DecidableEq ι] {lm : L × Mode} {rely : S → S → Prop} [IsPreorder S rely]
  {calls : ι → Proc S L R} {s : S} {tr : List (Event ι)} {c c' : Config ι S L R} {ev : Event ι}
  {order : List ι}

omit [DecidableEq ι] in
theorem LockOrder.initial : LockOrder calls lm rely s (.initial s) [] where
  nodup := List.nodup_nil
  store_eq := rfl
  rely_store := refl s
  replied := by simp
  reply_eq := by simp [Config.initial]
  passed := by simp [Config.initial]
  pending := by simp [Config.initial]

omit [DecidableEq ι] in
/-- A call `t` that goes on disturbs nobody else; what remains is to be said about `t`. -/
theorem LockOrder.advance (h : LockOrder calls lm rely s c order) (t : ι) {order' : List ι}
    (hrely : rely c.store c'.store) (hother : ∀ u, u ≠ t → c'.phase u = c.phase u)
    (hmem : ∀ u, u ≠ t → (u ∈ order' ↔ u ∈ order)) (hnodup : order'.Nodup)
    (hstore : (Proc.runAll (order'.map calls) s).1 = c'.store)
    (hreplied : t ∈ order' → (c'.phase t).reply?.isSome)
    (hreply : ∀ r, (c'.phase t).reply? = some r → ∃ s', rely s s' ∧ ((calls t).run s').2 = r)
    (hpassed : t ∉ order' → (c'.phase t).reply?.isSome → ∀ s', rely c'.store s' →
      (calls t).takes lm s' = false)
    (hpending : ∀ p, c'.phase t = .running p → p.reply? = none →
      p.ActsUnder lm rely ∧ ∀ s', rely c'.store s' →
        p.run s' = (calls t).run s' ∧ p.takes lm s' = (calls t).takes lm s') :
    LockOrder calls lm rely s c' order' where
  nodup := hnodup
  store_eq := hstore
  rely_store := IsTrans.trans _ _ _ h.rely_store hrely
  replied u hu := by
    rcases eq_or_ne u t with rfl | hne
    · exact hreplied hu
    · rw [hother u hne]
      exact h.replied u ((hmem u hne).mp hu)
  reply_eq u r hr := by
    rcases eq_or_ne u t with rfl | hne
    · exact hreply r hr
    · exact h.reply_eq u r (hother u hne ▸ hr)
  passed u hu hr s' hs' := by
    rcases eq_or_ne u t with rfl | hne
    · exact hpassed hu hr s' hs'
    · rw [hother u hne] at hr
      exact h.passed u (mt (hmem u hne).mpr hu) hr s' (IsTrans.trans _ _ _ hrely hs')
  pending u p hp hopen := by
    rcases eq_or_ne u t with rfl | hne
    · exact hpending p hp hopen
    · obtain ⟨hacts, hagree⟩ := h.pending u p (hother u hne ▸ hp) hopen
      exact ⟨hacts, fun s' hs' => hagree s' (IsTrans.trans _ _ _ hrely hs')⟩

/-- One event keeps the order of the lock, with the taker of the event at its end. -/
theorem LockOrder.step (hcalls : ∀ t, (calls t).ActsUnder lm rely)
    (h : LockOrder calls lm rely s c order) (hstep : Step calls c ev c') :
    LockOrder calls lm rely s c' (order ++ (c.taker? lm ev).toList) := by
  cases hstep with
  -- a call that begins has all its sections before it, so it agrees with itself
  | @begin t hphase =>
    have hfresh : t ∉ order := fun ht => by simpa [hphase] using h.replied t ht
    rw [Config.taker?_begin, Option.toList_none, List.append_nil]
    refine h.advance t (refl c.store) (fun u hne => by simp [hne]) (fun u _ => Iff.rfl) h.nodup
      h.store_eq (fun ht => absurd ht hfresh) ?_ ?_ ?_
    · intro r hr
      have hret : calls t = .ret r := Proc.reply?_eq_some (by simpa using hr)
      exact ⟨c.store, h.rely_store, by rw [hret, Proc.run_ret]⟩
    · intro _ hr s' _
      obtain ⟨r, hr⟩ := Option.isSome_iff_exists.mp hr
      have hret : calls t = .ret r := Proc.reply?_eq_some (by simpa using hr)
      rw [hret, Proc.takes]
    · intro p hp _
      obtain rfl : calls t = p := by simpa using hp
      exact ⟨hcalls t, fun s' _ => ⟨rfl, rfl⟩⟩
  | @enter t locks effect next hphase =>
    obtain ⟨hacts, hagree⟩ := h.pending t _ hphase rfl
    obtain ⟨hrely, hrest, hlast, hlook⟩ := hacts c.store
    have hfresh : t ∉ order := fun ht => by simpa [hphase] using h.replied t ht
    have halone : (calls t).run c.store = (next c.store).run (effect c.store) :=
      (hagree c.store (refl c.store)).1.symm
    have hreply : ∀ r, (next c.store).reply? = some r → ((calls t).run c.store).2 = r := by
      intro r hr
      rw [halone, Proc.reply?_eq_some hr, Proc.run_ret]
    by_cases hlm : lm ∈ locks
    · -- the section under the lock: the call goes to the end of the order, and is done
      have hdone := hlast hlm
      have htaker : c.taker? lm (.enter t) = some t := by simp [Config.taker?, hphase, hlm]
      rw [htaker, Option.toList_some]
      refine h.advance t hrely (fun u hne => by simp [hne]) (fun u hne => by simp [hne]) ?_ ?_
        (fun _ => by simpa using hdone) ?_ (fun ht => absurd (by simp) ht) ?_
      · rw [← List.concat_eq_append, List.nodup_concat]
        exact ⟨hfresh, h.nodup⟩
      · obtain ⟨r, hr⟩ := Option.isSome_iff_exists.mp hdone
        rw [List.map_append, List.map_singleton, Proc.runAll_concat, h.store_eq, halone,
          Proc.reply?_eq_some hr, Proc.run_ret]
      · intro r hr
        exact ⟨c.store, h.rely_store, hreply r (by simpa using hr)⟩
      · intro p hp hopen
        obtain rfl : next c.store = p := by simpa using hp
        simp [hopen] at hdone
    · -- a look: the store is as it was, and the rest of the call stays in agreement
      obtain ⟨hkeep, hsame⟩ := hlook hlm
      have hrest' : ∀ s', rely (effect c.store) s' → (next c.store).run s' = (calls t).run s' ∧
          (next c.store).takes lm s' = (calls t).takes lm s' := by
        intro s' hs'
        rw [hkeep] at hs'
        obtain ⟨hrun, htakes⟩ := hsame s' hs'
        obtain ⟨hrun', htakes'⟩ := hagree s' hs'
        exact ⟨hrun.trans hrun', htakes.trans htakes'⟩
      have htaker : c.taker? lm (.enter t) = none := by simp [Config.taker?, hphase, hlm]
      rw [htaker, Option.toList_none, List.append_nil]
      refine h.advance t hrely (fun u hne => by simp [hne]) (fun u _ => Iff.rfl) h.nodup
        (h.store_eq.trans hkeep.symm) (fun ht => absurd ht hfresh) ?_ ?_ ?_
      · intro r hr
        exact ⟨c.store, h.rely_store, hreply r (by simpa using hr)⟩
      · intro _ hr s' hs'
        obtain ⟨r, hr⟩ := Option.isSome_iff_exists.mp hr
        have hret : next c.store = .ret r := Proc.reply?_eq_some (by simpa using hr)
        rw [← (hrest' s' hs').2, hret, Proc.takes]
      · intro p hp _
        obtain rfl : next c.store = p := by simpa using hp
        exact ⟨hrest, hrest'⟩
  -- the reply has been there since the last section
  | @finish t r hphase =>
    have hsame : ∀ u, (Function.update c.phase t (.returned r) u).reply? = (c.phase u).reply? := by
      intro u
      rcases eq_or_ne u t with rfl | hne
      · simp [hphase]
      · simp [hne]
    rw [Config.taker?_finish, Option.toList_none, List.append_nil]
    refine h.advance t (refl c.store) (fun u hne => by simp [hne]) (fun u _ => Iff.rfl) h.nodup
      h.store_eq (fun ht => ?_) (fun r' hr' => ?_) (fun ht hr' => ?_) ?_
    · rw [hsame]
      exact h.replied t ht
    · exact h.reply_eq t r' (hsame t ▸ hr')
    · exact h.passed t ht (hsame t ▸ hr')
    · intro p hp
      simp at hp

/-- **The rule.** In a run of calls that act under one lock only, the calls that got it ran, in
effect, one at a time in the order in which they got it. -/
theorem Run.lockOrder (hcalls : ∀ t, (calls t).ActsUnder lm rely) (hrun : Run calls s tr c) :
    LockOrder calls lm rely s c (takers calls lm (.initial s) tr) := by
  induction hrun with
  | nil => exact .initial
  | concat hrun hstep ih =>
    rw [hrun.takers_concat]
    exact ih.step hcalls hstep

end Rule

end Conc
