import Mathlib.Data.List.Nodup
import Mathlib.Order.Defs.Unbundled
import MemoryGraph.Conc.Interleave

/-!
# Conc — interleavings that are linearizable

A concurrent run of lock sections is **linearizable** when the calls can be put in one
order, consistent with real time, in which running them one at a time gives every call the
result it had and leaves the same store.

The rule proved here covers calls that look something up in early sections and act in their
last one. Fix a relation `rely` between an earlier and a later store that every section
respects. A procedure **commits in its last section** (`Proc.Commits`) when a section that
is not the last one leaves the store alone and hands on a rest that, at every later store,
does what the whole procedure would do there. The order in which the calls run their last
sections then is a linearization (`Run.linearizable`).

The induction is on the run. It carries, for every call between two sections, that its rest
still agrees with the whole call at every later store (`Pending`).
-/

namespace Conc

universe u v w x

variable {S : Type u} {L : Type v} {R : Type w} {ι : Type x}

/-- Every section respects `rely`, and a section that is not the last one only looks:
it keeps the store, and its rest agrees with the whole procedure at every later store. -/
def Proc.Commits (rely : S → S → Prop) : Proc S L R → Prop
  | .ret _ => True
  | .locked locks effect next => ∀ s,
      rely s (effect s) ∧ (next s).Commits rely ∧
        ((next s).reply?.isSome ∨
          effect s = s ∧ ∀ s', rely s s' →
            (next s).run s' = (Proc.locked locks effect next).run s')

/-- A section given by its body commits when each of its outcomes is either a reply, on a
store that respects `rely`, or an untouched store with a rest that stays in agreement. -/
theorem Proc.commits_critical {rely : S → S → Prop} [Std.Refl rely] {locks : List (L × Mode)}
    {body : S → S × Proc S L R}
    (h : ∀ s, ((body s).2.reply?.isSome ∧ rely s (body s).1) ∨
      ((body s).1 = s ∧ (body s).2.Commits rely ∧ ∀ s', rely s s' →
        (body s).2.run s' = (Proc.critical locks body).run s')) :
    (Proc.critical locks body).Commits rely := by
  intro s
  rcases h s with ⟨hreply, hrely⟩ | ⟨hkeep, hcommits, hagree⟩
  · refine ⟨hrely, ?_, Or.inl hreply⟩
    obtain ⟨r, hr⟩ := Option.isSome_iff_exists.mp hreply
    simp [Proc.reply?_eq_some hr, Commits]
  · refine ⟨?_, hcommits, Or.inr ⟨hkeep, hagree⟩⟩
    show rely s (body s).1
    rw [hkeep]
    exact Std.Refl.refl s

/-- What the calls that are between two sections know about the store `s`. -/
def Pending (rely : S → S → Prop) (calls : ι → Proc S L R) (c : Config ι S L R) : Prop :=
  ∀ t p, c.phase t = .running p → p.reply? = none →
    p.Commits rely ∧ ∀ s, rely c.store s → p.run s = (calls t).run s

/-- `order` linearizes the run `tr` from the store `s` to the configuration `c`. It lists
the calls that have run their last section; `realTime` puts a call that returned before
another one began in front of it. -/
structure Linearization (calls : ι → Proc S L R) (s : S) (tr : List (Event ι))
    (c : Config ι S L R) (order : List ι) : Prop where
  nodup : order.Nodup
  mem_iff : ∀ t, t ∈ order ↔ (c.phase t).reply?.isSome
  store_eq : (Proc.runAll (order.map calls) s).1 = c.store
  reply_eq : (Proc.runAll (order.map calls) s).2.map some = order.map fun t => (c.phase t).reply?
  realTime : ∀ a b, ReturnedBefore tr a b → b ∈ order → [a, b].Sublist order

namespace Linearization

variable {calls : ι → Proc S L R} {s : S} {tr : List (Event ι)} {c c' : Config ι S L R}
  {order : List ι} {ev : Event ι}

theorem initial : Linearization calls s [] (.initial s) [] where
  nodup := List.nodup_nil
  mem_iff := by simp [Config.initial]
  store_eq := rfl
  reply_eq := rfl
  realTime := by simp

/-- An event that changes neither the store nor any reply keeps the order. -/
theorem keep (h : Linearization calls s tr c order) (hstore : c'.store = c.store)
    (hreply : ∀ t, (c'.phase t).reply? = (c.phase t).reply?)
    (hbegin : ∀ b, ev = .begin b → b ∉ order) :
    Linearization calls s (tr ++ [ev]) c' order where
  nodup := h.nodup
  mem_iff t := by rw [h.mem_iff, hreply]
  store_eq := by rw [h.store_eq, hstore]
  reply_eq := by simp only [h.reply_eq, hreply]
  realTime a b hab hb := by
    rcases pair_sublist_concat hab with hold | ⟨-, hnew⟩
    · exact h.realTime a b hold hb
    · exact absurd hb (hbegin b hnew.symm)

variable [DecidableEq ι]

/-- An event by which `t` does, at the present store, what it would do alone: `t` goes to
the end of the order. -/
theorem commit (h : Linearization calls s tr c order) (hrun : Run calls s tr c) {t : ι}
    (hopen : (c.phase t).reply? = none)
    (hstore : c'.store = ((calls t).run c.store).1)
    (hreply : (c'.phase t).reply? = some ((calls t).run c.store).2)
    (hother : ∀ u, u ≠ t → c'.phase u = c.phase u)
    (hbegin : ∀ b, ev = .begin b → b = t) :
    Linearization calls s (tr ++ [ev]) c' (order ++ [t]) := by
  have hfresh : t ∉ order := by simp [h.mem_iff, hopen]
  -- a call that has returned is in the order already, so it comes before `t`
  have hbefore : ∀ a, Event.finish a ∈ tr → [a, t].Sublist (order ++ [t]) := by
    intro a ha
    obtain ⟨r, hr⟩ := hrun.returned_of_finish ha
    have hmem : a ∈ order := by simp [h.mem_iff, hr]
    exact (List.singleton_sublist.mpr hmem).append (List.Sublist.refl [t])
  refine ⟨?_, ?_, ?_, ?_, ?_⟩
  · rw [← List.concat_eq_append, List.nodup_concat]
    exact ⟨hfresh, h.nodup⟩
  · intro u
    rcases eq_or_ne u t with rfl | hne
    · simp [hreply]
    · simp [hother u hne, h.mem_iff, hne]
  · rw [List.map_append, List.map_singleton, Proc.runAll_concat, h.store_eq, hstore]
  · rw [List.map_append, List.map_singleton, Proc.runAll_concat, h.store_eq,
      List.map_append, List.map_append, h.reply_eq]
    -- the calls already in the order keep their replies, and the new one comes last
    congr 1
    · refine List.map_congr_left fun u hu => ?_
      have hne : u ≠ t := by
        rintro rfl
        exact hfresh hu
      rw [hother u hne]
    · simp [hreply]
  · intro a b hab hb
    rcases pair_sublist_concat hab with hold | ⟨hfin, hnew⟩
    · rcases List.mem_append.mp hb with hb | hb
      · exact (h.realTime a b hold hb).trans (List.sublist_append_left order [t])
      · obtain rfl : b = t := by simpa using hb
        exact hbefore a (hold.subset (by simp))
    · obtain rfl : b = t := hbegin b hnew.symm
      exact hbefore a hfin

end Linearization

section Rule

variable [DecidableEq ι] {rely : S → S → Prop} [IsPreorder S rely] {calls : ι → Proc S L R}
  {s : S} {tr : List (Event ι)} {c c' : Config ι S L R} {ev : Event ι}

/-- One event keeps the calls that are between two sections in agreement with the store. -/
theorem Pending.step (hcalls : ∀ t, (calls t).Commits rely) (h : Pending rely calls c)
    (hstep : Step calls c ev c') : Pending rely calls c' := by
  cases hstep with
  | @begin t hphase =>
    intro u p hu hp
    rcases eq_or_ne u t with rfl | hne
    · obtain rfl : calls u = p := by simpa using hu
      exact ⟨hcalls u, fun _ _ => rfl⟩
    · exact h u p (by simpa [hne] using hu) hp
  | @enter t locks effect next hphase =>
    obtain ⟨hcommits, hagree⟩ := h t _ hphase rfl
    obtain ⟨hrely, hrest, hlast⟩ := hcommits c.store
    intro u p hu hp
    rcases eq_or_ne u t with rfl | hne
    -- the caller has another section, so this one kept the store and its rest still agrees
    · obtain rfl : next c.store = p := by simpa using hu
      rcases hlast with hdone | ⟨hkeep, hsame⟩
      · simp [hp] at hdone
      · refine ⟨hrest, fun s' hs' => ?_⟩
        have hs : rely c.store s' := hkeep ▸ hs'
        rw [hsame s' hs, hagree s' hs]
    -- the others agree at every store from here on, and the new store is one of these
    · obtain ⟨hcommits', hagree'⟩ := h u p (by simpa [hne] using hu) hp
      exact ⟨hcommits', fun s' hs' => hagree' s' (IsTrans.trans _ _ _ hrely hs')⟩
  | @finish t r hphase =>
    intro u p hu hp
    rcases eq_or_ne u t with rfl | hne
    · simp at hu
    · exact h u p (by simpa [hne] using hu) hp

/-- One event extends a linearization: a last section puts its call at the end, and any other event
leaves the order as it is. -/
theorem Linearization.step {order : List ι} (h : Linearization calls s tr c order)
    (hrun : Run calls s tr c) (hpending : Pending rely calls c) (hstep : Step calls c ev c') :
    ∃ new, Linearization calls s (tr ++ [ev]) c' (order ++ new) := by
  cases hstep with
  | @begin t hphase =>
    have hfresh : t ∉ order := by simp [h.mem_iff, hphase]
    cases hp : (calls t).reply? with
    | none =>
      refine ⟨[], ?_⟩
      rw [List.append_nil]
      refine h.keep rfl (fun u => ?_) ?_
      · rcases eq_or_ne u t with rfl | hne
        · simp [hp, hphase]
        · simp [hne]
      · rintro b ⟨rfl⟩
        exact hfresh
    | some r =>
      -- a call without any section acts when it begins
      have hret : calls t = .ret r := Proc.reply?_eq_some hp
      refine ⟨[t], h.commit hrun (by simp [hphase]) ?_ ?_ (by simp +contextual) ?_⟩
      · simp [hret]
      · simp [hret]
      · rintro b ⟨rfl⟩
        rfl
  | @enter t locks effect next hphase =>
    obtain ⟨hcommits, hagree⟩ := hpending t _ hphase rfl
    obtain ⟨-, -, hlast⟩ := hcommits c.store
    cases hp : (next c.store).reply? with
    | none =>
      obtain ⟨hkeep, -⟩ : effect c.store = c.store ∧ _ := by simpa [hp] using hlast
      refine ⟨[], ?_⟩
      rw [List.append_nil]
      refine h.keep hkeep (fun u => ?_) (by simp)
      rcases eq_or_ne u t with rfl | hne
      · simp [hp, hphase]
      · simp [hne]
    | some r =>
      -- the last section: run alone from here, the call does exactly this
      have hrest : next c.store = .ret r := Proc.reply?_eq_some hp
      have halone : (calls t).run c.store = (effect c.store, r) := by
        rw [← hagree c.store (refl c.store), Proc.run_locked, hrest, Proc.run_ret]
      refine ⟨[t], h.commit hrun (by simp [hphase]) ?_ ?_ (by simp +contextual) (by simp)⟩
      · simp [halone]
      · simp [halone, hrest]
  | @finish t r hphase =>
    refine ⟨[], ?_⟩
    rw [List.append_nil]
    refine h.keep rfl (fun u => ?_) (by simp)
    rcases eq_or_ne u t with rfl | hne
    · simp [hphase]
    · simp [hne]

/-- What a call has still to do would do, run now, what the whole call would. -/
theorem Run.pending (hcalls : ∀ t, (calls t).Commits rely) (hrun : Run calls s tr c) :
    Pending rely calls c := by
  induction hrun with
  | nil => simp [Pending, Config.initial]
  | concat _ hstep ih => exact ih.step hcalls hstep

/-- **The rule.** Every run of calls that commit in their last section is linearizable. -/
theorem Run.linearizable (hcalls : ∀ t, (calls t).Commits rely) (hrun : Run calls s tr c) :
    ∃ order, Linearization calls s tr c order := by
  induction hrun with
  | nil => exact ⟨[], .initial⟩
  | concat hrun hstep ih =>
    obtain ⟨order, horder⟩ := ih
    obtain ⟨new, hnew⟩ := horder.step hrun (hrun.pending hcalls) hstep
    exact ⟨order ++ new, hnew⟩

end Rule

end Conc
