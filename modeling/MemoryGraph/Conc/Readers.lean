import MemoryGraph.Conc.Linearize

/-!
# Conc — readers among the calls

A family of calls can be mixed with procedures that only look: they run one section that keeps
the store (`Proc.look`). The replies of the two kinds differ, so those of the calls are relabelled
(`Proc.map`). Both are neutral for everything that the rules ask of a procedure.

* **`Linearization.reply_at`** — in a linearization, a call replies what it replies on the store
  that the calls in front of it leave.
-/

namespace Conc

universe u v w x y z

variable {S : Type u} {L : Type v} {R : Type w} {R' : Type x} {ι : Type y} {f : R → R'}

namespace Proc

/-- The procedure with its reply relabelled. -/
def map (f : R → R') : Proc S L R → Proc S L R'
  | .ret r => .ret (f r)
  | .locked locks effect next => .locked locks effect fun s => (next s).map f

/-- One section that reads the reply off the store. -/
def look (locks : List (L × Mode)) (f : S → R) : Proc S L R :=
  .critical locks fun s => (s, .ret (f s))

@[simp] theorem run_map (p : Proc S L R) (s : S) :
    (p.map f).run s = ((p.run s).1, f (p.run s).2) := by
  induction p generalizing s with
  | ret r => rfl
  | locked locks effect next ih => exact ih s (effect s)

@[simp] theorem run_look (locks : List (L × Mode)) (f : S → R) (s : S) :
    (look locks f).run s = (s, f s) := rfl

theorem reply?_map (p : Proc S L R) : (p.map f).reply? = p.reply?.map f := by
  cases p <;> rfl

/-- What a call replies has no part in when it takes effect. -/
theorem Commits.map {rely : S → S → Prop} {p : Proc S L R} (h : p.Commits rely) :
    (p.map f).Commits rely := by
  induction p with
  | ret r => trivial
  | locked locks effect next ih =>
    intro s
    obtain ⟨hrely, hrest, hlast⟩ := h s
    refine ⟨hrely, ih s hrest, hlast.imp (fun hdone => ?_) fun ⟨hkeep, hagree⟩ => ⟨hkeep, ?_⟩⟩
    · rw [reply?_map, Option.isSome_map]
      exact hdone
    · intro s' hs'
      have hboth := congrArg (fun out => (out.1, f out.2)) (hagree s' hs')
      rw [run_map]
      exact hboth.trans (run_map (.locked locks effect next) s').symm

theorem commits_look {rely : S → S → Prop} [Std.Refl rely] (locks : List (L × Mode)) (f : S → R) :
    (look locks f).Commits rely :=
  commits_critical fun s => Or.inl ⟨rfl, Std.Refl.refl s⟩

end Proc

/-- What a call has replied is what it replies on the store that the calls in front of it in the
order leave. -/
theorem Linearization.reply_at {calls : ι → Proc S L R} {s : S} {tr : List (Event ι)}
    {c : Config ι S L R} {order : List ι} (h : Linearization calls s tr c order)
    {pre post : List ι} {t : ι} (horder : order = pre ++ t :: post) :
    (c.phase t).reply? = some ((calls t).run (Proc.runAll (pre.map calls) s).1).2 := by
  have hreplies := h.reply_eq
  rw [horder, List.map_append, List.map_cons, Proc.runAll_append, Proc.runAll_cons,
    List.map_append, List.map_append, List.map_cons, List.map_cons] at hreplies
  have hlength : ∀ (ps : List (Proc S L R)) (s : S), (Proc.runAll ps s).2.length = ps.length := by
    intro ps
    induction ps with
    | nil => exact fun _ => rfl
    | cons p ps ih => exact fun s => congrArg (· + 1) (ih (p.run s).1)
  have hback := List.append_inj_right hreplies (by simp [hlength])
  exact (List.cons.inj hback).1.symm

end Conc
