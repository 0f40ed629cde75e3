import Mathlib.Data.List.Induction

/-!
# Refine — feeding a copy

A system is fed what another one contains. Two ways of feeding it, over any two state types:

* a loader makes one call after another and stops at the first that is refused
  (`untilRefused`); `Loads` says what accepted and refused calls do, and a loader then takes
  a prefix of its input, all of it exactly when no call is refused (`Loads.exists_prefix`,
  `Loads.eq_none_iff`);
* a follower is told every change, and is what it makes of the changes so far; it is a copy
  after every prefix of them exactly when each of them by itself keeps it one where it comes
  (`copied_iff`).
-/

namespace Refine

variable {σ τ α β ε : Type*}

/-! ## Loaders -/

/-- The calls one after another, up to the first that is refused, with its reply. -/
def untilRefused (step : σ → α → σ × β) (accepts : β → Bool) : List α → σ → σ × Option β
  | [], s => (s, none)
  | a :: l, s =>
    if accepts (step s a).2 then untilRefused step accepts l (step s a).1
    else ((step s a).1, some (step s a).2)

/-- A loader of two inputs comes to the second if nothing of the first is refused. -/
theorem untilRefused_append {step : σ → α → σ × β} {accepts : β → Bool} (l l' : List α) (s : σ) :
    untilRefused step accepts (l ++ l') s =
      match untilRefused step accepts l s with
      | (s', none) => untilRefused step accepts l' s'
      | (s', some r) => (s', some r) := by
  induction l generalizing s with
  | nil => rfl
  | cons a l ih =>
    rw [List.cons_append, untilRefused, untilRefused]
    split
    · exact ih (step s a).1
    · rfl

/-- No element is refused, when each is inserted after the ones before it. -/
def AllTaken (insert : τ → α → τ) (refusal : τ → α → Option ε) : τ → List α → Prop
  | _, [] => True
  | t, a :: l => refusal t a = none ∧ AllTaken insert refusal (insert t a) l

theorem allTaken_append {insert : τ → α → τ} {refusal : τ → α → Option ε} {t : τ}
    {l l' : List α} : AllTaken insert refusal t (l ++ l') ↔
      AllTaken insert refusal t l ∧ AllTaken insert refusal (l.foldl insert t) l' := by
  induction l generalizing t with
  | nil => simp [AllTaken]
  | cons a l ih => rw [List.cons_append, AllTaken, AllTaken, ih, and_assoc, List.foldl_cons]

/-- Calls on `σ` load what `insert` and `refusal` say of `τ`: a call is accepted when there is no
refusal, and then inserts; a refused call changes nothing and replies with the refusal. -/
structure Loads (R : σ → τ → Prop) (step : σ → α → σ × β) (accepts : β → Bool)
    (error? : β → Option ε) (insert : τ → α → τ) (refusal : τ → α → Option ε) : Prop where
  taken : ∀ {s t a}, R s t → refusal t a = none →
    accepts (step s a).2 = true ∧ R (step s a).1 (insert t a)
  refused : ∀ {s t a e}, R s t → refusal t a = some e →
    accepts (step s a).2 = false ∧ error? (step s a).2 = some e ∧ R (step s a).1 t

namespace Loads

variable {R : σ → τ → Prop} {step : σ → α → σ × β} {accepts : β → Bool} {error? : β → Option ε}
  {insert : τ → α → τ} {refusal : τ → α → Option ε}

/-- A loader is silent exactly when nothing is refused. -/
theorem eq_none_iff (h : Loads R step accepts error? insert refusal) {s : σ} {t : τ} (hR : R s t)
    (l : List α) : (untilRefused step accepts l s).2 = none ↔ AllTaken insert refusal t l := by
  induction l generalizing s t with
  | nil => simp [untilRefused, AllTaken]
  | cons a l ih =>
    rw [untilRefused, AllTaken]
    cases hrefusal : refusal t a with
    | none =>
      obtain ⟨haccepts, hnext⟩ := h.taken hR hrefusal
      rw [if_pos haccepts, ih hnext]
      simp
    | some e =>
      obtain ⟨haccepts, -, -⟩ := h.refused hR hrefusal
      simp [haccepts]

/-- A loader takes a prefix of its input, and stops at the element after it with the refusal. -/
theorem exists_prefix (h : Loads R step accepts error? insert refusal) {s : σ} {t : τ} (hR : R s t)
    (l : List α) : ∃ pre, pre <+: l ∧ AllTaken insert refusal t pre ∧
      R (untilRefused step accepts l s).1 (pre.foldl insert t) ∧
      ((untilRefused step accepts l s).2 = none → pre = l) ∧
      ∀ r, (untilRefused step accepts l s).2 = some r →
        ∃ a, pre ++ [a] <+: l ∧ ∃ e, refusal (pre.foldl insert t) a = some e ∧
          error? r = some e := by
  induction l generalizing s t with
  | nil => exact ⟨[], List.nil_prefix, trivial, hR, fun _ => rfl, by simp [untilRefused]⟩
  | cons a l ih =>
    rw [untilRefused]
    cases hrefusal : refusal t a with
    | none =>
      obtain ⟨haccepts, hnext⟩ := h.taken hR hrefusal
      obtain ⟨pre, hpre, htaken, hstate, hall, hstop⟩ := ih hnext
      rw [if_pos haccepts]
      refine ⟨a :: pre, List.cons_prefix_cons.mpr ⟨rfl, hpre⟩, ⟨hrefusal, htaken⟩, hstate,
        fun hnone => by rw [hall hnone], ?_⟩
      intro r hr
      obtain ⟨b, hb, he⟩ := hstop r hr
      exact ⟨b, List.cons_prefix_cons.mpr ⟨rfl, hb⟩, he⟩
    -- the loader stops here, in front of `a`
    | some e =>
      obtain ⟨haccepts, herror, hsame⟩ := h.refused hR hrefusal
      rw [haccepts]
      refine ⟨[], List.nil_prefix, trivial, hsame, by simp, fun r hr => ⟨a, ?_, e, hrefusal, ?_⟩⟩
      · exact List.cons_prefix_cons.mpr ⟨rfl, List.nil_prefix⟩
      · obtain rfl : (step s a).2 = r := by simpa using hr
        exact herror

end Loads

/-! ## Followers -/

theorem forall_prefix_nil {P : List α → α → Prop} :
    ∀ pre a, pre ++ [a] <+: ([] : List α) → P pre a := fun pre a h => by
  have hlen := h.length_le
  simp at hlen

/-- What is said of every element and those in front of it, taken apart at the first. -/
theorem forall_prefix_cons {P : List α → α → Prop} {b : α} {l : List α} :
    (∀ pre a, pre ++ [a] <+: b :: l → P pre a) ↔
      P [] b ∧ ∀ pre a, pre ++ [a] <+: l → P (b :: pre) a := by
  constructor
  · intro h
    exact ⟨h [] b (List.prefix_append [b] l), fun pre a hpre =>
      h (b :: pre) a (List.cons_prefix_cons.mpr ⟨rfl, hpre⟩)⟩
  · rintro ⟨hfirst, hrest⟩ pre a hpre
    cases pre with
    | nil =>
      obtain ⟨rfl, -⟩ := List.cons_prefix_cons.mp hpre
      exact hfirst
    | cons b' pre =>
      obtain ⟨rfl, htail⟩ := List.cons_prefix_cons.mp hpre
      exact hrest pre a htail

/-- **Copies.** `R heard t` says that what the follower has made of the changes `heard` is a copy of
`t`. When one legal change more keeps a copy a copy exactly if it is benign, then the follower has
a copy after every prefix of legal changes exactly if each change is benign where it comes. -/
theorem copied_iff {R : List α → τ → Prop} {change : τ → α → τ} {Legal : τ → α → Prop}
    {Benign : List α → τ → α → Prop}
    (hstep : ∀ heard t a, Legal t a → R heard t →
      (R (heard ++ [a]) (change t a) ↔ Benign heard t a))
    {l : List α} {t : τ} (hR : R [] t)
    (hlegal : ∀ pre a, pre ++ [a] <+: l → Legal (pre.foldl change t) a) :
    (∀ pre, pre <+: l → R pre (pre.foldl change t)) ↔
      ∀ pre a, pre ++ [a] <+: l → Benign pre (pre.foldl change t) a := by
  constructor
  · intro h pre a hpre
    have hbefore := h pre ((List.prefix_append pre [a]).trans hpre)
    have hafter := h (pre ++ [a]) hpre
    rw [List.foldl_append] at hafter
    exact (hstep _ _ a (hlegal pre a hpre) hbefore).mp hafter
  · intro h pre hpre
    -- a copy after the changes in front of the last one, so the last one decides
    induction pre using List.reverseRecOn with
    | nil => exact hR
    | append_singleton pre a ih =>
      have hbefore := ih ((List.prefix_append pre [a]).trans hpre)
      rw [List.foldl_append]
      exact (hstep _ _ a (hlegal pre a hpre) hbefore).mpr (h pre a hpre)

end Refine
