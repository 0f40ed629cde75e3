import Mathlib.Data.List.Nodup
import Mathlib.Data.List.Perm.Basic

/-!
# Petgraph — removal by swapping in the last element

`Vec::swap_remove(i)` takes element `i` out and moves the last element into its place. A
position `j` that survives is found afterwards at `renumber last i j`, where `last` is the
old index of the moved element (`getElem?_swapRemove_renumber`).
-/

namespace Petgraph

variable {α : Type*}

/-- `Vec::swap_remove` on an index in range: the last element takes the place of element `i`. -/
def swapRemove (l : List α) (i : Nat) : List α :=
  match l.getLast? with
  | none => []
  | some a => (l.set i a).dropLast

/-- Where an element that survives is found after `last` moved to `i`. -/
def renumber (last i j : Nat) : Nat := if j = last then i else j

@[simp] theorem renumber_self (i j : Nat) : renumber i i j = j := by
  unfold renumber
  split <;> simp_all

/-- `swap_remove` writes the last element over the one to remove, and shortens the list. -/
theorem swapRemove_concat (l : List α) (a : α) (i : Nat) :
    swapRemove (l ++ [a]) i = ((l ++ [a]).set i a).dropLast := by
  simp [swapRemove]

theorem swapRemove_last (l : List α) (a : α) : swapRemove (l ++ [a]) l.length = l := by
  simp [swapRemove_concat]

theorem swapRemove_of_lt (l : List α) (a : α) {i : Nat} (hi : i < l.length) :
    swapRemove (l ++ [a]) i = l.set i a := by
  simp [swapRemove_concat, hi]

/-- Up to order, `swap_remove` erases the element. -/
theorem swapRemove_perm {l : List α} {i : Nat} (hi : i < l.length) :
    (swapRemove l i).Perm (l.eraseIdx i) := by
  rcases List.eq_nil_or_concat' l with rfl | ⟨l, a, rfl⟩
  · simp at hi
  · rcases Nat.lt_or_ge i l.length with hlt | hge
    · rw [swapRemove_of_lt l a hlt, List.eraseIdx_append_of_lt_length hlt]
      exact (List.set_perm_cons_eraseIdx hlt a).trans (List.perm_append_singleton a _).symm
    -- the element taken out is the last one, and nothing moves
    · obtain rfl : i = l.length := by
        simp only [List.length_append, List.length_singleton] at hi
        omega
      rw [swapRemove_last, List.eraseIdx_append_of_length_le (Nat.le_refl _)]
      simp

theorem perm_cons_swapRemove {l : List α} {i : Nat} {a : α} (ha : l[i]? = some a) :
    l.Perm (a :: swapRemove l i) := by
  obtain ⟨hi, rfl⟩ := List.getElem?_eq_some_iff.mp ha
  exact (List.getElem_cons_eraseIdx_perm hi).symm.trans ((swapRemove_perm hi).symm.cons _)

theorem map_swapRemove {β : Type*} (f : α → β) (l : List α) (i : Nat) :
    (swapRemove l i).map f = swapRemove (l.map f) i := by
  rcases List.eq_nil_or_concat' l with rfl | ⟨l, a, rfl⟩
  · rfl
  · rw [List.map_append, List.map_singleton, swapRemove_concat, swapRemove_concat,
      List.map_dropLast, List.map_set, List.map_append, List.map_singleton]

theorem length_swapRemove {l : List α} {i : Nat} (hi : i < l.length) :
    (swapRemove l i).length + 1 = l.length := by
  rw [(swapRemove_perm hi).length_eq, List.length_eraseIdx_of_lt hi]
  omega

theorem mem_of_mem_swapRemove {l : List α} {i : Nat} (hi : i < l.length) {a : α}
    (ha : a ∈ swapRemove l i) : a ∈ l :=
  List.mem_of_mem_eraseIdx ((swapRemove_perm hi).mem_iff.mp ha)

theorem nodup_map_swapRemove {β : Type*} {f : α → β} {l : List α} {i : Nat} (hi : i < l.length)
    (h : (l.map f).Nodup) : ((swapRemove l i).map f).Nodup := by
  rw [((swapRemove_perm hi).map f).nodup_iff]
  exact h.sublist ((List.eraseIdx_sublist l i).map f)

/-- Every element but the removed one is found again at its new index. -/
theorem getElem?_swapRemove_renumber {l : List α} {i j : Nat} (hi : i < l.length) (hj : j ≠ i) :
    j < l.length → (swapRemove l i)[renumber (l.length - 1) i j]? = l[j]? := by
  intro hjl
  rcases List.eq_nil_or_concat' l with rfl | ⟨l, a, rfl⟩
  · simp at hi
  · simp only [List.length_append, List.length_singleton] at hi hjl
    have hlast : (l ++ [a]).length - 1 = l.length := by simp
    rw [hlast]
    rcases Nat.lt_or_ge i l.length with hlt | hge
    · rw [swapRemove_of_lt l a hlt]
      unfold renumber
      split
      · simp_all
      · have hjl' : j < l.length := by omega
        rw [List.getElem?_set_ne (Ne.symm hj), List.getElem?_append_left hjl']
    · obtain rfl : i = l.length := by omega
      have hjl' : j < l.length := by omega
      rw [swapRemove_last, renumber_self, List.getElem?_append_left hjl']

/-- A longer list has the same elements where the list had some. -/
theorem getElem?_append_iff {l l' : List α} {j : Nat} {a : α} :
    l[j]? = some a ↔ j < l.length ∧ (l ++ l')[j]? = some a := by
  constructor
  · intro h
    have hj := (List.getElem?_eq_some_iff.mp h).1
    exact ⟨hj, by rwa [List.getElem?_append_left hj]⟩
  · rintro ⟨hj, h⟩
    rwa [List.getElem?_append_left hj] at h

/-- What is at a position afterwards: the last element at the place that became free, and
elsewhere what was there. -/
theorem getElem?_swapRemove {l : List α} {i j : Nat} (hi : i < l.length) {a : α} :
    (swapRemove l i)[j]? = some a ↔
      j + 1 < l.length ∧ (if j = i then l[l.length - 1]? else l[j]?) = some a := by
  rcases List.eq_nil_or_concat' l with rfl | ⟨l, b, rfl⟩
  · simp at hi
  · simp only [List.length_append, List.length_singleton] at hi
    have hlast : (l ++ [b])[(l ++ [b]).length - 1]? = some b := by simp
    rw [hlast, List.length_append, List.length_singleton, Nat.add_lt_add_iff_right]
    rcases Nat.lt_or_ge i l.length with hlt | hge
    · rw [swapRemove_of_lt l b hlt]
      rcases eq_or_ne j i with rfl | hne
      · simp [hlt]
      · rw [List.getElem?_set_ne hne.symm, if_neg hne, getElem?_append_iff]
    · obtain rfl : i = l.length := by omega
      rw [swapRemove_last]
      rcases eq_or_ne j l.length with rfl | hne
      · simp
      · rw [if_neg hne, getElem?_append_iff]

end Petgraph
