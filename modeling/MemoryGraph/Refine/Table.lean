import Mathlib.Data.List.Nodup

/-!
# Refine — tables whose rows carry their key

A table is a list of rows in the order of insertion; each row has a key (`key`), and no two
rows have the same one. A row is found by its key (`find?`), changed in place (`update`) and
deleted by its key (`delete`). An implementation that keeps the rows in an array and an index
from keys to places changes a row by its place instead. The two are the same
(`modify_eq_update`).
-/

namespace Refine.Table

variable {α κ : Type*} [DecidableEq κ] (key : α → κ)

def find? (rows : List α) (k : κ) : Option α := rows.find? fun a => key a = k

def update (rows : List α) (k : κ) (f : α → α) : List α :=
  rows.map fun a => if key a = k then f a else a

def delete (rows : List α) (ks : List κ) : List α := rows.filter fun a => key a ∉ ks

variable {key} {rows : List α} {k : κ} {f : α → α}

/-- An update that keeps the key of each row keeps the keys of the table. -/
theorem keys_update (hf : ∀ a, key (f a) = key a) :
    (update key rows k f).map key = rows.map key := by
  rw [update, List.map_map]
  refine List.map_congr_left fun a _ => ?_
  rw [Function.comp_apply]
  split
  · exact hf a
  · rfl

theorem update_of_notMem (hk : k ∉ rows.map key) : update key rows k f = rows := by
  have hsame : ∀ a ∈ rows, (if key a = k then f a else a) = a := by
    intro a ha
    rw [if_neg]
    rintro rfl
    exact hk (List.mem_map_of_mem ha)
  rw [update, List.map_congr_left hsame, List.map_id']

theorem update_of_fixed (hf : ∀ a ∈ rows, f a = a) : update key rows k f = rows := by
  have hsame : ∀ a ∈ rows, (if key a = k then f a else a) = a := by
    intro a ha
    split
    · exact hf a ha
    · rfl
  rw [update, List.map_congr_left hsame, List.map_id']

/-- Changing the row at a place is changing the row with the key that is there. -/
theorem modify_eq_update (hnodup : (rows.map key).Nodup) {i : Nat}
    (hk : (rows.map key)[i]? = some k) : rows.modify i f = update key rows k f := by
  refine List.ext_getElem? fun j => ?_
  rw [update, List.getElem?_map, List.getElem?_modify]
  cases ha : rows[j]? with
  | none => rfl
  | some a =>
    have hj : (rows.map key)[j]? = some (key a) := by simp [ha]
    have hplace : key a = k ↔ i = j := by
      constructor
      · rintro rfl
        exact (List.getElem?_inj (List.getElem?_eq_some_iff.mp hk).1 hnodup).mp (hk.trans hj.symm)
      · rintro rfl
        exact Option.some.inj (hj.symm.trans hk)
    by_cases hij : i = j <;> simp [hij, hplace]

/-- With distinct keys, the row found for a key is the one that has it. -/
theorem find?_eq_some (hnodup : (rows.map key).Nodup) {a : α} :
    find? key rows k = some a ↔ a ∈ rows ∧ key a = k := by
  constructor
  · intro h
    exact ⟨List.mem_of_find?_eq_some h, by simpa using List.find?_some h⟩
  · rintro ⟨ha, rfl⟩
    cases hfound : find? key rows (key a) with
    | none =>
      have hnot := List.find?_eq_none.mp hfound a ha
      simp at hnot
    | some b =>
      have hb := List.mem_of_find?_eq_some hfound
      have hkey : key b = key a := by simpa using List.find?_some hfound
      rw [List.inj_on_of_nodup_map hnodup hb ha hkey]

/-- Deleting some rows by their keys leaves the others. -/
theorem delete_perm {out : List α} (hnodup : (rows.map key).Nodup) (hout : (out.map key).Nodup)
    (hsub : ∀ a ∈ out, a ∈ rows) : (out ++ delete key rows (out.map key)).Perm rows := by
  have hdeleted : (rows.filter fun a => key a ∈ out.map key).Perm out := by
    rw [List.perm_ext_iff_of_nodup ((List.Nodup.of_map key hnodup).filter _)
      (List.Nodup.of_map key hout)]
    intro a
    rw [List.mem_filter, decide_eq_true_iff]
    constructor
    · rintro ⟨ha, hkey⟩
      obtain ⟨b, hb, heq⟩ := List.mem_map.mp hkey
      rwa [← List.inj_on_of_nodup_map hnodup (hsub b hb) ha heq]
    · exact fun ha => ⟨hsub a ha, List.mem_map_of_mem ha⟩
  have hkept : delete key rows (out.map key)
      = rows.filter fun a => !decide (key a ∈ out.map key) := by
    simp only [delete, decide_not]
  rw [hkept]
  exact (hdeleted.symm.append_right _).trans (List.filter_append_perm _ rows)

end Refine.Table
