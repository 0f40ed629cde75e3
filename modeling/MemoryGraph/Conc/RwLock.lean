import Mathlib.Data.List.Nodup
import MemoryGraph.Conc.Proc

/-!
# Conc — a first-come-first-served reader-writer lock

The lock keeps the guards it has given out and a queue of requests. Requests are granted
from the head of the queue only: a read request waits behind a write request that came
before it, even while the lock is held for reading.

* **`settle`** — grants from the head of the queue as long as the head is compatible with
  the guards already out; `request` and `release` are the two ways the lock changes, and
  each ends by settling;
* **`RwLock.WF`** — what every reachable lock satisfies: no call appears twice, the guards
  are readers only or one writer, and the head of the queue cannot be granted.
-/

namespace Conc

universe x

variable {ι : Type x}

/-- The guards given out and the requests still waiting, each with its mode. -/
structure RwLock (ι : Type x) where
  holders : List (ι × Mode)
  queue : List (ι × Mode)

def RwLock.free : RwLock ι := ⟨[], []⟩

/-- Whether a request in mode `m` is compatible with the guards `holders`. -/
def admits (holders : List (ι × Mode)) : Mode → Bool
  | .read => holders.all fun h => h.2 = .read
  | .write => holders.isEmpty

/-- Grant requests from the head of the queue while the head is admitted. -/
def settle (holders : List (ι × Mode)) : List (ι × Mode) → RwLock ι
  | [] => ⟨holders, []⟩
  | w :: ws => if admits holders w.2 then settle (w :: holders) ws else ⟨holders, w :: ws⟩

namespace RwLock

/-- Call `t` asks for the lock: it joins the queue at its end. -/
def request (k : RwLock ι) (t : ι) (m : Mode) : RwLock ι := settle k.holders (k.queue ++ [(t, m)])

/-- Call `t` drops its guard. -/
def release [DecidableEq ι] (k : RwLock ι) (t : ι) : RwLock ι :=
  settle (k.holders.filter fun h => h.1 ≠ t) k.queue

/-- The guards are readers only, or one writer. -/
def Compatible (holders : List (ι × Mode)) : Prop :=
  (∀ h ∈ holders, h.2 = .read) ∨ ∃ t, holders = [(t, .write)]

/-- What every reachable lock satisfies. -/
structure WF (k : RwLock ι) : Prop where
  once : ((k.holders ++ k.queue).map Prod.fst).Nodup
  compatible : Compatible k.holders
  head : ∀ w ws, k.queue = w :: ws → admits k.holders w.2 = false

theorem WF.free : WF (free : RwLock ι) where
  once := List.nodup_nil
  compatible := Or.inl (by simp [RwLock.free])
  head := by simp [RwLock.free]

theorem WF.not_queued_of_holder {k : RwLock ι} (h : k.WF) {t : ι} {m m' : Mode}
    (hhold : (t, m) ∈ k.holders) : (t, m') ∉ k.queue := by
  intro hqueue
  have hdisj := h.once
  rw [List.map_append, List.nodup_append] at hdisj
  exact hdisj.2.2 t (List.mem_map_of_mem (f := Prod.fst) hhold) t
    (List.mem_map_of_mem (f := Prod.fst) hqueue) rfl

theorem WF.eq_of_writer {k : RwLock ι} (h : k.WF) {t u : ι} {m : Mode}
    (hwriter : (t, Mode.write) ∈ k.holders) (hother : (u, m) ∈ k.holders) : u = t := by
  rcases h.compatible with hreaders | ⟨v, hv⟩
  · simpa using hreaders _ hwriter
  · rw [hv] at hwriter hother
    simp_all

end RwLock

/-! ## Settling

`settle` splits the queue into the requests it grants and the ones that stay. Every other
fact about it is read off this split. -/

/-- The queue falls into a granted part and a waiting part. -/
theorem settle_split (holders queue : List (ι × Mode)) :
    ∃ granted waiting, queue = granted ++ waiting ∧
      settle holders queue = ⟨granted.reverse ++ holders, waiting⟩ := by
  induction queue generalizing holders with
  | nil => exact ⟨[], [], rfl, rfl⟩
  | cons w ws ih =>
    by_cases hw : admits holders w.2
    · obtain ⟨granted, waiting, hsplit, hsettle⟩ := ih (w :: holders)
      refine ⟨w :: granted, waiting, by rw [hsplit, List.cons_append], ?_⟩
      rw [settle, if_pos hw, hsettle]
      simp
    · exact ⟨[], w :: ws, rfl, by rw [settle, if_neg hw]; rfl⟩

/-- What waits first after a settlement cannot be let in. -/
theorem settle_head (holders queue : List (ι × Mode)) :
    ∀ w ws, (settle holders queue).queue = w :: ws →
      admits (settle holders queue).holders w.2 = false := by
  induction queue generalizing holders with
  | nil => simp [settle]
  | cons v vs ih =>
    by_cases hv : admits holders v.2
    · rw [settle, if_pos hv]
      exact ih (v :: holders)
    · rw [settle, if_neg hv]
      rintro w ws ⟨rfl, rfl⟩
      simpa using hv

theorem compatible_cons {holders : List (ι × Mode)} {w : ι × Mode}
    (h : RwLock.Compatible holders) (hw : admits holders w.2) :
    RwLock.Compatible (w :: holders) := by
  obtain ⟨t, m⟩ := w
  cases m with
  | read =>
    refine Or.inl fun x hx => ?_
    rcases List.mem_cons.mp hx with rfl | hx
    · rfl
    · simpa using List.all_eq_true.mp hw x hx
  | write =>
    obtain rfl : holders = [] := by simpa [admits] using hw
    exact Or.inr ⟨t, rfl⟩

/-- Holders stay compatible, because each is admitted beside the ones before. -/
theorem settle_compatible {holders : List (ι × Mode)} (queue : List (ι × Mode))
    (h : RwLock.Compatible holders) : RwLock.Compatible (settle holders queue).holders := by
  induction queue generalizing holders with
  | nil => exact h
  | cons w ws ih =>
    by_cases hw : admits holders w.2
    · rw [settle, if_pos hw]
      exact ih (compatible_cons h hw)
    · rw [settle, if_neg hw]
      exact h

/-- Settling moves entries from the queue to the guards and loses none. -/
theorem settle_perm (holders queue : List (ι × Mode)) :
    ((settle holders queue).holders ++ (settle holders queue).queue).Perm (holders ++ queue) := by
  obtain ⟨granted, waiting, rfl, hsettle⟩ := settle_split holders queue
  have hmoved : (granted.reverse ++ holders).Perm (holders ++ granted) :=
    List.perm_append_comm.trans ((List.reverse_perm granted).append_left holders)
  rw [hsettle, ← List.append_assoc]
  exact hmoved.append_right waiting

theorem mem_settle_holders {holders queue : List (ι × Mode)} {h : ι × Mode} (hh : h ∈ holders) :
    h ∈ (settle holders queue).holders := by
  obtain ⟨granted, waiting, -, hsettle⟩ := settle_split holders queue
  rw [hsettle]
  exact List.mem_append_right _ hh

theorem mem_of_mem_settle_queue {holders queue : List (ι × Mode)} {h : ι × Mode}
    (hh : h ∈ (settle holders queue).queue) : h ∈ queue := by
  obtain ⟨granted, waiting, rfl, hsettle⟩ := settle_split holders queue
  rw [hsettle] at hh
  exact List.mem_append_right _ hh

/-- The entries of a settled lock are those it was settled from. -/
theorem mem_settle_iff {holders queue : List (ι × Mode)} {h : ι × Mode} :
    h ∈ (settle holders queue).holders ∨ h ∈ (settle holders queue).queue
      ↔ h ∈ holders ∨ h ∈ queue := by
  rw [← List.mem_append, ← List.mem_append]
  exact (settle_perm holders queue).mem_iff

namespace RwLock

variable {k : RwLock ι} {t u : ι} {m m' : Mode}

/-! ## The two operations keep the lock well formed -/

/-- Settling compatible guards and a queue with no call twice gives a well formed lock. -/
theorem WF.settle {holders queue : List (ι × Mode)} (hcompat : Compatible holders)
    (honce : ((holders ++ queue).map Prod.fst).Nodup) : (settle holders queue).WF where
  once := (((settle_perm holders queue).map Prod.fst).nodup_iff).mpr honce
  compatible := settle_compatible queue hcompat
  head := settle_head holders queue

/-- A call that neither holds the lock nor waits for it may ask for it. -/
theorem WF.request (h : k.WF) (hhold : ∀ m, (t, m) ∉ k.holders) (hqueue : ∀ m, (t, m) ∉ k.queue)
    (m : Mode) : (k.request t m).WF := by
  refine .settle h.compatible ?_
  rw [← List.append_assoc, List.map_append, List.map_singleton, ← List.concat_eq_append,
    List.nodup_concat]
  refine ⟨?_, h.once⟩
  simp only [List.mem_map, List.mem_append, Prod.exists, exists_and_right, exists_eq_right]
  rintro ⟨m', hm' | hm'⟩
  · exact hhold m' hm'
  · exact hqueue m' hm'

/-- When a call lets go, the lock settles and is well formed again. -/
theorem WF.release [DecidableEq ι] (h : k.WF) (t : ι) : (k.release t).WF := by
  refine .settle ?_ ?_
  · rcases h.compatible with hreaders | ⟨v, hv⟩
    · exact Or.inl fun x hx => hreaders x (List.mem_of_mem_filter hx)
    -- the only writer either drops its own guard or keeps it
    · by_cases hvt : v = t
      · exact Or.inl (by simp [hv, hvt])
      · exact Or.inr ⟨v, by simp [hv, hvt]⟩
  · exact h.once.sublist ((List.filter_sublist.append_right k.queue).map Prod.fst)

/-! ## Whom the two operations touch -/

/-- Asking for the lock adds the request and moves no guard away. -/
theorem mem_request_iff :
    (u, m') ∈ (k.request t m).holders ∨ (u, m') ∈ (k.request t m).queue
      ↔ (u, m') ∈ k.holders ∨ (u, m') ∈ k.queue ∨ (u = t ∧ m' = m) := by
  simp [request, mem_settle_iff]

theorem mem_holders_request (h : (u, m') ∈ k.holders) : (u, m') ∈ (k.request t m).holders :=
  mem_settle_holders h

theorem of_mem_queue_request (h : (u, m') ∈ (k.request t m).queue) :
    (u, m') ∈ k.queue ∨ (u = t ∧ m' = m) := by
  simpa using mem_of_mem_settle_queue h

variable [DecidableEq ι]

/-- Dropping a guard takes out the caller's guards and nothing else. -/
theorem mem_release_iff :
    (u, m') ∈ (k.release t).holders ∨ (u, m') ∈ (k.release t).queue
      ↔ ((u, m') ∈ k.holders ∧ u ≠ t) ∨ (u, m') ∈ k.queue := by
  simp [release, mem_settle_iff]

theorem mem_holders_release (h : (u, m') ∈ k.holders) (hne : u ≠ t) :
    (u, m') ∈ (k.release t).holders :=
  mem_settle_holders (by simp [h, hne])

theorem of_mem_queue_release (h : (u, m') ∈ (k.release t).queue) : (u, m') ∈ k.queue :=
  mem_of_mem_settle_queue h

end RwLock

end Conc
