import Mathlib.Data.List.Basic
import OpenPgTde.Lib.SlotArray

/-!
Logs of writes to slots.

A number of files, each an array of slots, are updated in place, and every write is logged with the
file, the slot and the value it wrote. Replaying a log is to make its writes again in their order.
Since a write replaces the whole slot, only the last write to a slot counts: two sets of files that
agree on the slots the log does not write are the same after its replay. This is why a log can be
replayed onto files older than the log and onto files that have some or all of its writes already.
-/

namespace Lib.SlotLog

open Lib.SlotArray

variable {κ α : Type}

/-! ### Reading a slot after a write -/

theorem length_writeAt {l : List α} {i : ℕ} (hi : i ≤ l.length) (a : α) :
    (writeAt l i a).length = max l.length (i + 1) := by
  simp only [writeAt, List.length_append, List.length_take, List.length_cons, List.length_drop]
  omega

theorem getElem?_writeAt {l : List α} {i : ℕ} (hi : i ≤ l.length) (a : α) (j : ℕ) :
    (writeAt l i a)[j]? = if j = i then some a else l[j]? := by
  have hlen : (l.take i).length = i := by
    rw [List.length_take]
    omega
  unfold writeAt
  obtain hj | rfl | hj := lt_trichotomy j i
  · rw [List.getElem?_append_left (by omega), if_neg (by omega), List.getElem?_take, if_pos hj]
  · rw [List.getElem?_append_right (by omega), hlen, Nat.sub_self, if_pos rfl,
      List.getElem?_cons_zero]
  · rw [List.getElem?_append_right (by omega), hlen, if_neg (by omega)]
    obtain ⟨d, rfl⟩ : ∃ d, j = i + 1 + d := ⟨j - (i + 1), by omega⟩
    rw [show i + 1 + d - i = d + 1 by omega, List.getElem?_cons_succ, List.getElem?_drop]

/-! ### Logs -/

structure SlotRecord (κ α : Type) where
  file : κ
  slot : ℕ
  value : α

variable [DecidableEq κ] {files files' : κ → List α} {rs : List (SlotRecord κ α)}
  {r : SlotRecord κ α}

def redo (files : κ → List α) (r : SlotRecord κ α) : κ → List α :=
  Function.update files r.file (writeAt (files r.file) r.slot r.value)

def replay (files : κ → List α) (rs : List (SlotRecord κ α)) : κ → List α := rs.foldl redo files

/-- Every write goes to a slot of the file, or right behind the last one. -/
def Fits (files : κ → List α) : List (SlotRecord κ α) → Prop
  | [] => True
  | r :: rs => r.slot ≤ (files r.file).length ∧ Fits (redo files r) rs

theorem replay_append (rs' : List (SlotRecord κ α)) :
    replay files (rs ++ rs') = replay (replay files rs) rs' := List.foldl_append

theorem fits_snoc : Fits files (rs ++ [r]) ↔
    Fits files rs ∧ r.slot ≤ (replay files rs r.file).length := by
  induction rs generalizing files with
  | nil => simp [Fits, replay]
  | cons a rs ih => simp only [List.cons_append, Fits, ih, replay, List.foldl_cons, and_assoc]

theorem getElem?_redo (hr : r.slot ≤ (files r.file).length) (x : κ) (i : ℕ) :
    (redo files r x)[i]? = if x = r.file ∧ i = r.slot then some r.value else (files x)[i]? := by
  unfold redo
  by_cases hx : x = r.file
  · subst hx
    rw [Function.update_self, getElem?_writeAt hr]
    simp
  · rw [Function.update_of_ne hx]
    simp [hx]

theorem length_redo (hr : r.slot ≤ (files r.file).length) (x : κ) :
    (redo files r x).length =
      if x = r.file then max (files x).length (r.slot + 1) else (files x).length := by
  unfold redo
  by_cases hx : x = r.file
  · subst hx
    rw [Function.update_self, length_writeAt hr, if_pos rfl]
  · rw [Function.update_of_ne hx, if_neg hx]

/-- A log that fits files fits longer ones too. -/
theorem Fits.mono (h : Fits files rs) (hlen : ∀ x, (files x).length ≤ (files' x).length) :
    Fits files' rs := by
  induction rs generalizing files files' with
  | nil => trivial
  | cons r rs ih =>
      obtain ⟨hr, hrs⟩ := h
      have hr' : r.slot ≤ (files' r.file).length := hr.trans (hlen r.file)
      refine ⟨hr', ih hrs fun x => ?_⟩
      rw [length_redo hr, length_redo hr']
      have := hlen x
      split <;> omega

/-- Files that agree on the slots a log does not write are the same after its replay. -/
theorem replay_eq_of_agree (h : Fits files rs) (h' : Fits files' rs)
    (hag : ∀ x i, (∀ r ∈ rs, r.file = x → r.slot ≠ i) → (files x)[i]? = (files' x)[i]?) :
    replay files rs = replay files' rs := by
  induction rs generalizing files files' with
  | nil =>
      funext x
      apply List.ext_getElem?
      intro i
      exact hag x i (by simp)
  | cons r rs ih =>
      refine ih h.2 h'.2 fun x i hx => ?_
      rw [getElem?_redo h.1, getElem?_redo h'.1]
      split
      · rfl
      · next hne =>
          apply hag x i
          intro r' hr' hfile hslot
          obtain rfl | hr' := List.mem_cons.1 hr'
          · exact hne ⟨hfile.symm, hslot.symm⟩
          · exact hx r' hr' hfile hslot

end Lib.SlotLog
