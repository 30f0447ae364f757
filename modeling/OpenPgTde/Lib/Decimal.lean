import Mathlib.Data.Nat.Digits.Defs
import Mathlib.Data.UInt

/-!
Numbers in decimal notation, as bytes.

A reader takes the digits that a text starts with and ignores what follows. A number that is written
without leading zeros is read back, whatever stands behind it, unless that goes on with a digit.
-/

namespace Lib.Decimal

def isDigit (c : UInt8) : Bool := 48 ≤ c && c ≤ 57

/-- The digits at the beginning of a text. -/
def leading (s : List UInt8) : List UInt8 := s.takeWhile isDigit

/-- The number that digits stand for. -/
def value (ds : List UInt8) : ℕ := ds.foldl (fun n c => 10 * n + (c.toNat - 48)) 0

/-- A number, as `%u` writes it. -/
def text (n : ℕ) : List UInt8 :=
  if n = 0 then [48] else ((Nat.digits 10 n).map fun d => UInt8.ofNat (48 + d)).reverse

variable {n : ℕ} {c : UInt8} {s : List UInt8}

theorem digit_toNat {d : ℕ} (h : d < 10) : (UInt8.ofNat (48 + d)).toNat = 48 + d := by
  rw [UInt8.toNat_ofNat']
  omega

theorem isDigit_ofNat {d : ℕ} (h : d < 10) : isDigit (UInt8.ofNat (48 + d)) = true := by
  simp only [isDigit, Bool.and_eq_true, decide_eq_true_eq, UInt8.le_iff_toNat_le, digit_toNat h]
  exact ⟨Nat.le_add_right 48 d, by show 48 + d ≤ 57; omega⟩

theorem isDigit_of_mem_text (h : c ∈ text n) : isDigit c = true := by
  unfold text at h
  split at h
  · rw [List.mem_singleton.1 h]
    rfl
  · rw [List.mem_reverse] at h
    obtain ⟨d, hd, rfl⟩ := List.mem_map.1 h
    exact isDigit_ofNat (Nat.digits_lt_base (by decide) hd)

theorem text_ne_nil (n : ℕ) : text n ≠ [] := by
  unfold text
  split
  · exact List.cons_ne_nil _ _
  · next hn =>
      rw [Ne, List.reverse_eq_nil_iff, List.map_eq_nil_iff]
      exact Nat.digits_ne_nil_iff_ne_zero.2 hn

/-- The last digit counts once, and all others ten times more. -/
theorem value_append (ds : List UInt8) (c : UInt8) : value (ds ++ [c]) = 10 * value ds + (c.toNat - 48) := by
  rw [value, List.foldl_append]
  rfl

theorem value_digits {ds : List ℕ} (h : ∀ d ∈ ds, d < 10) :
    value (ds.map fun d => UInt8.ofNat (48 + d)).reverse = Nat.ofDigits 10 ds := by
  induction ds with
  | nil => rfl
  | cons d ds ih =>
      have hd := h d List.mem_cons_self
      rw [List.map_cons, List.reverse_cons, value_append, ih fun d' hd' => h d' (List.mem_cons_of_mem d hd'),
        digit_toNat hd, Nat.ofDigits_cons]
      omega

/-- What is written is read. -/
@[simp] theorem value_text (n : ℕ) : value (text n) = n := by
  unfold text
  split
  · next hn =>
      rw [hn]
      rfl
  · rw [value_digits fun d hd => Nat.digits_lt_base (by decide) hd, Nat.ofDigits_digits]

theorem leading_text (h : ∀ c ∈ s.head?, isDigit c = false) : leading (text n ++ s) = text n := by
  unfold leading
  rw [List.takeWhile_append_of_pos fun c hc => isDigit_of_mem_text hc]
  cases s with
  | nil => rw [List.takeWhile_nil, List.append_nil]
  | cons c s =>
      have hc : ¬ isDigit c = true := by
        rw [h c rfl]
        exact Bool.false_ne_true
      rw [List.takeWhile_cons_of_neg hc, List.append_nil]

theorem text_injective {m : ℕ} (h : text m = text n) : m = n := by
  rw [← value_text m, h, value_text]

end Lib.Decimal
