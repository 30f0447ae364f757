import Mathlib.Data.Nat.Bitwise

/-!
Sets of numbers as bits in bytes.

The number `n` is the bit `n % 8` of the byte `n / 8`. What is behind the last byte is not in the set, so
zeros may be added there. The numbers from some number on can be asked for one after the other: `rest` is what
is left of the set then.
-/

namespace Lib.Bitmap

/-- Whether `n` is in the set. -/
def bit (bytes : List UInt8) (n : ℕ) : Bool := bytes.getD (n / 8) 0 &&& 1 <<< UInt8.ofNat (n % 8) ≠ 0

def setBit (bytes : List UInt8) (n : ℕ) : List UInt8 :=
  bytes.set (n / 8) (bytes.getD (n / 8) 0 ||| 1 <<< UInt8.ofNat (n % 8))

variable {bytes : List UInt8} {m n : ℕ}

theorem toNat_one_shiftLeft (n : ℕ) : ((1 : UInt8) <<< UInt8.ofNat (n % 8)).toNat = 2 ^ (n % 8) := by
  have hlt : n % 8 < 8 := Nat.mod_lt _ (by decide)
  have hpow : 2 ^ (n % 8) < 2 ^ 8 := Nat.pow_lt_pow_right (by decide) hlt
  have hmod : n % 8 % 2 ^ 8 % 8 = n % 8 := by omega
  rw [UInt8.toNat_shiftLeft, UInt8.toNat_ofNat', hmod, Nat.shiftLeft_eq, UInt8.toNat_one, Nat.one_mul]
  exact Nat.mod_eq_of_lt hpow

theorem bit_eq_testBit : bit bytes n = (bytes.getD (n / 8) 0).toNat.testBit (n % 8) := by
  have hzero : (bytes.getD (n / 8) 0 &&& 1 <<< UInt8.ofNat (n % 8) ≠ 0) ↔
      (bytes.getD (n / 8) 0).toNat.testBit (n % 8) = true := by
    rw [← UInt8.toNat_inj.ne, UInt8.toNat_and, toNat_one_shiftLeft, Nat.and_two_pow]
    cases (bytes.getD (n / 8) 0).toNat.testBit (n % 8) <;> simp
  rw [bit, Bool.eq_iff_iff, decide_eq_true_iff]
  exact hzero

theorem bit_of_length_le (h : bytes.length ≤ n / 8) : bit bytes n = false := by
  rw [bit_eq_testBit, List.getD_eq_default _ _ h]
  exact Nat.zero_testBit _

theorem lt_of_bit (h : bit bytes n = true) : n < 8 * bytes.length := by
  by_contra hle
  rw [bit_of_length_le (by omega)] at h
  cases h

/-- The set has one more number. -/
theorem bit_setBit (h : n / 8 < bytes.length) : bit (setBit bytes n) m = (decide (n = m) || bit bytes m) := by
  have hsplit : n = m ↔ n / 8 = m / 8 ∧ n % 8 = m % 8 := by omega
  rw [bit_eq_testBit, bit_eq_testBit, setBit]
  by_cases hbyte : n / 8 = m / 8
  · have hget : (bytes.set (n / 8) (bytes.getD (n / 8) 0 ||| 1 <<< UInt8.ofNat (n % 8))).getD (m / 8) 0 =
        bytes.getD (n / 8) 0 ||| 1 <<< UInt8.ofNat (n % 8) := by
      rw [← hbyte, List.getD_eq_getElem?_getD, List.getElem?_set_self h, Option.getD_some]
    rw [hget, UInt8.toNat_or, Nat.testBit_or, toNat_one_shiftLeft, Nat.testBit_two_pow, Bool.or_comm, hbyte]
    exact congrArg₂ _ (by simp [hsplit, hbyte]) rfl
  · have hget : (bytes.set (n / 8) (bytes.getD (n / 8) 0 ||| 1 <<< UInt8.ofNat (n % 8))).getD (m / 8) 0 =
        bytes.getD (m / 8) 0 := by
      rw [List.getD_eq_getElem?_getD, List.getElem?_set_ne hbyte, ← List.getD_eq_getElem?_getD]
    have hne : n ≠ m := fun heq => hbyte (by rw [heq])
    rw [hget, decide_eq_false hne, Bool.false_or]

theorem bit_append_zeros (k : ℕ) : bit (bytes ++ List.replicate k 0) n = bit bytes n := by
  have hget : (bytes ++ List.replicate k 0).getD (n / 8) 0 = bytes.getD (n / 8) 0 := by
    rw [List.getD_eq_getElem?_getD, List.getD_eq_getElem?_getD]
    by_cases hlt : n / 8 < bytes.length
    · rw [List.getElem?_append_left hlt]
    · rw [List.getElem?_append_right (by omega), List.getElem?_replicate, List.getElem?_eq_none (by omega)]
      split <;> rfl
  rw [bit, bit, hget]

/-! ### The numbers in their order -/

/-- The numbers of the set from `n` on. -/
def rest (bytes : List UInt8) (n : ℕ) : List ℕ :=
  (List.range' n (8 * bytes.length - n)).filter fun m => bit bytes m

theorem mem_rest : m ∈ rest bytes n ↔ n ≤ m ∧ bit bytes m = true := by
  rw [rest, List.mem_filter, List.mem_range'_1]
  refine ⟨fun h => ⟨h.1.1, h.2⟩, fun h => ⟨⟨h.1, ?_⟩, h.2⟩⟩
  have hlt := lt_of_bit h.2
  omega

theorem rest_of_le (h : 8 * bytes.length ≤ n) : rest bytes n = [] := by
  rw [rest, Nat.sub_eq_zero_of_le h]
  rfl

theorem rest_eq (h : n < 8 * bytes.length) :
    rest bytes n = if bit bytes n then n :: rest bytes (n + 1) else rest bytes (n + 1) := by
  obtain ⟨k, hk⟩ := Nat.exists_eq_add_of_lt h
  have hn : 8 * bytes.length - n = k + 1 := by omega
  have hn' : 8 * bytes.length - (n + 1) = k := by omega
  rw [rest, rest, hn, hn', List.range'_succ, List.filter_cons]

theorem rest_pairwise : (rest bytes n).Pairwise (· < ·) :=
  List.Pairwise.filter _ List.pairwise_lt_range'

/-- A list in ascending order is what is read off a bitmap, if the same numbers are in both. -/
theorem rest_eq_of_mem {l : List ℕ} (hl : l.Pairwise (· < ·)) (h : ∀ m, m ∈ l ↔ bit bytes m = true) :
    rest bytes 0 = l := by
  refine List.Perm.eq_of_pairwise (fun a b _ _ hab hba => absurd hab (Nat.lt_asymm hba)) rest_pairwise hl ?_
  refine (List.perm_ext_iff_of_nodup (rest_pairwise.imp Nat.ne_of_lt) (hl.imp Nat.ne_of_lt)).2 fun m => ?_
  rw [mem_rest, h]
  exact and_iff_right (Nat.zero_le m)

end Lib.Bitmap
