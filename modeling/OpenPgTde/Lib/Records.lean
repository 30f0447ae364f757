import OpenPgTde.Lib.Splice

/-!
Files of records of one size.

A file is read record by record: the record at place `i` is what stands from `i * n` on, as long as
all of it is there. What is left behind the last whole record is a tail; it is shorter than a record,
and comes from a write that was cut off. Readers do not see it, but everything that is written at the
end of the file comes after it.
-/

namespace Lib.Records

open Lib.Splice

variable {α : Type} {n : ℕ} {rs : List (List α)}

/-- The whole records of a file. -/
def records (n : ℕ) (file : List α) : List (List α) :=
  (List.range (file.length / n)).map fun i => slice file (i * n) n

/-- The records have this size. -/
def AllOf (n : ℕ) (rs : List (List α)) : Prop := ∀ r ∈ rs, r.length = n

theorem AllOf.cons {r : List α} (h : AllOf n (r :: rs)) : r.length = n ∧ AllOf n rs :=
  ⟨h r List.mem_cons_self, fun a ha => h a (List.mem_cons_of_mem r ha)⟩

theorem AllOf.append {rs' : List (List α)} (h : AllOf n rs) (h' : AllOf n rs') : AllOf n (rs ++ rs') :=
  fun r hr => (List.mem_append.1 hr).elim (h r) (h' r)

theorem AllOf.set {r : List α} (h : AllOf n rs) (i : ℕ) (hr : r.length = n) : AllOf n (rs.set i r) := by
  intro a ha
  obtain ha | rfl := List.mem_or_eq_of_mem_set ha
  · exact h a ha
  · exact hr

theorem AllOf.length_flatten (h : AllOf n rs) : rs.flatten.length = rs.length * n := by
  induction rs with
  | nil => simp
  | cons r rs ih =>
      obtain ⟨hr, hrs⟩ := h.cons
      rw [List.flatten_cons, List.length_append, hr, ih hrs, List.length_cons, Nat.succ_mul]
      omega

theorem AllOf.slice_flatten (h : AllOf n rs) {i : ℕ} (hi : i < rs.length) (tail : List α) :
    slice (rs.flatten ++ tail) (i * n) n = rs[i] := by
  induction rs generalizing i with
  | nil => simp at hi
  | cons r rs ih =>
      obtain ⟨hr, hrs⟩ := h.cons
      rw [List.flatten_cons, List.append_assoc]
      cases i with
      | zero =>
          rw [Nat.zero_mul, slice_append_left (by omega), List.getElem_cons_zero]
          simp [slice, ← hr]
      | succ i =>
          rw [Nat.succ_mul, Nat.add_comm, ← hr, slice_append_right, hr, List.getElem_cons_succ]
          exact ih hrs (by simpa using hi)

/-- A write into the record at place `i`. -/
theorem AllOf.overwrite_flatten (h : AllOf n rs) {i a : ℕ} (hi : i < rs.length) {b : List α}
    (hb : a + b.length ≤ n) (tail : List α) :
    overwrite (rs.flatten ++ tail) (i * n + a) b =
      (rs.set i (overwrite rs[i] a b)).flatten ++ tail := by
  induction rs generalizing i with
  | nil => simp at hi
  | cons r rs ih =>
      obtain ⟨hr, hrs⟩ := h.cons
      rw [List.flatten_cons, List.append_assoc]
      cases i with
      | zero =>
          rw [Nat.zero_mul, Nat.zero_add, overwrite_append_left (by omega)]
          simp
      | succ i =>
          have hplace : (i + 1) * n + a = r.length + (i * n + a) := by
            rw [Nat.succ_mul, hr]
            omega
          rw [hplace, overwrite_append_right, ih hrs (by simpa using hi)]
          simp

theorem AllOf.length_div (h : AllOf n rs) (tail : List α) (htail : tail.length < n) :
    (rs.flatten ++ tail).length / n = rs.length := by
  rw [List.length_append, h.length_flatten, Nat.add_comm, Nat.add_mul_div_right _ _ (by omega),
    Nat.div_eq_of_lt htail, Nat.zero_add]

/-- Readers see the records and nothing of the tail. -/
theorem AllOf.records_flatten (h : AllOf n rs) (tail : List α) (htail : tail.length < n) :
    records n (rs.flatten ++ tail) = rs := by
  unfold records
  rw [h.length_div tail htail]
  apply List.ext_getElem
  · simp
  · intro i hi _
    simp only [List.length_map, List.length_range] at hi
    simp [h.slice_flatten hi tail]

/-- What is written behind a file comes behind its records. -/
theorem records_append (file more : List α) :
    ∃ rest, records n (file ++ more) = records n file ++ rest := by
  have hle : file.length / n ≤ (file ++ more).length / n :=
    Nat.div_le_div_right (by simp)
  obtain ⟨k, hk⟩ := Nat.exists_eq_add_of_le hle
  unfold records
  rw [hk, List.range_add, List.map_append]
  refine ⟨_, congrArg (· ++ _) (List.map_congr_left fun i hi => ?_)⟩
  have hi : (i + 1) * n ≤ file.length / n * n :=
    Nat.mul_le_mul_right n (List.mem_range.1 hi)
  have hfile : file.length / n * n ≤ file.length := Nat.div_mul_le_self _ _
  rw [Nat.succ_mul] at hi
  exact slice_append_left (by omega) more

/-- A record that is written behind whole records is one more record. -/
theorem records_append_of_dvd {file r : List α} (h : n ∣ file.length) (hr : r.length = n)
    (hn : 0 < n) : records n (file ++ r) = records n file ++ [r] := by
  obtain ⟨m, hm⟩ := h
  have hdiv : file.length / n = m := by rw [hm, Nat.mul_div_cancel_left m hn]
  have hdiv' : (file ++ r).length / n = m + 1 := by
    rw [List.length_append, hm, hr, ← Nat.mul_succ, Nat.mul_div_cancel_left _ hn]
  unfold records
  rw [hdiv, hdiv', List.range_succ, List.map_append]
  congr 1
  · apply List.map_congr_left
    intro i hi
    have hi : (i + 1) * n ≤ m * n := Nat.mul_le_mul_right n (List.mem_range.1 hi)
    rw [Nat.succ_mul, Nat.mul_comm m n] at hi
    exact slice_append_left (by omega) r
  · have hplace : m * n = file.length + 0 := by rw [hm, Nat.mul_comm, Nat.add_zero]
    rw [List.map_singleton, hplace, slice_append_right, ← hr]
    simp [slice]

/-- A file is its records and a tail that is shorter than a record. -/
theorem exists_tail (hn : 0 < n) (file : List α) : AllOf n (records n file) ∧
    ∃ tail, tail.length < n ∧ file = (records n file).flatten ++ tail := by
  have hlen : file.length / n * n ≤ file.length := Nat.div_mul_le_self _ _
  have hfront : ∀ k ≤ file.length / n,
      ((List.range k).map fun i => slice file (i * n) n).flatten = file.take (k * n) := by
    intro k hk
    induction k with
    | zero => simp
    | succ k ih =>
        rw [List.range_succ, List.map_append, List.flatten_append, ih (by omega), Nat.succ_mul,
          List.take_add]
        simp [slice]
  refine ⟨fun r hr => ?_, file.drop (file.length / n * n), ?_, ?_⟩
  · obtain ⟨i, hi, rfl⟩ := List.mem_map.1 hr
    have hi : (i + 1) * n ≤ file.length / n * n :=
      Nat.mul_le_mul_right n (List.mem_range.1 hi)
    rw [Nat.succ_mul] at hi
    rw [length_slice]
    omega
  · have hmod := Nat.mod_lt file.length hn
    have hdiv := Nat.div_add_mod' file.length n
    rw [List.length_drop]
    omega
  · unfold records
    rw [hfront _ (Nat.le_refl _), List.take_append_drop]

/-- A write into a record leaves the others as they are, and the tail too. -/
theorem records_overwrite {file b : List α} (hn : 0 < n) {i : ℕ} (hi : i < (records n file).length)
    (hb : b.length ≤ n) : records n (overwrite file (i * n) b) =
      (records n file).set i (overwrite (records n file)[i] 0 b) := by
  obtain ⟨hall, tail, htail, hfile⟩ := exists_tail hn file
  generalize records n file = rs at *
  subst hfile
  have hover := hall.overwrite_flatten hi (a := 0) (b := b) (by omega) tail
  rw [Nat.add_zero] at hover
  rw [hover]
  apply (hall.set i _).records_flatten tail htail
  rw [length_overwrite (Nat.zero_le _), hall _ (List.getElem_mem hi)]
  omega

/-- A write behind the last record overwrites the tail. It makes a record only if it is one. -/
theorem records_overwrite_length {file b : List α} (hn : 0 < n) (hb : b.length ≤ n) :
    records n (overwrite file ((records n file).length * n) b) =
      records n file ++ if b.length = n then [b] else [] := by
  obtain ⟨hall, tail, htail, hfile⟩ := exists_tail hn file
  generalize records n file = rs at *
  subst hfile
  rw [← hall.length_flatten, ← Nat.add_zero rs.flatten.length, overwrite_append_right]
  have hlen : (overwrite tail 0 b).length = max tail.length b.length := by
    rw [length_overwrite (Nat.zero_le _), Nat.zero_add]
  split
  · rename_i hfull
    have hover : overwrite tail 0 b = b := overwrite_zero (by omega)
    have hone : AllOf n [b] := fun r hr => by rw [List.mem_singleton.1 hr, hfull]
    have hread := (hall.append hone).records_flatten [] hn
    rw [hover]
    simpa using hread
  · rw [hall.records_flatten _ (by omega), List.append_nil]

/-! ### The fields of a record -/

/-- A record cut into fields of these sizes. -/
def split : List ℕ → List α → List (List α)
  | [], _ => []
  | m :: sizes, l => l.take m :: split sizes (l.drop m)

theorem split_flatten (parts : List (List α)) (tail : List α) :
    split (parts.map List.length) (parts.flatten ++ tail) = parts := by
  induction parts with
  | nil => rfl
  | cons p parts ih =>
      rw [List.map_cons, split, List.flatten_cons, List.append_assoc, List.take_left,
        List.drop_left, ih]

/-- A write of one field. -/
theorem overwrite_field {parts : List (List α)} {i : ℕ} (hi : i < parts.length) {b : List α}
    (hb : b.length = parts[i].length) :
    overwrite parts.flatten (parts.take i).flatten.length b = (parts.set i b).flatten := by
  induction parts generalizing i with
  | nil => simp at hi
  | cons p parts ih =>
      rw [List.flatten_cons]
      cases i with
      | zero =>
          rw [List.getElem_cons_zero] at hb
          simp [overwrite, hb]
      | succ i =>
          rw [List.getElem_cons_succ] at hb
          rw [List.take_succ_cons, List.flatten_cons, List.length_append, overwrite_append_right,
            ih (by simpa using hi) hb]
          rfl

/-- Fields `as` after a write of the fields `bs` that was cut off after `n` bytes. -/
def cutFields : ℕ → List (List α) → List (List α) → List (List α)
  | n, a :: as, b :: bs => overwrite a 0 (b.take n) :: cutFields (n - a.length) as bs
  | _, as, _ => as

/-- A record of fields of the same sizes is cut field by field. -/
theorem overwrite_take_flatten {as bs : List (List α)}
    (h : as.map List.length = bs.map List.length) (n : ℕ) :
    overwrite as.flatten 0 (bs.flatten.take n) = (cutFields n as bs).flatten := by
  induction as generalizing n bs with
  | nil =>
      obtain rfl : bs = [] := by simpa using h.symm
      simp [cutFields]
  | cons a as ih =>
      obtain _ | ⟨b, bs⟩ := bs
      · simp at h
      · simp only [List.map_cons, List.cons.injEq] at h
        rw [cutFields, List.flatten_cons, List.flatten_cons, List.flatten_cons, ← ih h.2,
          List.take_append, ← h.1]
        rcases Nat.le_total n a.length with hn | hn
        · rw [Nat.sub_eq_zero_of_le hn, List.take_zero, List.append_nil, overwrite_nil]
          exact overwrite_append_left (by rw [List.length_take]; omega) _
        · have hhead : overwrite a 0 b = b := overwrite_zero (by omega)
          rw [List.take_of_length_le (by omega), hhead, overwrite, List.take_zero, List.nil_append,
            List.length_append, Nat.zero_add, ← h.1, List.drop_length_add_append, List.append_assoc]
          simp [overwrite]

theorem length_cutFields {as bs : List (List α)} (h : as.map List.length = bs.map List.length)
    (n : ℕ) : (cutFields n as bs).map List.length = as.map List.length := by
  induction as generalizing n bs with
  | nil => simp [cutFields]
  | cons a as ih =>
      obtain _ | ⟨b, bs⟩ := bs
      · simp at h
      · simp only [List.map_cons, List.cons.injEq] at h
        rw [cutFields, List.map_cons, List.map_cons, ih h.2, length_overwrite (Nat.zero_le _),
          List.length_take]
        congr 1
        omega

end Lib.Records
