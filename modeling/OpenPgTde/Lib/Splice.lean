import Mathlib.Data.List.Basic

/-!
Reading and writing a stretch of a list.

`slice l a n` is what is in `l` from `a` on, `n` elements of it or as many as there are;
`overwrite l a b` is `l` with `b` from `a` on, longer than `l` if `b` reaches beyond its end. The list
stands for a file or a buffer, so `a` is not beyond the end.

Both are known by their elements: the equations between them are proved by comparing what is at each
position.
-/

namespace Lib.Splice

variable {α : Type}

/-- The elements of `l` from `a` on, at most `n`. -/
def slice (l : List α) (a n : ℕ) : List α := (l.drop a).take n

/-- The list `l` with `b` from `a` on. -/
def overwrite (l : List α) (a : ℕ) (b : List α) : List α := l.take a ++ b ++ l.drop (a + b.length)

@[simp] theorem length_slice (l : List α) (a n : ℕ) :
    (slice l a n).length = min n (l.length - a) := by
  simp [slice]

@[simp] theorem slice_zero (l : List α) (a : ℕ) : slice l a 0 = [] := by simp [slice]

@[simp] theorem overwrite_nil (l : List α) (a : ℕ) : overwrite l a [] = l := by simp [overwrite]

theorem getElem?_slice (l : List α) (a n i : ℕ) :
    (slice l a n)[i]? = if i < n then l[a + i]? else none := by
  unfold slice
  split
  · rename_i hi
    rw [List.getElem?_take_of_lt hi, List.getElem?_drop]
  · rename_i hi
    exact List.getElem?_eq_none (by simp; omega)

theorem length_overwrite {l : List α} {a : ℕ} (h : a ≤ l.length) (b : List α) :
    (overwrite l a b).length = max l.length (a + b.length) := by
  simp [overwrite]
  omega

theorem getElem?_overwrite {l : List α} {a : ℕ} (h : a ≤ l.length) (b : List α) (i : ℕ) :
    (overwrite l a b)[i]? = if a ≤ i ∧ i < a + b.length then b[i - a]? else l[i]? := by
  unfold overwrite
  have hlen : (l.take a).length = a := by simp; omega
  rcases Nat.lt_or_ge i a with hi | hi
  · rw [List.append_assoc, List.getElem?_append_left (by omega), List.getElem?_take_of_lt hi,
      if_neg (by omega)]
  · rcases Nat.lt_or_ge i (a + b.length) with hb | hb
    · rw [if_pos ⟨hi, hb⟩, List.getElem?_append_left (by simp; omega),
        List.getElem?_append_right (by omega), hlen]
    · rw [if_neg (by omega), List.getElem?_append_right (by simp; omega), List.getElem?_drop]
      congr 1
      simp
      omega

/-- Asking for more than there is gives what there is. -/
theorem slice_min (l : List α) (a n : ℕ) : slice l a (min n (l.length - a)) = slice l a n := by
  apply List.ext_getElem?
  intro i
  rw [getElem?_slice, getElem?_slice]
  rcases Nat.lt_or_ge i (l.length - a) with hi | hi
  · simp only [Nat.lt_min, hi, and_true]
  · rw [if_neg (by omega)]
    split
    · rw [List.getElem?_eq_none (by omega)]
    · rfl

/-- What was written is what is there. -/
theorem slice_overwrite_self {l : List α} {a : ℕ} (h : a ≤ l.length) (b : List α) :
    slice (overwrite l a b) a b.length = b := by
  apply List.ext_getElem?
  intro i
  rw [getElem?_slice, getElem?_overwrite h]
  split
  · rename_i hi
    rw [if_pos (by omega), Nat.add_sub_cancel_left]
  · rename_i hi
    rw [List.getElem?_eq_none (by omega)]

/-- A stretch that was not written to is what it was. -/
theorem slice_overwrite_of_disjoint {l : List α} {a a' n : ℕ} (h : a ≤ l.length) (b : List α)
    (hd : ∀ i < n, ¬(a ≤ a' + i ∧ a' + i < a + b.length)) :
    slice (overwrite l a b) a' n = slice l a' n := by
  apply List.ext_getElem?
  intro i
  rw [getElem?_slice, getElem?_slice]
  split
  · rename_i hi
    rw [getElem?_overwrite h, if_neg (hd i hi)]
  · rfl

/-- Writing back what is there changes nothing. -/
theorem overwrite_slice {l : List α} {a : ℕ} (h : a ≤ l.length) (n : ℕ) :
    overwrite l a (slice l a n) = l := by
  apply List.ext_getElem?
  intro i
  rw [getElem?_overwrite h, length_slice]
  split
  · rename_i hi
    rw [getElem?_slice, if_pos (by omega)]
    congr 1
    omega
  · rfl

/-- Two writes, the second one into or right behind the first. -/
theorem overwrite_overwrite {l : List α} {a k : ℕ} {b : List α} (h : a ≤ l.length)
    (hk : k ≤ b.length) (b' : List α) :
    overwrite (overwrite l a b) (a + k) b' = overwrite l a (overwrite b k b') := by
  have h' : a + k ≤ (overwrite l a b).length := by
    rw [length_overwrite h]
    omega
  apply List.ext_getElem?
  intro i
  rw [getElem?_overwrite h', getElem?_overwrite h, getElem?_overwrite h, length_overwrite hk,
    getElem?_overwrite hk]
  rcases Nat.lt_or_ge i a with hi | hi
  · rw [if_neg (by omega), if_neg (by omega), if_neg (by omega)]
  · by_cases hb' : a + k ≤ i ∧ i < a + k + b'.length
    · rw [if_pos hb', if_pos (by omega), if_pos (by omega)]
      congr 1
      omega
    · rw [if_neg hb', if_neg (by omega : ¬(k ≤ i - a ∧ i - a < k + b'.length))]
      by_cases hb : i < a + b.length
      · rw [if_pos ⟨hi, hb⟩, if_pos (by omega)]
      · rw [if_neg (by omega)]
        split
        · rw [List.getElem?_eq_none (l := b) (by omega)]
          omega
        · rfl

/-- A write done in two parts. -/
theorem overwrite_take_drop {l : List α} {a : ℕ} (h : a ≤ l.length) (b : List α) {n : ℕ}
    (hn : n ≤ b.length) :
    overwrite (overwrite l a (b.take n)) (a + n) (b.drop n) = overwrite l a b := by
  have htake : (b.take n).length = n := by simp; omega
  have hrest : (b.take n).drop (n + (b.drop n).length) = [] :=
    List.drop_eq_nil_of_le (by omega)
  rw [overwrite_overwrite h (by omega)]
  congr 1
  rw [overwrite, hrest, List.take_take, Nat.min_self, List.append_nil, List.take_append_drop]

/-- A stretch read in two parts. -/
theorem slice_append (l : List α) (a : ℕ) {m n : ℕ} (h : m ≤ n) :
    slice l a m ++ slice l (a + m) (n - m) = slice l a n := by
  obtain ⟨k, rfl⟩ := Nat.exists_eq_add_of_le h
  unfold slice
  rw [Nat.add_sub_cancel_left, List.take_add, List.drop_drop]

/-! ### Lists in two parts -/

theorem slice_append_left {l : List α} {a n : ℕ} (h : a + n ≤ l.length) (m : List α) :
    slice (l ++ m) a n = slice l a n := by
  unfold slice
  rw [List.drop_append_of_le_length (by omega), List.take_append_of_le_length (by simp; omega)]

theorem slice_append_right (l m : List α) (a n : ℕ) : slice (l ++ m) (l.length + a) n = slice m a n := by
  unfold slice
  rw [List.drop_length_add_append]

theorem overwrite_append_left {l b : List α} {a : ℕ} (h : a + b.length ≤ l.length) (m : List α) :
    overwrite (l ++ m) a b = overwrite l a b ++ m := by
  unfold overwrite
  rw [List.take_append_of_le_length (by omega), List.drop_append_of_le_length h, List.append_assoc,
    List.append_assoc, List.append_assoc]

theorem overwrite_append_right (l m b : List α) (a : ℕ) :
    overwrite (l ++ m) (l.length + a) b = l ++ overwrite m a b := by
  unfold overwrite
  rw [List.take_length_add_append, Nat.add_assoc, List.drop_length_add_append]
  simp only [List.append_assoc]

/-- A write over all there is. -/
theorem overwrite_zero {l b : List α} (h : l.length ≤ b.length) : overwrite l 0 b = b := by
  simp [overwrite, List.drop_eq_nil_of_le h]

/-- A write behind the end. -/
theorem overwrite_length (l b : List α) : overwrite l l.length b = l ++ b := by
  simp [overwrite]

/-! ### Lists changed place by place

What becomes of an element may depend on where it is. -/

section Places

variable {β : Type} {f : ℕ → α → β}

theorem mapIdx_slice (f : ℕ → α → β) (l : List α) (a n : ℕ) :
    slice (l.mapIdx f) a n = (slice l a n).mapIdx fun i => f (a + i) := by
  apply List.ext_getElem?
  intro i
  rw [getElem?_slice, List.getElem?_mapIdx, List.getElem?_mapIdx, getElem?_slice]
  split
  · rfl
  · rfl

theorem mapIdx_overwrite (f : ℕ → α → β) {l : List α} {a : ℕ} (h : a ≤ l.length) (b : List α) :
    (overwrite l a b).mapIdx f = overwrite (l.mapIdx f) a (b.mapIdx fun i => f (a + i)) := by
  have h' : a ≤ (l.mapIdx f).length := by rwa [List.length_mapIdx]
  apply List.ext_getElem?
  intro i
  rw [List.getElem?_mapIdx, getElem?_overwrite h, getElem?_overwrite h', List.length_mapIdx]
  split
  · next hin =>
      rw [List.getElem?_mapIdx, Nat.add_sub_cancel' hin.1]
  · rw [List.getElem?_mapIdx]

theorem mapIdx_take (f : ℕ → α → β) (l : List α) (n : ℕ) : (l.take n).mapIdx f = (l.mapIdx f).take n := by
  apply List.ext_getElem?
  intro i
  rw [List.getElem?_mapIdx, List.getElem?_take, List.getElem?_take]
  split
  · rw [List.getElem?_mapIdx]
  · rfl

/-- What a list is extended by may be the same everywhere. -/
theorem mapIdx_append_replicate {x : α} {y : β} (h : ∀ i, f i x = y) (l : List α) (n : ℕ) :
    (l ++ List.replicate n x).mapIdx f = l.mapIdx f ++ List.replicate n y := by
  have hrest : (List.replicate n x).mapIdx (fun i => f (i + l.length)) = List.replicate n y := by
    apply List.ext_getElem?
    intro i
    rw [List.getElem?_mapIdx, List.getElem?_replicate, List.getElem?_replicate]
    split
    · rw [Option.map_some, h]
    · rfl
  rw [List.mapIdx_append, hrest]

end Places

end Lib.Splice
