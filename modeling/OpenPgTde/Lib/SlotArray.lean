import Mathlib.Data.List.Nodup
import Mathlib.Data.Set.Card

/-!
Unordered arrays of slots, the file format of choice of programs that update records in place.

A slot is either free or holds a record with a key. `key a` is the key of the record in slot `a`,
`none` when the slot is free. New records go to the first free slot, or to the end when there is
none; a record is replaced where it stands; an erased record leaves a free slot behind. The array
is then a finite map from keys to records as long as no key occurs twice, and this is what the
module proves of the three operations, so that a user only has to show that its scan is `findSlot`.
-/

namespace Lib.SlotArray

variable {α κ : Type}

/-! ### The operations -/

/-- One pass over the slots `l`, the first of which has index `i`. It stops at the first match and
remembers in `w` the first free slot seen. The result says whether there was a match and where to
write: at the match, else at the first free slot, else after the last slot. -/
def findSlot (isMatch isFree : α → Bool) : List α → ℕ → Option ℕ → Bool × ℕ
  | [], i, w => (false, w.getD i)
  | a :: l, i, w =>
    if isMatch a then (true, i)
    else findSlot isMatch isFree l (i + 1) (if w.isNone && isFree a then some i else w)

/-- Overwrite slot `i`; writing right after the last slot makes the array longer. -/
def writeAt (l : List α) (i : ℕ) (a : α) : List α :=
  l.take i ++ a :: l.drop (i + 1)

/-- Overwrite the first slot that matches. -/
def overwriteFirst (isMatch : α → Bool) (b : α) : List α → List α
  | [] => []
  | a :: l => if isMatch a then b :: l else a :: overwriteFirst isMatch b l

/-! ### The map an array stands for -/

variable (key : α → Option κ)

/-- The record with key `k`, the first one if there were several. -/
def find [DecidableEq κ] (k : κ) (l : List α) : Option α := l.find? fun a => key a = some k

/-- No key occurs twice. -/
def Unique (l : List α) : Prop := (l.filterMap key).Nodup

variable {key} {k k' : κ} {a b : α} {l pre post : List α}

section Lookup

variable [DecidableEq κ]

theorem find_eq_none_iff : find key k l = none ↔ ∀ a ∈ l, key a ≠ some k := by
  simp [find]

theorem key_of_find (h : find key k l = some a) : key a = some k := by
  simpa using List.find?_some h

theorem mem_of_find (h : find key k l = some a) : a ∈ l :=
  List.mem_of_find?_eq_some h

/-- In an array without duplicates the record with a key is the only one, wherever it stands. -/
theorem find_of_mem (hl : Unique key l) (ha : a ∈ l) (hk : key a = some k) :
    find key k l = some a := by
  induction l with
  | nil => cases ha
  | cons b l ih =>
      by_cases hb : key b = some k
      · have hnot : ∀ c ∈ l, key c ≠ some k := by
          intro c hc hck
          rw [Unique, List.filterMap_cons_some hb, List.nodup_cons] at hl
          exact hl.1 (List.mem_filterMap.2 ⟨c, hc, hck⟩)
        rcases List.mem_cons.1 ha with rfl | hal
        · simp [find, hk]
        · exact absurd hk (hnot a hal)
      · have hal : a ∈ l := by
          rcases List.mem_cons.1 ha with rfl | hal
          · exact absurd hk hb
          · exact hal
        have hl' : Unique key l := by
          unfold Unique at hl ⊢
          rw [List.filterMap_cons] at hl
          split at hl
          · exact hl
          · exact hl.of_cons
        simpa [find, hb] using ih hl' hal

end Lookup

/-! ### Replacing one slot

The three operations change at most one slot. What that does to the map depends only on the key of
the slot before and after, so the two lemmas below are about a slot `b` in the middle of an array
that becomes a slot `a`. -/

/-- Keys outside the changed slot are looked up as before. -/
theorem find_replace_of_ne [DecidableEq κ] (ha : key a ≠ some k) (hb : key b ≠ some k) :
    find key k (pre ++ a :: post) = find key k (pre ++ b :: post) := by
  simp [find, List.find?_append, ha, hb]

/-- Writing a record under a key that no other slot has keeps the keys unique. -/
theorem Unique.replace (hl : Unique key (pre ++ b :: post)) (ha : key a = some k)
    (hpre : ∀ c ∈ pre, key c ≠ some k) (hpost : ∀ c ∈ post, key c ≠ some k) :
    Unique key (pre ++ a :: post) := by
  have hold : (pre.filterMap key ++ post.filterMap key).Nodup := by
    unfold Unique at hl
    rw [List.filterMap_append, List.filterMap_cons] at hl
    split at hl
    · exact hl
    · exact (List.nodup_middle.1 hl).of_cons
  unfold Unique
  rw [List.filterMap_append, List.filterMap_cons_some ha, List.nodup_middle, List.nodup_cons]
  refine ⟨?_, hold⟩
  simp only [List.mem_append, List.mem_filterMap, not_or, not_exists, not_and]
  exact ⟨hpre, hpost⟩

/-- No slot but `b` has the key of `b`. -/
theorem Unique.ne_of_mem (hl : Unique key (pre ++ b :: post)) (hb : key b = some k) :
    ∀ c ∈ pre ++ post, key c ≠ some k := by
  intro c hc hck
  unfold Unique at hl
  rw [List.filterMap_append, List.filterMap_cons_some hb, List.nodup_middle, List.nodup_cons,
    ← List.filterMap_append] at hl
  exact hl.1 (List.mem_filterMap.2 ⟨c, hc, hck⟩)

/-- Freeing a slot keeps the keys unique. -/
theorem Unique.free (hl : Unique key (pre ++ b :: post)) (ha : key a = none) :
    Unique key (pre ++ a :: post) := by
  unfold Unique at hl ⊢
  rw [List.filterMap_append, List.filterMap_cons_none ha]
  rw [List.filterMap_append, List.filterMap_cons] at hl
  split at hl
  · exact hl
  · exact (List.nodup_middle.1 hl).of_cons

/-! ### Where a scan stops -/

/-- What one pass finds, from index `i` on and with the free slot `w` already seen: a match, with
no match before it, or no match at all, and then the free slot already seen, the first free slot
of the rest, or the end. -/
theorem findSlot_cases (isMatch isFree : α → Bool) (l : List α) (i : ℕ) (w : Option ℕ) :
    (∃ pre b post, l = pre ++ b :: post ∧ isMatch b = true ∧ (∀ c ∈ pre, isMatch c = false) ∧
      findSlot isMatch isFree l i w = (true, i + pre.length)) ∨
    ((∀ c ∈ l, isMatch c = false) ∧
      ((∃ j, w = some j ∧ findSlot isMatch isFree l i w = (false, j)) ∨
       (∃ pre b post, l = pre ++ b :: post ∧ isFree b = true ∧
          findSlot isMatch isFree l i w = (false, i + pre.length)) ∨
       findSlot isMatch isFree l i w = (false, i + l.length))) := by
  induction l generalizing i w with
  | nil => cases w <;> simp [findSlot]
  | cons a l ih =>
      by_cases hm : isMatch a = true
      · exact .inl ⟨[], a, l, rfl, hm, by simp, by simp [findSlot, hm]⟩
      · have hm' : isMatch a = false := by simpa using hm
        have hstep : findSlot isMatch isFree (a :: l) i w =
            findSlot isMatch isFree l (i + 1) (if w.isNone && isFree a then some i else w) := by
          simp [findSlot, hm']
        rw [hstep]
        rcases ih (i + 1) (if w.isNone && isFree a then some i else w) with
          ⟨pre, b, post, rfl, hb, hpre, hr⟩ | ⟨hno, hrest⟩
        · refine .inl ⟨a :: pre, b, post, rfl, hb, ?_, ?_⟩
          · simpa [hm'] using hpre
          · rw [hr]; simp only [List.length_cons]; congr 1; omega
        · refine .inr ⟨by simpa [hm'] using hno, ?_⟩
          rcases hrest with ⟨j, hj, hr⟩ | ⟨pre, b, post, rfl, hb, hr⟩ | hr
          · -- the free slot in hand is the one from before, or the slot just passed
            cases w with
            | some j' => exact .inl ⟨j, by simpa using hj, hr⟩
            | none =>
                by_cases hf : isFree a = true
                · obtain rfl : i = j := by simpa [hf] using hj
                  exact .inr (.inl ⟨[], a, l, rfl, hf, by simpa using hr⟩)
                · simp [hf] at hj
          · refine .inr (.inl ⟨a :: pre, b, post, rfl, hb, ?_⟩)
            rw [hr]; simp only [List.length_cons]; congr 1; omega
          · refine .inr (.inr ?_)
            rw [hr]; simp only [List.length_cons]; congr 1; omega

@[simp] theorem writeAt_append (pre post : List α) (a b : α) :
    writeAt (pre ++ b :: post) pre.length a = pre ++ a :: post := by
  simp [writeAt, List.drop_append]

@[simp] theorem writeAt_length (l : List α) (a : α) : writeAt l l.length a = l ++ [a] := by
  simp [writeAt]

/-! ### The three operations on the map -/

section Operations

variable [DecidableEq κ] {isMatch isFree : α → Bool}

/-- The scan reports a match exactly when the map has the key. -/
theorem findSlot_fst (hm : ∀ c ∈ l, isMatch c = true ↔ key c = some k) :
    (findSlot isMatch isFree l 0 none).1 = true ↔ find key k l ≠ none := by
  rcases findSlot_cases isMatch isFree l 0 none with ⟨pre, b, post, hl, hb, -, hr⟩ | ⟨hno, hrest⟩
  · have hkb : key b = some k := (hm b (by simp [hl])).1 hb
    rw [hr]
    simp only [ne_eq, find_eq_none_iff, true_iff]
    exact fun h => h b (by simp [hl]) hkb
  · have hnone : find key k l = none := by
      refine find_eq_none_iff.2 fun c hc hck => ?_
      simpa [hno c hc] using (hm c hc).2 hck
    rw [hnone]
    rcases hrest with ⟨j, hj, -⟩ | ⟨pre, b, post, -, -, hr⟩ | hr
    · cases hj
    · simp [hr]
    · simp [hr]

/-- Writing a record with key `k` where the scan for `k` points replaces one slot that has key `k`
or is free, or appends a slot, and no other slot has key `k`. -/
theorem writeAt_findSlot (hl : Unique key l) (hm : ∀ c ∈ l, isMatch c = true ↔ key c = some k)
    (hf : ∀ c ∈ l, isFree c = true ↔ key c = none) (ha : key a = some k) :
    Unique key (writeAt l (findSlot isMatch isFree l 0 none).2 a) ∧
      ∀ k', find key k' (writeAt l (findSlot isMatch isFree l 0 none).2 a) =
        if k' = k then some a else find key k' l := by
  have hfirst : ∀ l', Unique key l' → a ∈ l' → find key k l' = some a := fun l' hu hmem =>
    find_of_mem hu hmem ha
  have hne : ∀ k', k' ≠ k → key a ≠ some k' := fun k' hk h => hk (by
    rw [ha] at h
    exact (Option.some.inj h).symm)
  rcases findSlot_cases isMatch isFree l 0 none with
    ⟨pre, b, post, rfl, hb, hpre, hr⟩ | ⟨hno, hrest⟩
  · -- the record is replaced where it stands
    have hkb : key b = some k := (hm b (by simp)).1 hb
    have hpost : ∀ c ∈ post, key c ≠ some k := by
      intro c hc hck
      unfold Unique at hl
      rw [List.filterMap_append, List.filterMap_cons_some hkb, List.nodup_middle,
        List.nodup_cons] at hl
      exact hl.1 (List.mem_append.2 (.inr (List.mem_filterMap.2 ⟨c, hc, hck⟩)))
    have hpre' : ∀ c ∈ pre, key c ≠ some k := fun c hc hck => by
      simpa [hpre c hc] using (hm c (by simp [hc])).2 hck
    have hu : Unique key (pre ++ a :: post) := hl.replace ha hpre' hpost
    simp only [hr, Nat.zero_add, writeAt_append]
    refine ⟨hu, fun k' => ?_⟩
    split
    · next h => subst h; exact hfirst _ hu (by simp)
    · next h => exact find_replace_of_ne (hne k' h) (by rw [hkb]; simpa using Ne.symm h)
  · have hnokey : ∀ c ∈ l, key c ≠ some k := fun c hc hck => by
      simpa [hno c hc] using (hm c hc).2 hck
    rcases hrest with ⟨j, hj, -⟩ | ⟨pre, b, post, rfl, hb, hr⟩ | hr
    · cases hj
    · -- the first free slot is filled
      have hkb : key b = none := (hf b (by simp)).1 hb
      have hu : Unique key (pre ++ a :: post) :=
        hl.replace ha (fun c hc => hnokey c (by simp [hc])) fun c hc => hnokey c (by simp [hc])
      simp only [hr, Nat.zero_add, writeAt_append]
      refine ⟨hu, fun k' => ?_⟩
      split
      · next h => subst h; exact hfirst _ hu (by simp)
      · next h => exact find_replace_of_ne (hne k' h) (by simp [hkb])
    · -- no slot is free: the array grows
      have hu : Unique key (l ++ [a]) := by
        unfold Unique at hl ⊢
        rw [List.filterMap_append, List.filterMap_cons_some ha, List.filterMap_nil,
          List.nodup_append]
        refine ⟨hl, by simp, fun x hx y hy hxy => ?_⟩
        obtain ⟨c, hc, hck⟩ := List.mem_filterMap.1 hx
        exact hnokey c hc (by rw [hck, hxy, List.mem_singleton.1 hy])
      simp only [hr, Nat.zero_add, writeAt_length]
      refine ⟨hu, fun k' => ?_⟩
      split
      · next h => subst h; exact hfirst _ hu (by simp)
      · next h => simp [find, List.find?_append, hne k' h]

theorem isMatch_of_findSlot (hnew : (findSlot isMatch isFree l 0 none).1 = false) :
    ∀ c ∈ l, isMatch c = false := by
  rcases findSlot_cases isMatch isFree l 0 none with ⟨pre, b, post, -, -, -, hr⟩ | ⟨hno, -⟩
  · rw [hr] at hnew; cases hnew
  · exact hno

/-- A record that is added where the scan found no match does not hide the records that `p` looks
for. -/
theorem find?_writeAt_findSlot {p : α → Bool} (hnew : (findSlot isMatch isFree l 0 none).1 = false)
    (ha : p a = false) (hf : ∀ c ∈ l, isFree c = true → p c = false) :
    (writeAt l (findSlot isMatch isFree l 0 none).2 a).find? p = l.find? p := by
  rcases findSlot_cases isMatch isFree l 0 none with
    ⟨pre, b, post, -, -, -, hr⟩ | ⟨-, ⟨j, hj, -⟩ | ⟨pre, b, post, rfl, hb, hr⟩ | hr⟩
  · rw [hr] at hnew; cases hnew
  · cases hj
  · have hpb : p b = false := hf b (by simp) hb
    simp [hr, List.find?_append, ha, hpb]
  · simp [hr, List.find?_append, ha]

theorem find?_overwriteFirst {p : α → Bool} (hb : p b = false)
    (hm : ∀ c ∈ l, isMatch c = true → p c = false) :
    (overwriteFirst isMatch b l).find? p = l.find? p := by
  induction l with
  | nil => rfl
  | cons c l ih =>
      rw [overwriteFirst]
      split
      · next h => simp [hb, hm c List.mem_cons_self h]
      · rw [List.find?_cons, List.find?_cons,
          ih fun c' hc' => hm c' (List.mem_cons_of_mem c hc')]

/-- Overwriting the record of `k` with a free slot erases `k` from the map. -/
theorem overwriteFirst_free (hl : Unique key l) (hm : ∀ c ∈ l, isMatch c = true ↔ key c = some k)
    (hb : key b = none) :
    Unique key (overwriteFirst isMatch b l) ∧
      ∀ k', find key k' (overwriteFirst isMatch b l) = if k' = k then none else find key k' l := by
  suffices h : (overwriteFirst isMatch b l = l ∧ find key k l = none) ∨
      ∃ pre c post, l = pre ++ c :: post ∧ key c = some k ∧
        overwriteFirst isMatch b l = pre ++ b :: post by
    rcases h with ⟨heq, hnone⟩ | ⟨pre, c, post, rfl, hc, heq⟩
    · rw [heq]
      refine ⟨hl, fun k' => ?_⟩
      split
      · next h => subst h; exact hnone
      · rfl
    · rw [heq]
      have hu : Unique key (pre ++ b :: post) := hl.free hb
      refine ⟨hu, fun k' => ?_⟩
      split
      · next h =>
          subst h
          refine find_eq_none_iff.2 fun x hx hxk => ?_
          -- `c` was the only record of the key, and it is gone
          rcases List.mem_append.1 hx with hx | hx
          · exact hl.ne_of_mem hc x (List.mem_append_left _ hx) hxk
          · rcases List.mem_cons.1 hx with rfl | hx
            · rw [hb] at hxk; cases hxk
            · exact hl.ne_of_mem hc x (List.mem_append_right _ hx) hxk
      · next h => exact find_replace_of_ne (by simp [hb]) (by rw [hc]; simpa using Ne.symm h)
  clear hl
  induction l with
  | nil => exact .inl ⟨rfl, rfl⟩
  | cons a l ih =>
      by_cases ha : isMatch a = true
      · exact .inr ⟨[], a, l, rfl, (hm a List.mem_cons_self).1 ha, by simp [overwriteFirst, ha]⟩
      · have hka : key a ≠ some k := fun h => ha ((hm a List.mem_cons_self).2 h)
        rcases ih fun c hc => hm c (List.mem_cons_of_mem a hc) with
          ⟨heq, hnone⟩ | ⟨pre, c, post, rfl, hc, heq⟩
        · refine .inl ⟨by simp [overwriteFirst, ha, heq], ?_⟩
          simpa [find, hka] using hnone
        · exact .inr ⟨a :: pre, c, post, rfl, hc, by simp [overwriteFirst, ha, heq]⟩

omit [DecidableEq κ] in
/-- Overwriting at the index of the first match is overwriting the first match. -/
theorem writeAt_findIdx? {i : ℕ} (h : l.findIdx? isMatch = some i) :
    writeAt l i b = overwriteFirst isMatch b l := by
  induction l generalizing i with
  | nil => cases h
  | cons a l ih =>
      rw [List.findIdx?_cons] at h
      by_cases ha : isMatch a = true
      · obtain rfl : 0 = i := by simpa [ha] using h
        simp [writeAt, overwriteFirst, ha]
      · obtain ⟨j, hj, rfl⟩ : ∃ j, l.findIdx? isMatch = some j ∧ j + 1 = i := by
          simpa [ha] using h
        have := ih hj
        simp only [writeAt] at this
        simp [writeAt, overwriteFirst, ha, this]

omit [DecidableEq κ] in
theorem overwriteFirst_of_findIdx?_none (h : l.findIdx? isMatch = none) :
    overwriteFirst isMatch b l = l := by
  induction l with
  | nil => rfl
  | cons a l ih =>
      simp only [List.findIdx?_eq_none_iff, List.mem_cons, forall_eq_or_imp] at h ih
      simp [overwriteFirst, h.1, ih h.2]

/-- Counting the records whose key satisfies `p` counts the keys of the map that satisfy `p`. -/
theorem countP_eq_ncard (hl : Unique key l) (p : κ → Prop) [DecidablePred p] :
    l.countP (fun c => (key c).any fun k => decide (p k)) =
      Set.ncard {k | find key k l ≠ none ∧ p k} := by
  have hcount : l.countP (fun c => (key c).any fun k => decide (p k)) =
      ((l.filterMap key).filter fun k => decide (p k)).length := by
    clear hl
    induction l with
    | nil => rfl
    | cons a l ih =>
        rw [List.countP_cons, List.filterMap_cons, ih]
        cases key a with
        | none => simp
        | some k => by_cases hp : p k <;> simp [hp]
  have hset : {k | find key k l ≠ none ∧ p k} =
      (((l.filterMap key).filter fun k => decide (p k)).toFinset : Set κ) := by
    ext k
    simp only [ne_eq, find_eq_none_iff, not_forall, Set.mem_ofPred_eq, List.coe_toFinset,
      List.mem_filter, List.mem_filterMap, decide_eq_true_eq]
    constructor
    · rintro ⟨⟨c, hc, hck⟩, hp⟩
      exact ⟨⟨c, hc, not_not.1 hck⟩, hp⟩
    · rintro ⟨⟨c, hc, hck⟩, hp⟩
      exact ⟨⟨c, hc, not_not.2 hck⟩, hp⟩
  have hnodup : ((l.filterMap key).filter fun k => decide (p k)).Nodup := List.Nodup.filter _ hl
  rw [hcount, hset, Set.ncard_coe_finset, List.toFinset_card_of_nodup hnodup]

end Operations

end Lib.SlotArray
