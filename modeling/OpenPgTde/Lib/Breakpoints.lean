import Mathlib.Data.List.Basic
import Mathlib.Order.Lattice

/-!
Functions that are constant between breakpoints.

A list of elements with a start each, in increasing order, stands for a function on a linear order:
the element in force at a point is the last one that starts at or before it. The same list can be
written as intervals, each of which ends where the next one starts and the last one at a bound; a
pass over the intervals then meets a point at most once, in the interval of the element in force.
-/

namespace Lib.Breakpoints

variable {α β γ : Type} [LinearOrder α]

/-- The element in force at `p`. -/
def cover (start : β → α) (l : List β) (p : α) : Option β :=
  l.reverse.find? fun b => start b ≤ p

/-- The elements with the ends of their intervals. -/
def spans (start : β → α) (top : α) : List β → List (β × α)
  | [] => []
  | [b] => [(b, top)]
  | b :: b' :: l => (b, start b') :: spans start top (b' :: l)

/-- The starts increase. -/
def Increasing (start : β → α) (l : List β) : Prop := l.Pairwise fun b b' => start b < start b'

variable {start : β → α} {top p : α} {b : β} {l : List β}

/-! ### The element in force -/

@[simp] theorem cover_nil : cover start [] p = none := rfl

theorem cover_concat :
    cover start (l ++ [b]) p = if start b ≤ p then some b else cover start l p := by
  by_cases h : start b ≤ p <;> simp [cover, h]

theorem cover_cons :
    cover start (b :: l) p = (cover start l p).or (if start b ≤ p then some b else none) := by
  by_cases h : start b ≤ p <;> simp [cover, List.find?_append, h]

theorem cover_eq_none : cover start l p = none ↔ ∀ b ∈ l, p < start b := by
  simp [cover]

/-- A new element does not change what is in force before it starts. -/
theorem cover_concat_of_lt (h : p < start b) : cover start (l ++ [b]) p = cover start l p := by
  rw [cover_concat, if_neg (not_le.2 h)]

theorem cover_concat_of_le (h : start b ≤ p) : cover start (l ++ [b]) p = some b := by
  rw [cover_concat, if_pos h]

/-! ### Intervals -/

omit [LinearOrder α] in
theorem spans_concat (c : β) :
    spans start top ((l ++ [b]) ++ [c]) = spans start (start c) (l ++ [b]) ++ [(c, top)] := by
  induction l with
  | nil => rfl
  | cons a l ih =>
      cases l with
      | nil => rfl
      | cons a' l =>
          show (a, start a') :: spans start top (((a' :: l) ++ [b]) ++ [c]) = _
          rw [ih]
          rfl

theorem Increasing.concat (hl : Increasing start l) (hb : ∀ a ∈ l, start a < start b) :
    Increasing start (l ++ [b]) := by
  refine List.pairwise_append.2 ⟨hl, List.pairwise_singleton _ _, fun a ha c hc => ?_⟩
  rw [List.mem_singleton.1 hc]
  exact hb a ha

/-- No element starts after the last one. -/
theorem Increasing.le_of_getLast (hl : Increasing start l) {a : β} (ha : a ∈ l)
    (hb : b ∈ l.getLast?) : start a ≤ start b := by
  obtain ⟨front, rfl⟩ := List.getLast?_eq_some_iff.1 hb
  obtain ha | ha := List.mem_append.1 ha
  · exact ((List.pairwise_append.1 hl).2.2 a ha b (by simp)).le
  · rw [List.mem_singleton.1 ha]

/-- The intervals do not end before they start. -/
theorem Increasing.le_of_mem_spans (hl : Increasing start l) (htop : ∀ b ∈ l, start b ≤ top)
    {x : β × α} (hx : x ∈ spans start top l) : start x.1 ≤ x.2 := by
  induction l using spans.induct with
  | case1 => cases hx
  | case2 b =>
      rw [List.mem_singleton.1 hx]
      exact htop b (by simp)
  | case3 b b' l ih =>
      have hrest := List.pairwise_cons.1 hl
      obtain rfl | hx := List.mem_cons.1 hx
      · exact (hrest.1 b' (by simp)).le
      · exact ih hrest.2 (fun a ha => htop a (List.mem_cons_of_mem b ha)) hx

omit [LinearOrder α] in
theorem mem_of_mem_spans {x : β × α} (hx : x ∈ spans start top l) : x.1 ∈ l := by
  induction l using spans.induct with
  | case1 => cases hx
  | case2 b =>
      rw [List.mem_singleton.1 hx]
      simp
  | case3 b b' l ih =>
      obtain rfl | hx := List.mem_cons.1 hx
      · simp
      · exact List.mem_cons_of_mem b (ih hx)

/-- An interval ends where the next one starts. -/
theorem Increasing.isChain_spans (hl : Increasing start l) (top : α) :
    (spans start top l).IsChain fun x y => start x.1 < start y.1 ∧ x.2 = start y.1 := by
  induction l using spans.induct with
  | case1 => exact .nil
  | case2 b => exact .singleton _
  | case3 b b' l ih =>
      have hrest := List.pairwise_cons.1 hl
      have hlt : start b < start b' := hrest.1 b' (by simp)
      have htail := ih hrest.2
      cases l with
      | nil => exact .cons_cons ⟨hlt, rfl⟩ htail
      | cons b'' l => exact .cons_cons ⟨hlt, rfl⟩ htail

omit [LinearOrder α] in
/-- The last interval ends at the bound. -/
theorem getLast?_spans {x : β × α} (hx : x ∈ (spans start top l).getLast?) : x.2 = top := by
  induction l using spans.induct with
  | case1 => cases hx
  | case2 b =>
      cases hx
      rfl
  | case3 b b' l ih =>
      apply ih
      cases l with
      | nil => exact hx
      | cons b'' l => exact hx

/-- No interval of elements that all start after `p` has the point. -/
theorem foldl_spans_of_lt (g : γ → β → γ) (c : γ) (h : ∀ b ∈ l, p < start b) :
    (spans start top l).foldl (fun c x => if start x.1 ≤ p ∧ p < x.2 then g c x.1 else c) c = c := by
  induction l using spans.induct with
  | case1 => rfl
  | case2 b =>
      have hb : ¬start b ≤ p := not_le.2 (h b (by simp))
      simp [spans, hb]
  | case3 b b' l ih =>
      have hb : ¬start b ≤ p := not_le.2 (h b (by simp))
      rw [spans, List.foldl_cons]
      simp only [hb, false_and, if_false]
      exact ih fun a ha => h a (List.mem_cons_of_mem b ha)

/-- A pass over the intervals acts once, with the element in force. -/
theorem foldl_spans (hl : Increasing start l) (hp : p < top) (g : γ → β → γ) (c : γ) :
    (spans start top l).foldl (fun c x => if start x.1 ≤ p ∧ p < x.2 then g c x.1 else c) c =
      (cover start l p).elim c (g c) := by
  induction l using spans.induct with
  | case1 => rfl
  | case2 b => by_cases h : start b ≤ p <;> simp [spans, cover, h, hp]
  | case3 b b' l ih =>
      have hrest := List.pairwise_cons.1 hl
      rw [spans, List.foldl_cons, cover_cons]
      by_cases hb' : start b' ≤ p
      · -- a later element has started, so the first interval is over
        obtain ⟨a, ha⟩ : ∃ a, cover start (b' :: l) p = some a := by
          apply Option.ne_none_iff_exists'.1
          intro hnone
          exact absurd hb' (not_le.2 (cover_eq_none.1 hnone b' (by simp)))
        have hover : ¬p < start b' := not_lt.2 hb'
        simp only [hover, and_false, if_false]
        rw [ih hrest.2, ha]
        rfl
      · have hnot : ∀ a ∈ b' :: l, p < start a := by
          intro a ha
          obtain rfl | ha := List.mem_cons.1 ha
          · exact not_le.1 hb'
          · exact (not_le.1 hb').trans ((List.pairwise_cons.1 hrest.2).1 a ha)
        rw [foldl_spans_of_lt g _ hnot, cover_eq_none.2 hnot]
        by_cases hb : start b ≤ p
        · simp [hb, not_le.1 hb']
        · simp [hb]

end Lib.Breakpoints
