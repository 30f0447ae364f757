import Mathlib.Data.List.Nodup
import Mathlib.Data.Option.Basic
import Mathlib.Logic.Basic

/-!
Runs of a system whose parts take turns.

An action is one atomic step of one of the parts; which part moves next is decided by the list of
actions, so that a statement about every list is a statement about every interleaving. An action
that its part cannot take in the state it finds leaves the state alone. A condition on a run is a
condition on each action in the state in which it happens.
-/

namespace Lib.Schedule

variable {σ α : Type} {step : σ → α → σ}

/-- The state after the actions. -/
def run (step : σ → α → σ) (acts : List α) (s : σ) : σ := acts.foldl step s

/-- Every action meets the condition in the state in which it happens. -/
def Meets (step : σ → α → σ) (c : σ → α → Prop) : List α → σ → Prop
  | [], _ => True
  | a :: acts, s => c s a ∧ Meets step c acts (step s a)

/-- What holds at the start and is kept by every action that meets the condition holds after the
run. -/
theorem run_invariant {c : σ → α → Prop} {I : σ → Prop}
    (hstep : ∀ s a, I s → c s a → I (step s a)) (acts : List α) {s : σ} (hs : I s)
    (h : Meets step c acts s) : I (run step acts s) := by
  induction acts generalizing s with
  | nil => exact hs
  | cons a acts ih => exact ih (hstep s a hs h.1) h.2

/-- What none of the actions changes is after the run what it was before. -/
theorem run_unchanged {β : Type} (f : σ → β) {acts : List α}
    (h : ∀ a ∈ acts, ∀ s, f (step s a) = f s) (s : σ) : f (run step acts s) = f s := by
  induction acts generalizing s with
  | nil => rfl
  | cons a acts ih =>
      have hrest := ih (fun b hb => h b (List.mem_cons_of_mem a hb)) (step s a)
      exact hrest.trans (h a List.mem_cons_self s)

/-! ### Runs that may fail -/

section Fallible

variable {exec : σ → α → Option σ}

/-- What every action keeps that succeeds is kept by a run that succeeds. -/
theorem foldlM_invariant (I : σ → Prop) (hexec : ∀ {s a t}, I s → exec s a = some t → I t)
    {acts : List α} {s t : σ} (hs : I s) (h : acts.foldlM exec s = some t) : I t := by
  induction acts generalizing s with
  | nil =>
      cases h
      exact hs
  | cons a acts ih =>
      rw [List.foldlM_cons] at h
      obtain ⟨u, hu, h⟩ := Option.bind_eq_some_iff.1 h
      exact ih (hexec hs hu) h

/-- A component of the state that some of the actions work on, and the others leave alone: a run does
to it what the actions do that work on it. -/
theorem foldlM_component {β : Type} (I : σ → Prop) (get : σ → β) {on : α → Bool}
    {comp : β → α → Option β} (hkeep : ∀ {s a t}, I s → exec s a = some t → I t)
    (hself : ∀ {s a t}, I s → exec s a = some t → on a = true → comp (get s) a = some (get t))
    (hother : ∀ {s a t}, I s → exec s a = some t → on a = false → get t = get s)
    {acts : List α} {s t : σ} (hs : I s) (h : acts.foldlM exec s = some t) :
    (acts.filter on).foldlM comp (get s) = some (get t) := by
  induction acts generalizing s with
  | nil =>
      cases h
      rfl
  | cons a acts ih =>
      rw [List.foldlM_cons] at h
      obtain ⟨u, hu, h⟩ := Option.bind_eq_some_iff.1 h
      have hrest := ih (hkeep hs hu) h
      cases ha : on a with
      | true =>
          rw [List.filter_cons_of_pos ha, List.foldlM_cons, hself hs hu ha]
          exact hrest
      | false =>
          rw [List.filter_cons_of_neg (by simp [ha]), ← hother hs hu ha]
          exact hrest

/-- Where each action works on a component of its own and comes once, a run does it to the component
if it is one of its actions. -/
theorem foldlM_once [DecidableEq α] {β : Type} (I : σ → Prop) (get : σ → β) {b : α}
    {comp : β → Option β} (hkeep : ∀ {s a t}, I s → exec s a = some t → I t)
    (hself : ∀ {s t}, I s → exec s b = some t → comp (get s) = some (get t))
    (hother : ∀ {s a t}, I s → exec s a = some t → a ≠ b → get t = get s)
    {acts : List α} (hnodup : acts.Nodup) {s t : σ} (hs : I s)
    (h : acts.foldlM exec s = some t) :
    (if b ∈ acts then comp (get s) else some (get s)) = some (get t) := by
  have hrun := @foldlM_component σ α exec β I get (fun a => decide (a = b)) (fun x _ => comp x) hkeep
    (fun hs hstep hon => hself hs (by rwa [of_decide_eq_true hon] at hstep))
    (fun hs hstep hon => hother hs hstep (of_decide_eq_false hon)) acts s t hs h
  rw [List.filter_eq] at hrun
  split
  · next hmem =>
      rw [List.count_eq_one_of_mem hnodup hmem] at hrun
      simpa using hrun
  · next hnot =>
      rw [List.count_eq_zero_of_not_mem hnot] at hrun
      exact hrun

end Fallible

end Lib.Schedule
