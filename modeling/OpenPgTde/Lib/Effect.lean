import Mathlib.Logic.Function.Basic

/-!
Weakest preconditions for programs that carry a state and may raise an error.

The programs are those of `EStateM ε σ`: an error does not roll the state back, which is what a C
routine that raises an error half way through leaves behind. `wp m Q E s` reads: started in `s`,
the program `m` either returns a value and a state that satisfy `Q`, or raises an error and leaves
a state that satisfy `E`. The state it starts in is explicit, so a specification may compare the
state after with the state before without auxiliary variables.

Every construct has a rule, stated as an equivalence and tagged for `simp`: on a straight line
program `simp` computes the precondition. A called routine is not unfolded; its own specification
enters through `wp.mono`.
-/

namespace Lib.Effect

variable {ε σ α β : Type}

/-- Started in `s`, the program `m` returns into `Q` or raises into `E`. -/
def wp (m : EStateM ε σ α) (Q : α → σ → Prop) (E : ε → σ → Prop) (s : σ) : Prop :=
  match m s with
  | .ok a s' => Q a s'
  | .error e s' => E e s'

/-! ### The rules -/

section Rules

variable (Q : α → σ → Prop) (E : ε → σ → Prop) (s : σ)

@[simp] theorem wp_pure (a : α) : wp (pure a : EStateM ε σ α) Q E s ↔ Q a s := Iff.rfl

@[simp] theorem wp_throw (e : ε) : wp (throw e : EStateM ε σ α) Q E s ↔ E e s := Iff.rfl

@[simp] theorem wp_bind (m : EStateM ε σ β) (f : β → EStateM ε σ α) :
    wp (m >>= f) Q E s ↔ wp m (fun b s' => wp (f b) Q E s') E s := by
  show (match EStateM.bind m f s with
    | .ok a s' => Q a s'
    | .error e s' => E e s') ↔ _
  unfold wp EStateM.bind
  cases m s <;> rfl

@[simp] theorem wp_map (f : β → α) (m : EStateM ε σ β) :
    wp (f <$> m) Q E s ↔ wp m (fun b s' => Q (f b) s') E s := by
  show (match EStateM.map f m s with
    | .ok a s' => Q a s'
    | .error e s' => E e s') ↔ _
  unfold wp EStateM.map
  cases m s <;> rfl

/-- Reading the state, and going on. -/
theorem get_bind_apply (f : σ → EStateM ε σ α) :
    ((get : EStateM ε σ σ) >>= f) s = f s s := rfl

/-- Replacing the state, and going on. -/
theorem set_bind_apply (t : σ) (f : PUnit → EStateM ε σ α) :
    ((set t : EStateM ε σ PUnit) >>= f) s = f ⟨⟩ t := rfl

@[simp] theorem wp_get (Q : σ → σ → Prop) :
    wp (get : EStateM ε σ σ) Q E s ↔ Q s s := Iff.rfl

@[simp] theorem wp_set (t : σ) (Q : PUnit → σ → Prop) :
    wp (set t : EStateM ε σ PUnit) Q E s ↔ Q ⟨⟩ t := Iff.rfl

@[simp] theorem wp_modify (f : σ → σ) (Q : PUnit → σ → Prop) :
    wp (modify f : EStateM ε σ PUnit) Q E s ↔ Q ⟨⟩ (f s) := Iff.rfl

@[simp] theorem wp_ite (c : Prop) [Decidable c] (m n : EStateM ε σ α) :
    wp (if c then m else n) Q E s ↔ (c → wp m Q E s) ∧ (¬c → wp n Q E s) := by
  split <;> simp_all

end Rules

/-- Two programs that read the state first are equal if they do the same in every state. -/
theorem get_bind_congr {f g : σ → EStateM ε σ α} (h : ∀ s, f s s = g s s) :
    (get >>= f : EStateM ε σ α) = get >>= g := funext h

/-! ### Consequence -/

variable {Q Q' : α → σ → Prop} {E E' : ε → σ → Prop} {s : σ}

/-- The rule through which a caller uses the specification of the routine it calls. -/
theorem wp.mono {m : EStateM ε σ α} (h : wp m Q E s) (hQ : ∀ a t, Q a t → Q' a t)
    (hE : ∀ e t, E e t → E' e t) : wp m Q' E' s := by
  unfold wp at h ⊢
  cases hm : m s with
  | ok a t =>
      rw [hm] at h
      exact hQ a t h
  | error e t =>
      rw [hm] at h
      exact hE e t h

/-- Conditions that always hold need no look at the program. -/
theorem wp.of_forall {m : EStateM ε σ α} (hQ : ∀ a t, Q a t) (hE : ∀ e t, E e t) : wp m Q E s := by
  unfold wp
  cases m s with
  | ok a t => exact hQ a t
  | error e t => exact hE e t

/-- Two specifications of one program hold together. -/
theorem wp.and {m : EStateM ε σ α} (h : wp m Q E s) (h' : wp m Q' E' s) :
    wp m (fun a t => Q a t ∧ Q' a t) (fun e t => E e t ∧ E' e t) s := by
  unfold wp at h h' ⊢
  cases hm : m s <;> rw [hm] at h h' <;> exact ⟨h, h'⟩

/-- A program that is known to return makes its postcondition a fact about what it returns. -/
theorem wp.of_ok {m : EStateM ε σ α} {a : α} {t : σ} (h : wp m Q E s) (hm : m s = .ok a t) :
    Q a t := by
  unfold wp at h
  rw [hm] at h
  exact h

/-- What is known of a run settles any condition on it. -/
theorem wp_of_ok {m : EStateM ε σ α} {a : α} {t : σ} (hm : m s = .ok a t) (h : Q a t) :
    wp m Q E s := by
  unfold wp
  rw [hm]
  exact h

/-- A program that cannot fail returns. -/
theorem wp.exists_ok {m : EStateM ε σ α} (h : wp m Q E s) (hE : ∀ e t, ¬E e t) :
    ∃ a t, m s = .ok a t ∧ Q a t := by
  unfold wp at h
  cases hm : m s with
  | ok a t =>
      rw [hm] at h
      exact ⟨a, t, rfl, h⟩
  | error e t =>
      rw [hm] at h
      exact absurd h (hE e t)

/-- A program that cannot return fails. -/
theorem wp.exists_error {m : EStateM ε σ α} (h : wp m Q E s) (hQ : ∀ a t, ¬Q a t) :
    ∃ e t, m s = .error e t ∧ E e t := by
  unfold wp at h
  cases hm : m s with
  | ok a t =>
      rw [hm] at h
      exact absurd h (hQ a t)
  | error e t =>
      rw [hm] at h
      exact ⟨e, t, rfl, h⟩

/-- A program that is known to raise makes its error postcondition a fact. -/
theorem wp.of_error {m : EStateM ε σ α} {e : ε} {t : σ} (h : wp m Q E s)
    (hm : m s = .error e t) : E e t := by
  unfold wp at h
  rw [hm] at h
  exact h

/-! ### Loops -/

/-- The loop rule for a pass over a list: an assertion that every step keeps, whatever the
element, holds after the pass. -/
theorem wp_forM (I : σ → Prop) (f : α → EStateM ε σ PUnit) (l : List α) (hs : I s)
    (step : ∀ a ∈ l, ∀ t, I t → wp (f a) (fun _ u => I u) E t) :
    wp (forM l f) (fun _ t => I t) E s := by
  induction l generalizing s with
  | nil => exact hs
  | cons a l ih =>
      have hrest : ∀ t, I t → wp (forM l f) (fun _ u => I u) E t := fun t ht =>
        ih ht fun b hb => step b (List.mem_cons_of_mem a hb)
      rw [List.forM_cons, wp_bind]
      exact (step a List.mem_cons_self s hs).mono (fun _ t ht => hrest t ht) fun _ _ h => h

/-- A pass whose every step does its own part and undoes no other does all of them. -/
theorem wp_forM_each (I : σ → Prop) (D : α → σ → Prop) (f : α → EStateM ε σ PUnit) (l : List α) (hs : I s)
    (step : ∀ a ∈ l, ∀ t, I t → wp (f a) (fun _ u => I u ∧ D a u ∧ ∀ b, D b t → D b u) E t) :
    wp (forM l f) (fun _ t => I t ∧ ∀ a ∈ l, D a t) E s := by
  have hkept : ∀ b, ∀ l', l' ⊆ l → ∀ t, I t → D b t → wp (forM l' f) (fun _ u => I u ∧ D b u) E t := by
    intro b l' hsub t ht hb
    refine wp_forM (fun u => I u ∧ D b u) f l' ⟨ht, hb⟩ fun a ha u hu => ?_
    exact (step a (hsub ha) u hu.1).mono (fun _ _ hv => ⟨hv.1, hv.2.2 b hu.2⟩) fun _ _ h => h
  induction l generalizing s with
  | nil => exact ⟨hs, fun _ h => absurd h List.not_mem_nil⟩
  | cons a l ih =>
      rw [List.forM_cons, wp_bind]
      refine (step a List.mem_cons_self s hs).mono (fun _ t ht => ?_) fun _ _ h => h
      have hrest := ih ht.1 (fun b hb => step b (List.mem_cons_of_mem a hb))
        fun b l' hsub => hkept b l' (List.subset_cons_of_subset a hsub)
      refine (hrest.and (hkept a l (List.subset_cons_self a l) t ht.1 ht.2.1)).mono
        (fun _ u hu => ⟨hu.1.1, fun b hb => ?_⟩) fun _ _ h => h.1
      obtain rfl | hb := List.mem_cons.1 hb
      · exact hu.2.2
      · exact hu.1.2 b hb

theorem wp_forM_append {Q : PUnit → σ → Prop} (f : α → EStateM ε σ PUnit) (l l' : List α) :
    wp (forM (l ++ l') f) Q E s ↔ wp (forM l f) (fun _ t => wp (forM l' f) Q E t) E s := by
  rw [List.forM_append, wp_bind]

/-! ### Programs on a part of the state -/

/-- Run a program on the part of the state that `view` shows and `put` replaces. -/
def zoom {τ : Type} (view : σ → τ) (put : τ → σ → σ) (m : EStateM ε τ α) : EStateM ε σ α := fun s =>
  match m (view s) with
  | .ok a t => .ok a (put t s)
  | .error e t => .error e (put t s)

/-- The rest of the state enters the conditions as it is. -/
@[simp] theorem wp_zoom {τ : Type} (view : σ → τ) (put : τ → σ → σ) (m : EStateM ε τ α)
    (Q : α → σ → Prop) (E : ε → σ → Prop) (s : σ) :
    wp (zoom view put m) Q E s ↔
      wp m (fun a t => Q a (put t s)) (fun e t => E e (put t s)) (view s) := by
  unfold wp zoom
  cases m (view s) <;> rfl

/-- Errors under another name. -/
@[simp] theorem wp_adaptExcept {ε' : Type} (f : ε → ε') (m : EStateM ε σ α) (Q : α → σ → Prop)
    (E : ε' → σ → Prop) (s : σ) :
    wp (EStateM.adaptExcept f m) Q E s ↔ wp m Q (fun e t => E (f e) t) s := by
  unfold wp EStateM.adaptExcept
  cases m s <;> rfl

/-! ### The state after a program, whatever its outcome -/

/-- The state a program leaves, returned or raised. -/
def after (m : EStateM ε σ α) (s : σ) : σ :=
  match m s with
  | .ok _ t => t
  | .error _ t => t

/-- A property of both outcomes is a property of the state left behind. -/
theorem wp.after {m : EStateM ε σ α} {P : σ → Prop}
    (h : wp m (fun _ t => P t) (fun _ t => P t) s) : P (after m s) := by
  unfold wp at h
  unfold Effect.after
  cases hm : m s <;> rw [hm] at h <;> exact h

/-! ### The outcome of a program -/

/-- What a program returns or raises, without the state it leaves. -/
def outcome (m : EStateM ε σ α) (s : σ) : Except ε α :=
  match m s with
  | .ok a _ => .ok a
  | .error e _ => .error e

/-- A specification that says what is returned and what is raised gives the outcome. -/
theorem outcome_eq {m : EStateM ε σ α} {r : Except ε α}
    (h : wp m (fun a _ => r = .ok a) (fun e _ => r = .error e) s) : outcome m s = r := by
  unfold wp at h
  unfold outcome
  cases hm : m s <;> rw [hm] at h <;> exact h.symm

theorem wp.of_outcome {m : EStateM ε σ α} {e : ε} (h : wp m Q E s) (hm : outcome m s = .error e) :
    E e (Effect.after m s) := by
  unfold wp at h
  unfold outcome at hm
  unfold Effect.after
  cases hrun : m s with
  | ok a t =>
      rw [hrun] at hm
      cases hm
  | error e' t =>
      rw [hrun] at h hm
      cases hm
      exact h

/-! ### Evaluation -/

/-- Whether a program returns. -/
def returns (m : EStateM ε σ α) (s : σ) : Bool :=
  match m s with
  | .ok _ _ => true
  | .error _ _ => false

theorem exists_of_returns {m : EStateM ε σ α} (h : returns m s = true) :
    ∃ a t, m s = .ok a t := by
  unfold returns at h
  cases hm : m s with
  | ok a t => exact ⟨a, t, rfl⟩
  | error e t =>
      rw [hm] at h
      cases h

/-- A run that is evaluated: what it returns, and where. -/
theorem ok_after_of_returns {m : EStateM ε σ α} (h : returns m s = true) :
    ∃ a, m s = .ok a (after m s) := by
  obtain ⟨a, t, hm⟩ := exists_of_returns h
  refine ⟨a, ?_⟩
  unfold after
  rw [hm]

theorem error_after_of_not_returns {m : EStateM ε σ α} (h : returns m s = false) :
    ∃ e, m s = .error e (after m s) := by
  unfold returns at h
  unfold after
  cases hm : m s with
  | ok a t =>
      rw [hm] at h
      cases h
  | error e t => exact ⟨e, rfl⟩

end Lib.Effect
