import Mathlib.Data.List.Basic

/-!
Stages of a pipeline.

A stage gets its input piece by piece, passes output on as soon as it has some, and may pass some more on when
the input is over. It may give up at any point. Two stages in a row are a stage again, that works with one
piece at a time; what it passes on is what the second stage makes of all that the first one passes on.
-/

namespace Lib.Pipeline

structure Stage (σ α β : Type*) where
  content : σ → α → Option (σ × List β)
  finalize : σ → Option (List β)

variable {σ τ α β γ : Type*}

namespace Stage

/-- The state after some pieces, and what was passed on so far. -/
def feed (s : Stage σ α β) (st : σ) : List α → Option (σ × List β)
  | [] => some (st, [])
  | a :: as =>
    (s.content st a).bind fun r => (s.feed r.1 as).map fun r' => (r'.1, r.2 ++ r'.2)

/-- All that is passed on. -/
def run (s : Stage σ α β) (st : σ) (as : List α) : Option (List β) :=
  (s.feed st as).bind fun r => (s.finalize r.1).map fun out => r.2 ++ out

/-- The stage `s`, that passes its output on to the stage `t`. -/
def comp (s : Stage σ α β) (t : Stage τ β γ) : Stage (σ × τ) α γ where
  content st a :=
    (s.content st.1 a).bind fun r => (t.feed st.2 r.2).map fun r' => ((r.1, r'.1), r'.2)
  finalize st := (s.finalize st.1).bind fun out => t.run st.2 out

variable {s : Stage σ α β} {t : Stage τ β γ} {st : σ} {as bs : List α}

@[simp] theorem feed_nil : s.feed st [] = some (st, []) := rfl

theorem feed_cons {a : α} : s.feed st (a :: as) =
    (s.content st a).bind fun r => (s.feed r.1 as).map fun r' => (r'.1, r.2 ++ r'.2) := rfl

theorem feed_append : s.feed st (as ++ bs) =
    (s.feed st as).bind fun r => (s.feed r.1 bs).map fun r' => (r'.1, r.2 ++ r'.2) := by
  induction as generalizing st with
  | nil => simp
  | cons a as ih =>
      rw [List.cons_append, feed_cons, feed_cons]
      cases s.content st a with
      | none => rfl
      | some r =>
          rw [Option.bind_some, Option.bind_some, ih]
          cases s.feed r.1 as with
          | none => rfl
          | some r' =>
              cases hbs : s.feed r'.1 bs <;> simp [hbs]

theorem run_append : s.run st (as ++ bs) =
    (s.feed st as).bind fun r => (s.run r.1 bs).map fun out => r.2 ++ out := by
  rw [run, feed_append]
  cases s.feed st as with
  | none => rfl
  | some r =>
      rw [Option.bind_some, Option.bind_some, run]
      cases s.feed r.1 bs with
      | none => rfl
      | some r' => cases hfin : s.finalize r'.1 <;> simp [hfin]

theorem run_cons {a : α} : s.run st (a :: as) =
    (s.content st a).bind fun r => (s.run r.1 as).map fun out => r.2 ++ out := by
  have h := @run_append _ _ _ s st [a] as
  rw [List.singleton_append, feed_cons] at h
  rw [h]
  cases s.content st a with
  | none => rfl
  | some r => simp

/-- Pieces that do not change the state. -/
theorem feed_of_const {f : α → List β} (h : ∀ a ∈ as, s.content st a = some (st, f a)) :
    s.feed st as = some (st, as.flatMap f) := by
  induction as with
  | nil => rfl
  | cons a as ih =>
      rw [List.forall_mem_cons] at h
      rw [feed_cons, h.1, Option.bind_some, ih h.2, Option.map_some, List.flatMap_cons]

@[simp] theorem run_nil : s.run st [] = s.finalize st := by
  rw [run, feed_nil, Option.bind_some]
  cases s.finalize st <;> rfl

theorem content_comp {u : τ} {a : α} : (s.comp t).content (st, u) a =
    (s.content st a).bind fun r => (t.feed u r.2).map fun r' => ((r.1, r'.1), r'.2) := rfl

theorem finalize_comp {u : τ} :
    (s.comp t).finalize (st, u) = (s.finalize st).bind fun out => t.run u out := rfl

/-- Working piece by piece, two stages pass on what they do one after the other. -/
theorem run_comp {u : τ} : (s.comp t).run (st, u) as = (s.run st as).bind fun out => t.run u out := by
  induction as generalizing st u with
  | nil => rw [run_nil, run_nil, finalize_comp]
  | cons a as ih =>
      rw [run_cons, run_cons, content_comp]
      cases s.content st a with
      | none => rfl
      | some r =>
          rw [Option.bind_some, Option.bind_some]
          cases hout : t.feed u r.2 with
          | none => cases s.run r.1 as <;> simp [run_append, hout]
          | some r' =>
              rw [Option.map_some, Option.bind_some, ih]
              cases s.run r.1 as <;> simp [run_append, hout]

end Stage

end Lib.Pipeline
