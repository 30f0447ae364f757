import OpenPgTde.Lib.Json

/-!
Places in a JSON document.

`Value.signals` is everything a parser can report of a document, in document order, where objects and
arrays end included. `Value.marks` keeps of it the names of members and the scalars, and how many
objects are around a member is written beside its name.

A path is a list of names (`Value.scalarAt`). What comes behind the place of a path in document order is
`Value.marksAfter`, and `Value.setAt` puts another scalar there.
-/

namespace Lib.Json

/-! ### Reports -/

inductive Signal
  | objectStart
  | objectEnd
  | arrayStart
  | arrayEnd
  | fieldStart (name : List UInt8)
  | scalar (s : Scalar)
  deriving DecidableEq

mutual

def Value.signals : Value → List Signal
  | .scalar s => [.scalar s]
  | .array vs => .arrayStart :: (vs.signals ++ [.arrayEnd])
  | .object ms => .objectStart :: (ms.signals ++ [.objectEnd])

def Elements.signals : Elements → List Signal
  | .nil => []
  | .cons v vs => v.signals ++ vs.signals

def Members.signals : Members → List Signal
  | .nil => []
  | .cons name v ms => .fieldStart name :: (v.signals ++ ms.signals)

end

/-- The text of a token; a string is without its quotes and escapes. -/
def Scalar.text : Scalar → List UInt8
  | .str s => s
  | .num s => s
  | .bool true => [116, 114, 117, 101]
  | .bool false => [102, 97, 108, 115, 101]
  | .null => [110, 117, 108, 108]

/-! ### Members -/

/-- Induction along the members, whatever their values are. -/
@[elab_as_elim]
theorem Members.induct {P : Members → Prop} (nil : P .nil)
    (cons : ∀ name v ms, P ms → P (.cons name v ms)) : ∀ ms, P ms
  | .nil => nil
  | .cons name v ms => cons name v ms (Members.induct nil cons ms)

def Members.append : Members → Members → Members
  | .nil, ms => ms
  | .cons name v pre, ms => .cons name v (pre.append ms)

def Members.names : Members → List (List UInt8)
  | .nil => []
  | .cons name _ ms => name :: ms.names

/-- The first member of this name, with what is before and behind it. -/
def Members.split (name : List UInt8) : Members → Option (Members × Value × Members)
  | .nil => none
  | .cons name' v ms =>
    if name' = name then some (.nil, v, ms)
    else (ms.split name).map fun p => (.cons name' v p.1, p.2)

theorem Members.split_cons_of_ne {name name' : List UInt8} (h : name' ≠ name) (v : Value)
    (ms : Members) :
    (cons name' v ms).split name = (ms.split name).map fun p => (.cons name' v p.1, p.2) := by
  rw [split, if_neg h]

theorem Members.split_eq_some {name : List UInt8} {ms pre post : Members} {v : Value}
    (h : ms.split name = some (pre, v, post)) :
    ms = pre.append (.cons name v post) ∧ name ∉ pre.names := by
  induction ms using Members.induct generalizing pre with
  | nil => cases h
  | cons name' v' ms ih =>
      rw [split] at h
      split at h
      · next heq =>
          simp only [Option.some.injEq, Prod.mk.injEq] at h
          obtain ⟨rfl, rfl, rfl⟩ := h
          exact ⟨by rw [append, heq], by simp [names]⟩
      · next hne =>
          obtain ⟨⟨pre', p⟩, hp, heq⟩ := Option.map_eq_some_iff.1 h
          simp only [Prod.mk.injEq] at heq
          obtain ⟨rfl, rfl⟩ := heq
          obtain ⟨rfl, hname⟩ := ih hp
          exact ⟨by rw [append], by simpa [names, hname] using Ne.symm hne⟩

theorem Members.split_append {name : List UInt8} {pre : Members} (h : name ∉ pre.names) (v : Value)
    (post : Members) : (pre.append (.cons name v post)).split name = some (pre, v, post) := by
  induction pre using Members.induct with
  | nil => rw [append, split, if_pos rfl]
  | cons name' v' pre ih =>
      simp only [names, List.mem_cons, not_or] at h
      rw [append, split, if_neg (Ne.symm h.1), ih h.2]
      rfl

mutual

/-- No object has two members of one name. -/
def Value.Distinct : Value → Prop
  | .scalar _ => True
  | .array vs => vs.Distinct
  | .object ms => ms.names.Nodup ∧ ms.Distinct

def Elements.Distinct : Elements → Prop
  | .nil => True
  | .cons v vs => v.Distinct ∧ vs.Distinct

def Members.Distinct : Members → Prop
  | .nil => True
  | .cons _ v ms => v.Distinct ∧ ms.Distinct

end

/-- The scalar at a path. -/
def Value.scalarAt : List (List UInt8) → Value → Option Scalar
  | [], .scalar s => some s
  | name :: path, .object ms => (ms.split name).bind fun p => p.2.1.scalarAt path
  | _, _ => none

theorem Value.scalarAt_cons {name : List UInt8} {path : List (List UInt8)} {v : Value} {s : Scalar}
    (h : v.scalarAt (name :: path) = some s) : ∃ ms pre w post, v = .object ms ∧
      ms.split name = some (pre, w, post) ∧ w.scalarAt path = some s := by
  cases v with
  | scalar t => cases h
  | array vs => cases h
  | object ms =>
      rw [scalarAt] at h
      obtain ⟨⟨pre, w, post⟩, hsplit, hw⟩ := Option.bind_eq_some_iff.1 h
      exact ⟨ms, pre, w, post, rfl, hsplit, hw⟩

/-- The document with another scalar at a path, if there is a scalar. -/
def Value.setAt (s : Scalar) : List (List UInt8) → Value → Value
  | [], .scalar _ => .scalar s
  | name :: path, .object ms =>
    match ms.split name with
    | none => .object ms
    | some (pre, v, post) => .object (pre.append (.cons name (v.setAt s path) post))
  | _, v => v

inductive Mark
  | member (depth : ℕ) (name : List UInt8)
  | scalar (s : Scalar)
  deriving DecidableEq

mutual

/-- The members and scalars of a value that is inside this many objects. -/
def Value.marks (depth : ℕ) : Value → List Mark
  | .scalar s => [.scalar s]
  | .array vs => vs.marks depth
  | .object ms => ms.marks depth

def Elements.marks (depth : ℕ) : Elements → List Mark
  | .nil => []
  | .cons v vs => v.marks depth ++ vs.marks depth

def Members.marks (depth : ℕ) : Members → List Mark
  | .nil => []
  | .cons name v ms => .member depth name :: (v.marks (depth + 1) ++ ms.marks depth)

end

theorem Members.marks_append (pre ms : Members) (depth : ℕ) :
    (pre.append ms).marks depth = pre.marks depth ++ ms.marks depth := by
  induction pre using Members.induct with
  | nil => rfl
  | cons name v pre ih => simp only [append, marks, ih, List.cons_append, List.append_assoc]

theorem Members.marks_split {name : List UInt8} {ms pre post : Members} {v : Value}
    (h : ms.split name = some (pre, v, post)) (depth : ℕ) : ms.marks depth =
      pre.marks depth ++ .member depth name :: (v.marks (depth + 1) ++ post.marks depth) := by
  rw [(split_eq_some h).1, marks_append, marks]

/-- The members and scalars behind the place of a path. -/
def Value.marksAfter : List (List UInt8) → ℕ → Value → List Mark
  | name :: path, depth, .object ms =>
    match ms.split name with
    | none => []
    | some (_, v, post) => v.marksAfter path (depth + 1) ++ post.marks depth
  | _, _, _ => []

theorem Value.marksAfter_object {name : List UInt8} {ms pre post : Members} {v : Value}
    (h : ms.split name = some (pre, v, post)) (path : List (List UInt8)) (depth : ℕ) :
    (Value.object ms).marksAfter (name :: path) depth =
      v.marksAfter path (depth + 1) ++ post.marks depth := by
  rw [marksAfter, h]

/-! Only the scalar at the path changes, and the document stays as it is without one. -/

theorem Value.setAt_object {name : List UInt8} {ms pre post : Members} {v : Value}
    (h : ms.split name = some (pre, v, post)) (s : Scalar) (path : List (List UInt8)) :
    (Value.object ms).setAt s (name :: path) =
      .object (pre.append (.cons name (v.setAt s path) post)) := by
  rw [setAt, h]

theorem Value.scalarAt_setAt {path : List (List UInt8)} {v : Value} {s t : Scalar}
    (h : v.scalarAt path = some s) : (v.setAt t path).scalarAt path = some t := by
  induction path generalizing v with
  | nil =>
      cases v with
      | scalar => rfl
      | array | object => cases h
  | cons name path ih =>
      obtain ⟨ms, pre, w, post, rfl, hsplit, hw⟩ := scalarAt_cons h
      rw [setAt_object hsplit, scalarAt, Members.split_append (Members.split_eq_some hsplit).2]
      exact ih hw

theorem Value.marksAfter_setAt {path : List (List UInt8)} {v : Value} {s : Scalar}
    (h : v.scalarAt path = some s) (t : Scalar) (depth : ℕ) :
    (v.setAt t path).marksAfter path depth = v.marksAfter path depth := by
  induction path generalizing v depth with
  | nil => simp [marksAfter]
  | cons name path ih =>
      obtain ⟨ms, pre, w, post, rfl, hsplit, hw⟩ := scalarAt_cons h
      rw [setAt_object hsplit, marksAfter_object hsplit,
        marksAfter_object (Members.split_append (Members.split_eq_some hsplit).2 _ _), ih hw]

theorem Value.setAt_of_none {path : List (List UInt8)} {v : Value} (h : v.scalarAt path = none)
    (s : Scalar) : v.setAt s path = v := by
  induction path generalizing v with
  | nil =>
      cases v with
      | scalar t => cases h
      | array | object => simp [setAt]
  | cons name path ih =>
      cases v with
      | scalar | array => simp [setAt]
      | object ms =>
          cases hsplit : ms.split name with
          | none => rw [setAt, hsplit]
          | some p =>
              obtain ⟨pre, w, post⟩ := p
              rw [scalarAt, hsplit] at h
              rw [setAt_object hsplit, ih h, (Members.split_eq_some hsplit).1]

end Lib.Json
