import OpenPgTde.Keyring.OpenBao

/-!
Which scalar of an answer is taken as the key.

The callbacks look for a member `data` inside one object, then for a member `data` inside two and then
for members `key` inside three, each behind the one before but not necessarily in it. Whatever scalar
comes next behind such a `key` is taken, and the last one taken stays. `KeyAlone` says when this is the
scalar at `data.data.key`, whatever that scalar is.
-/

namespace OpenPgTde.OpenBao

open Lib.Json

/-- Where the key is in an answer. -/
def keyPath : List (List UInt8) := [ascii "data", ascii "data", ascii "key"]

/-- A callback for a member or a scalar. -/
def markAction (parse : JsonOpenBaoRespState) : Mark → JsonOpenBaoRespState
  | .member depth name =>
    { jsonRespObjectFieldStart { parse with level := depth } name with level := parse.level }
  | .scalar s => jsonRespScalar parse s.text

/-- There is a scalar behind one of these members. -/
def KeyBehind (members : List Mark) (marks : List Mark) : Prop :=
  ∃ s, List.Sublist (members ++ [.scalar s]) marks

/-- No scalar can be mistaken for the key: behind the key there is no other member `key` inside three
objects with a scalar behind it, and without a key there are not the three members that lead to one
with a scalar behind them. -/
def KeyAlone (v : Value) : Prop :=
  match v.scalarAt keyPath with
  | some _ => ¬ KeyBehind [.member 2 (ascii "key")] (v.marksAfter keyPath 0)
  | none => ¬ KeyBehind
      [.member 0 (ascii "data"), .member 1 (ascii "data"), .member 2 (ascii "key")] (v.marks 0)

/-! ### A run over the members and scalars -/

section Marks

variable {p : JsonOpenBaoRespState}

theorem jsonRespScalar_level (token : List UInt8) : (jsonRespScalar p token).level = p.level := by
  unfold jsonRespScalar
  split <;> rfl

theorem jsonRespObjectFieldStart_level (fname : List UInt8) :
    (jsonRespObjectFieldStart p fname).level = p.level := by
  unfold jsonRespObjectFieldStart
  split <;> split <;> rfl

@[simp] theorem markAction_level (m : Mark) : (markAction p m).level = p.level := by
  cases m with
  | member depth name => rfl
  | scalar s => exact jsonRespScalar_level _

@[simp] theorem foldl_markAction_level (ms : List Mark) :
    (ms.foldl markAction p).level = p.level := by
  induction ms generalizing p with
  | nil => rfl
  | cons m ms ih => rw [List.foldl_cons, ih, markAction_level]

/-- The level has no part in what happens between two starts of members. -/
theorem markAction_withLevel (m : Mark) (level : ℤ) :
    markAction { p with level := level } m = { markAction p m with level := level } := by
  cases m with
  | member depth name => rfl
  | scalar s =>
      simp only [markAction, jsonRespScalar]
      split <;> rfl

theorem foldl_markAction_withLevel (ms : List Mark) (level : ℤ) :
    ms.foldl markAction { p with level := level } =
      { ms.foldl markAction p with level := level } := by
  induction ms generalizing p with
  | nil => rfl
  | cons m ms ih => rw [List.foldl_cons, markAction_withLevel, ih, List.foldl_cons]

end Marks

/-! The run over what is reported is the run over the members and scalars. -/

mutual

theorem foldl_respAction_value (v : Value) {p : JsonOpenBaoRespState} {depth : ℕ}
    (h : p.level = depth - 1) : v.signals.foldl respAction p = (v.marks depth).foldl markAction p := by
  cases v with
  | scalar s => rw [Value.signals, Value.marks]; rfl
  | array vs =>
      rw [Value.signals, Value.marks, List.foldl_cons, List.foldl_append]
      exact foldl_respAction_elements vs h
  | object ms =>
      have hrun := @foldl_respAction_members ms (jsonRespObjectStart p) depth
        (by simp [jsonRespObjectStart, h])
      rw [Value.signals, Value.marks, List.foldl_cons, List.foldl_append]
      change jsonRespObjectEnd (ms.signals.foldl respAction (jsonRespObjectStart p)) = _
      rw [hrun, jsonRespObjectStart, foldl_markAction_withLevel, jsonRespObjectEnd]
      ext1 <;> simp

theorem foldl_respAction_elements (vs : Elements) {p : JsonOpenBaoRespState} {depth : ℕ}
    (h : p.level = depth - 1) : vs.signals.foldl respAction p = (vs.marks depth).foldl markAction p := by
  cases vs with
  | nil => rw [Elements.signals, Elements.marks]; rfl
  | cons v vs =>
      rw [Elements.signals, Elements.marks, List.foldl_append, List.foldl_append,
        foldl_respAction_value v h]
      exact foldl_respAction_elements vs (by simpa using h)

theorem foldl_respAction_members (ms : Members) {p : JsonOpenBaoRespState} {depth : ℕ}
    (h : p.level = depth) : ms.signals.foldl respAction p = (ms.marks depth).foldl markAction p := by
  cases ms with
  | nil => rw [Members.signals, Members.marks]; rfl
  | cons name v ms =>
      have hstart : respAction p (.fieldStart name) = markAction p (.member depth name) := by
        obtain ⟨state, field, level, key⟩ := p
        obtain rfl := h
        ext1 <;> simp [markAction, respAction, jsonRespObjectFieldStart_level]
      rw [Members.signals, Members.marks, List.foldl_cons, List.foldl_cons, List.foldl_append,
        List.foldl_append, hstart, @foldl_respAction_value v _ (depth + 1) (by simp [h])]
      exact foldl_respAction_members ms (by simpa using h)

end

/-! ### What is taken -/

theorem keyBehind_cons_self {m : Mark} {members ms : List Mark} :
    KeyBehind (m :: members) (m :: ms) ↔ KeyBehind members ms :=
  exists_congr fun _ => List.cons_sublist_cons

theorem keyBehind_cons_of_ne {m m' : Mark} {members ms : List Mark} (h : m ≠ m') :
    KeyBehind (m :: members) (m' :: ms) ↔ KeyBehind (m :: members) ms := by
  refine exists_congr fun s => ⟨fun hsub => ?_, fun hsub => hsub.cons m'⟩
  obtain hsub | ⟨r, heq, -⟩ := List.sublist_cons_iff.1 hsub
  · exact hsub
  · exact absurd (List.cons.inj heq).1 h

theorem keyBehind_nil {ms : List Mark} : KeyBehind [] ms ↔ ∃ s, Mark.scalar s ∈ ms :=
  exists_congr fun _ => List.singleton_sublist

/-- What a run makes of the key: if there is a scalar behind these members then some scalar is taken, else
the key stays. -/
structure Takes (members ms : List Mark) (p : JsonOpenBaoRespState) : Prop where
  kept : ¬ KeyBehind members ms → (ms.foldl markAction p).key = p.key
  taken : KeyBehind members ms → ∃ s, Mark.scalar s ∈ ms ∧ (ms.foldl markAction p).key = some s.text

section Takes

variable {members ms : List Mark} {m : Mark} {p : JsonOpenBaoRespState}

theorem takes_nil (members : List Mark) (p : JsonOpenBaoRespState) : Takes members [] p where
  kept _ := rfl
  taken := by
    rintro ⟨s, hs⟩
    simp at hs

theorem Takes.cons {members' : List Mark} (hkey : (markAction p m).key = p.key)
    (hbehind : KeyBehind members (m :: ms) ↔ KeyBehind members' ms)
    (h : Takes members' ms (markAction p m)) : Takes members (m :: ms) p where
  kept hno := (h.kept (hbehind.not.1 hno)).trans hkey
  taken hbeh := by
    obtain ⟨s, hs, htaken⟩ := h.taken (hbehind.1 hbeh)
    exact ⟨s, List.mem_cons_of_mem _ hs, htaken⟩

/-- Once the inner object is expected, every member `key` inside three objects waits for a scalar. -/
theorem takes_expectKey (ms : List Mark) : ∀ p : JsonOpenBaoRespState, p.state = .expectKey →
    (p.field = .key → Takes [] ms p) ∧
      (p.field = .unused → Takes [.member 2 (ascii "key")] ms p) := by
  induction ms with
  | nil => exact fun p _ => ⟨fun _ => takes_nil _ p, fun _ => takes_nil _ p⟩
  | cons m ms ih =>
      intro p hstate
      cases m with
      | member depth name =>
          constructor
          · intro hfield
            have hstep : markAction p (.member depth name) = p := by
              ext1 <;> simp [markAction, jsonRespObjectFieldStart, hstate] <;> split <;> simp [hfield]
            refine Takes.cons (by rw [hstep]) ?_ (hstep.symm ▸ (ih p hstate).1 hfield)
            simp [keyBehind_nil]
          · intro hfield
            by_cases hm : Mark.member 2 (ascii "key") = .member depth name
            · obtain ⟨rfl, rfl⟩ := Mark.member.inj hm
              have hstep : markAction p (.member 2 (ascii "key")) = { p with field := .key } := by
                simp [markAction, jsonRespObjectFieldStart, hstate]
              refine Takes.cons (by rw [hstep]) keyBehind_cons_self (hstep.symm ▸ (ih _ ?_).1 rfl)
              exact hstate
            · have hne : ¬ (name = ascii "key" ∧ (depth : ℤ) = 2) := by
                rintro ⟨rfl, hdepth⟩
                exact hm (by rw [show depth = 2 by omega])
              have hstep : markAction p (.member depth name) = p := by
                ext1 <;> simp [markAction, jsonRespObjectFieldStart, hstate, hne]
              exact Takes.cons (by rw [hstep]) (keyBehind_cons_of_ne hm)
                (hstep.symm ▸ (ih p hstate).2 hfield)
      | scalar s =>
          constructor
          · intro hfield
            have hstep : markAction p (.scalar s) =
                { p with key := some s.text, field := .unused } := by
              simp [markAction, jsonRespScalar, hfield]
            have hrest := (ih _ (show (markAction p (.scalar s)).state = _ by rw [hstep]; exact hstate)).2
              (by rw [hstep])
            refine ⟨fun hno => absurd (keyBehind_nil.2 ⟨s, by simp⟩) hno, fun _ => ?_⟩
            by_cases hbehind : KeyBehind [.member 2 (ascii "key")] ms
            · obtain ⟨t, ht, htaken⟩ := hrest.taken hbehind
              exact ⟨t, List.mem_cons_of_mem _ ht, htaken⟩
            · refine ⟨s, by simp, (hrest.kept hbehind).trans ?_⟩
              rw [hstep]
          · intro hfield
            have hstep : markAction p (.scalar s) = p := by
              simp [markAction, jsonRespScalar, hfield]
            exact Takes.cons (by rw [hstep]) (keyBehind_cons_of_ne (by simp))
              (hstep.symm ▸ (ih p hstate).2 hfield)

/-- While a member is waited for, nothing else has an effect. -/
theorem Takes.await {m₀ : Mark} (hother : ∀ m, m₀ ≠ m → markAction p m = p)
    (hkey : (markAction p m₀).key = p.key) (h : ∀ ms, Takes members ms (markAction p m₀))
    (ms : List Mark) : Takes (m₀ :: members) ms p := by
  induction ms with
  | nil => exact takes_nil _ p
  | cons m ms ih =>
      by_cases hm : m₀ = m
      · subst hm
        exact Takes.cons hkey keyBehind_cons_self (h ms)
      · exact Takes.cons (by rw [hother m hm]) (keyBehind_cons_of_ne hm) ((hother m hm).symm ▸ ih)

theorem takes_expectData (hstate : p.state = .expectData) (hfield : p.field = .unused)
    (ms : List Mark) : Takes [.member 1 (ascii "data"), .member 2 (ascii "key")] ms p := by
  have hgo : markAction p (.member 1 (ascii "data")) = { p with state := .expectKey } := by
    simp [markAction, jsonRespObjectFieldStart, hstate]
  refine Takes.await (fun m hm => ?_) (by rw [hgo])
    (fun ms => (takes_expectKey ms _ (by rw [hgo])).2 (by rw [hgo]; exact hfield)) ms
  cases m with
  | member depth name =>
      have hne : ¬ (name = ascii "data" ∧ (depth : ℤ) = 1) := by
        rintro ⟨rfl, hdepth⟩
        exact hm (by rw [show depth = 1 by omega])
      simp only [markAction, jsonRespObjectFieldStart, hstate]
      rw [if_neg hne, ← hstate]
  | scalar s => simp [markAction, jsonRespScalar, hfield]

theorem takes_expectTopData (hstate : p.state = .expectTopData) (hfield : p.field = .unused)
    (ms : List Mark) :
    Takes [.member 0 (ascii "data"), .member 1 (ascii "data"), .member 2 (ascii "key")] ms p := by
  have hgo : markAction p (.member 0 (ascii "data")) = { p with state := .expectData } := by
    simp [markAction, jsonRespObjectFieldStart, hstate]
  refine Takes.await (fun m hm => ?_) (by rw [hgo])
    (takes_expectData (by rw [hgo]) (by rw [hgo]; exact hfield)) ms
  cases m with
  | member depth name =>
      have hne : ¬ (name = ascii "data" ∧ (depth : ℤ) = 0) := by
        rintro ⟨rfl, hdepth⟩
        exact hm (by rw [show depth = 0 by omega])
      simp only [markAction, jsonRespObjectFieldStart, hstate]
      rw [if_neg hne, ← hstate]
  | scalar s => simp [markAction, jsonRespScalar, hfield]

end Takes

/-! ### The way to the key -/

/-- How many of the objects around the key have been entered. -/
def entered : JsonOpenBaoRespSemState → ℕ
  | .expectTopData => 0
  | .expectData => 1
  | .expectKey => 2

theorem entered_le_two (state : JsonOpenBaoRespSemState) : entered state ≤ 2 := by
  cases state <;> decide

theorem eq_expectKey {state : JsonOpenBaoRespSemState} (h : 2 ≤ entered state) :
    state = .expectKey := by
  cases state with
  | expectTopData | expectData => simp [entered] at h
  | expectKey => rfl

theorem entered_markAction (p : JsonOpenBaoRespState) (m : Mark) :
    entered p.state ≤ entered (markAction p m).state := by
  cases m with
  | member depth name =>
      cases hstate : p.state <;> simp only [markAction, jsonRespObjectFieldStart, hstate] <;>
        split <;> simp [entered]
  | scalar s =>
      simp only [markAction, jsonRespScalar]
      split <;> exact le_rfl

theorem entered_foldl (p : JsonOpenBaoRespState) (ms : List Mark) :
    entered p.state ≤ entered (ms.foldl markAction p).state := by
  induction ms generalizing p with
  | nil => exact le_rfl
  | cons m ms ih => exact (entered_markAction p m).trans (ih _)

/-- An object named `data` that is met in its place has been entered afterwards. -/
theorem entered_data {p : JsonOpenBaoRespState} {n : ℕ} (hn : n < 2) (h : n ≤ entered p.state) :
    n + 1 ≤ entered (markAction p (.member n (ascii "data"))).state := by
  by_cases hlt : n < entered p.state
  · exact hlt.trans_le (entered_markAction p _)
  · have heq : entered p.state = n := by omega
    cases hstate : p.state <;> simp only [hstate, entered] at heq <;> subst heq
    · simp [markAction, jsonRespObjectFieldStart, hstate, entered]
    · simp [markAction, jsonRespObjectFieldStart, hstate, entered]
    · omega

/-- The members around the key and the key itself, with what is before each of them. -/
def lead (pre₀ pre₁ pre₂ : List Mark) (s : Scalar) : List Mark :=
  pre₀ ++ .member 0 (ascii "data") :: (pre₁ ++ .member 1 (ascii "data") ::
    (pre₂ ++ [.member 2 (ascii "key"), .scalar s]))

/-- They make that scalar the key. -/
theorem foldl_lead (p : JsonOpenBaoRespState) (pre₀ pre₁ pre₂ : List Mark) (s : Scalar) :
    ∃ q : JsonOpenBaoRespState, (lead pre₀ pre₁ pre₂ s).foldl markAction p = q ∧
      q.state = .expectKey ∧ q.field = .unused ∧ q.key = some s.text := by
  simp only [lead, List.foldl_append, List.foldl_cons, List.foldl_nil]
  set p₁ := pre₁.foldl markAction (markAction (pre₀.foldl markAction p) (.member 0 (ascii "data")))
  have h₁ : 1 ≤ entered p₁.state :=
    (entered_data (by omega) (Nat.zero_le _)).trans (entered_foldl _ pre₁)
  set p₂ := pre₂.foldl markAction (markAction p₁ (.member 1 (ascii "data")))
  have h₂ : p₂.state = .expectKey :=
    eq_expectKey ((entered_data (by omega) h₁).trans (entered_foldl _ pre₂))
  refine ⟨_, rfl, ?_⟩
  simp [markAction, jsonRespObjectFieldStart, jsonRespScalar, h₂]

/-- Where there is a scalar at the path of the key, the members that lead to it stand before it, and
the rest is what is behind it. -/
theorem marks_of_scalarAt {v : Value} {s : Scalar} (h : v.scalarAt keyPath = some s) :
    ∃ pre₀ pre₁ pre₂, v.marks 0 = lead pre₀ pre₁ pre₂ s ++ v.marksAfter keyPath 0 := by
  obtain ⟨ms₀, pre₀, v₀, post₀, rfl, hsplit₀, h⟩ := Value.scalarAt_cons h
  obtain ⟨ms₁, pre₁, v₁, post₁, rfl, hsplit₁, h⟩ := Value.scalarAt_cons h
  obtain ⟨ms₂, pre₂, v₂, post₂, rfl, hsplit₂, h⟩ := Value.scalarAt_cons h
  have hv₂ : v₂ = .scalar s := by
    cases v₂ with
    | scalar t => rw [Option.some.inj h]
    | array vs | object ms => cases h
  subst hv₂
  refine ⟨pre₀.marks 0, pre₁.marks 1, pre₂.marks 2, ?_⟩
  rw [keyPath, Value.marksAfter_object hsplit₀, Value.marksAfter_object hsplit₁,
    Value.marksAfter_object hsplit₂]
  simp only [Value.marks, Members.marks_split hsplit₀, Members.marks_split hsplit₁,
    Members.marks_split hsplit₂, Value.marksAfter, lead, List.append_assoc, List.cons_append,
    List.nil_append]

/-! ### When the key is right -/

theorem parseJsonResponse_eq (v : Value) : parseJsonResponse v.signals =
    (v.marks 0).foldl markAction ⟨.expectTopData, .unused, -1, none⟩ :=
  @foldl_respAction_value v _ 0 (by simp)

/-- What is taken of an answer that has a key: the key, or a scalar behind it. -/
theorem parseJsonResponse_key {v : Value} {s : Scalar} (h : v.scalarAt keyPath = some s) :
    (¬ KeyBehind [.member 2 (ascii "key")] (v.marksAfter keyPath 0) →
      (parseJsonResponse v.signals).key = some s.text) ∧
    (KeyBehind [.member 2 (ascii "key")] (v.marksAfter keyPath 0) →
      ∃ t, Mark.scalar t ∈ v.marksAfter keyPath 0 ∧
        (parseJsonResponse v.signals).key = some t.text) := by
  obtain ⟨pre₀, pre₁, pre₂, hmarks⟩ := marks_of_scalarAt h
  obtain ⟨q, hq, hstate, hfield, hkey⟩ :=
    foldl_lead ⟨.expectTopData, .unused, -1, none⟩ pre₀ pre₁ pre₂ s
  rw [parseJsonResponse_eq, hmarks, List.foldl_append, hq]
  have htakes := (takes_expectKey (v.marksAfter keyPath 0) q hstate).2 hfield
  exact ⟨fun hno => (htakes.kept hno).trans hkey, htakes.taken⟩

/-- What is taken of an answer without a key. -/
theorem parseJsonResponse_noKey (v : Value) :
    (parseJsonResponse v.signals).key = none ↔ ¬ KeyBehind
      [.member 0 (ascii "data"), .member 1 (ascii "data"), .member 2 (ascii "key")] (v.marks 0) := by
  rw [parseJsonResponse_eq]
  have htakes := takes_expectTopData (p := ⟨.expectTopData, .unused, -1, none⟩) rfl rfl (v.marks 0)
  refine ⟨fun hnone hbehind => ?_, htakes.kept⟩
  obtain ⟨t, -, htaken⟩ := htakes.taken hbehind
  rw [hnone] at htaken
  cases htaken

/-- There is a text that none of these scalars has. -/
theorem exists_fresh (ms : List Mark) : ∃ token, ∀ t, Mark.scalar t ∈ ms → t.text ≠ token := by
  obtain ⟨n, hn⟩ : ∃ n, ∀ t, Mark.scalar t ∈ ms → t.text.length < n := by
    induction ms with
    | nil => exact ⟨0, by simp⟩
    | cons m ms ih =>
        obtain ⟨n, hn⟩ := ih
        cases m with
        | member depth name => exact ⟨n, fun t ht => hn t (by simpa using ht)⟩
        | scalar s =>
            refine ⟨max n (s.text.length + 1), fun t ht => ?_⟩
            obtain heq | ht := List.mem_cons.1 ht
            · rw [Mark.scalar.inj heq]
              omega
            · exact (hn t ht).trans_le (le_max_left _ _)
  refine ⟨List.replicate n 0, fun t ht heq => ?_⟩
  have hlt := hn t ht
  rw [heq, List.length_replicate] at hlt
  exact lt_irrefl n hlt

theorem keyAlone_setAt {v : Value} (s : Scalar) : KeyAlone (v.setAt s keyPath) ↔ KeyAlone v := by
  unfold KeyAlone
  cases h : v.scalarAt keyPath with
  | none => rw [Value.setAt_of_none h, h]
  | some t => rw [Value.scalarAt_setAt h, Value.marksAfter_setAt h]

theorem parseJsonResponse_of_keyAlone {v : Value} (h : KeyAlone v) :
    (parseJsonResponse v.signals).key = (v.scalarAt keyPath).map Scalar.text := by
  unfold KeyAlone at h
  cases hkey : v.scalarAt keyPath with
  | none =>
      rw [hkey] at h
      exact (parseJsonResponse_noKey v).2 h
  | some s =>
      rw [hkey] at h
      exact (parseJsonResponse_key hkey).1 h

/-- The key of an answer is the scalar at `data.data.key` if no other scalar can be mistaken for it. Where
one can, this fails: without a key in any case, and with a key for all keys but the ones that happen
to have the text of the other scalar. -/
theorem parse_json_response_iff (v : Value) :
    (KeyAlone v → (parseJsonResponse v.signals).key = (v.scalarAt keyPath).map Scalar.text) ∧
    ((∀ s, (parseJsonResponse (v.setAt s keyPath).signals).key =
      ((v.setAt s keyPath).scalarAt keyPath).map Scalar.text) ↔ KeyAlone v) := by
  refine ⟨parseJsonResponse_of_keyAlone, fun hall => ?_, fun h s =>
    parseJsonResponse_of_keyAlone ((keyAlone_setAt s).2 h)⟩
  unfold KeyAlone
  cases hkey : v.scalarAt keyPath with
  | none =>
      have hnone := hall .null
      rw [Value.setAt_of_none hkey, hkey] at hnone
      exact (parseJsonResponse_noKey v).1 hnone
  | some t =>
      intro hbehind
      obtain ⟨token, hfresh⟩ := exists_fresh (v.marksAfter keyPath 0)
      have hset : (v.setAt (.str token) keyPath).scalarAt keyPath = some (.str token) :=
        Value.scalarAt_setAt hkey
      rw [← Value.marksAfter_setAt hkey (.str token)] at hbehind
      obtain ⟨t', ht', htaken⟩ := (parseJsonResponse_key hset).2 hbehind
      rw [Value.marksAfter_setAt hkey] at ht'
      rw [hall (.str token), hset] at htaken
      exact hfresh t' ht' (Option.some.inj htaken).symm

/-- An answer with a member `key` in the metadata, too. -/
def sampleAnswer : Value :=
  .object (.cons (ascii "data") (.object
    (.cons (ascii "data") (.object (.cons (ascii "key") (.scalar (.str (ascii "good"))) .nil))
      (.cons (ascii "metadata") (.object (.cons (ascii "key") (.scalar (.str (ascii "bad"))) .nil))
        .nil))) .nil)

/-- The last member `key` wins, in whatever object it is. -/
theorem parse_json_response_sibling : sampleAnswer.Distinct ∧
    sampleAnswer.scalarAt keyPath = some (.str (ascii "good")) ∧
    (parseJsonResponse sampleAnswer.signals).key = some (ascii "bad") := by
  refine ⟨?_, by rfl, by rfl⟩
  simp [sampleAnswer, Value.Distinct, Members.Distinct, Members.names, ascii]

end OpenPgTde.OpenBao
