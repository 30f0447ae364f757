import OpenPgTde.Keyring.OpenBao

/-!
What is read of the answer about a mount.

The state of the callbacks says what they wait for. A value that nobody waits for leaves no trace, but
two kinds of values make the callbacks lose their place: an object among the options, after which they
no longer look for the version, and an object or an array where a scalar is waited for, which leaves
them waiting until there is one somewhere. `MountInfoClear` is the condition under which neither has an
effect on the type or on the version.
-/

namespace OpenPgTde.OpenBao

open Lib.Json

def NoScalar (signals : List Signal) : Prop := ∀ s, Signal.scalar s ∉ signals

/-- What ends the waiting for an object. -/
def Signal.decides : Signal → Bool
  | .scalar _ => true
  | .objectStart => true
  | _ => false

/-- The first scalar or object is a scalar. -/
def LeadsWithScalar (signals : List Signal) : Prop :=
  ∃ s, signals.find? Signal.decides = some (.scalar s)

/-- Between two members of the answer, of the data, or deeper. -/
def Idle (p : JsonOpenBaoMountInfoState) : Prop :=
  p.state = .expectTopLevelField ∧ 0 ≤ p.level ∨ p.state = .expectDataField ∧ 1 ≤ p.level

/-- Inside an object where no member is looked for. -/
def IdleInside (p : JsonOpenBaoMountInfoState) : Prop :=
  p.state = .expectTopLevelField ∧ 1 ≤ p.level ∨ p.state = .expectDataField ∧ 2 ≤ p.level

section Idle

variable {p : JsonOpenBaoMountInfoState}

theorem IdleInside.idle (h : IdleInside p) : Idle p := by
  obtain ⟨hstate, hlevel⟩ | ⟨hstate, hlevel⟩ := h
  · exact .inl ⟨hstate, by omega⟩
  · exact .inr ⟨hstate, by omega⟩

theorem Idle.objectStart (h : Idle p) :
    jsonMountinfoObjectStart p = { p with level := p.level + 1 } ∧
      IdleInside { p with level := p.level + 1 } := by
  obtain ⟨hstate, hlevel⟩ | ⟨hstate, hlevel⟩ := h
  · exact ⟨by simp [jsonMountinfoObjectStart, hstate], .inl ⟨hstate, by simpa using hlevel⟩⟩
  · refine ⟨by simp [jsonMountinfoObjectStart, hstate], .inr ⟨hstate, ?_⟩⟩
    show 2 ≤ p.level + 1
    omega

theorem IdleInside.objectEnd (h : IdleInside p) :
    jsonMountinfoObjectEnd p = { p with level := p.level - 1 } := by
  obtain ⟨hstate, hlevel⟩ | ⟨hstate, hlevel⟩ := h
  · simp [jsonMountinfoObjectEnd, hstate]
  · have hne : p.level ≠ 1 := by omega
    simp [jsonMountinfoObjectEnd, hstate, hne]

theorem IdleInside.objectFieldStart (h : IdleInside p) (fname : List UInt8) :
    jsonMountinfoObjectFieldStart p fname = p := by
  obtain ⟨hstate, hlevel⟩ | ⟨hstate, hlevel⟩ := h
  · have hne : p.level ≠ 0 := by omega
    simp [jsonMountinfoObjectFieldStart, hstate, hne]
  · have hne : p.level ≠ 1 := by omega
    simp [jsonMountinfoObjectFieldStart, hstate, hne]

theorem Idle.scalar (h : Idle p) (token : List UInt8) : jsonMountinfoScalar p token = p := by
  obtain ⟨hstate, -⟩ | ⟨hstate, -⟩ := h <;> simp [jsonMountinfoScalar, hstate]

end Idle

mutual

theorem Idle.value (v : Value) {p : JsonOpenBaoMountInfoState} (h : Idle p) :
    v.signals.foldl mountinfoAction p = p := by
  cases v with
  | scalar s => rw [Value.signals]; exact h.scalar s.text
  | array vs =>
      rw [Value.signals, List.foldl_cons, List.foldl_append]
      exact Idle.elements vs h
  | object ms =>
      obtain ⟨hstart, hinside⟩ := h.objectStart
      rw [Value.signals, List.foldl_cons, List.foldl_append]
      change jsonMountinfoObjectEnd (ms.signals.foldl mountinfoAction (jsonMountinfoObjectStart p)) = p
      rw [hstart, IdleInside.members ms hinside, hinside.objectEnd]
      ext1 <;> simp

theorem Idle.elements (vs : Elements) {p : JsonOpenBaoMountInfoState} (h : Idle p) :
    vs.signals.foldl mountinfoAction p = p := by
  cases vs with
  | nil => rw [Elements.signals]; rfl
  | cons v vs =>
      rw [Elements.signals, List.foldl_append, Idle.value v h]
      exact Idle.elements vs h

theorem IdleInside.members (ms : Members) {p : JsonOpenBaoMountInfoState} (h : IdleInside p) :
    ms.signals.foldl mountinfoAction p = p := by
  cases ms with
  | nil => rw [Members.signals]; rfl
  | cons name v ms =>
      rw [Members.signals, List.foldl_cons, List.foldl_append]
      change ms.signals.foldl mountinfoAction
        (v.signals.foldl mountinfoAction (jsonMountinfoObjectFieldStart p name)) = p
      rw [h.objectFieldStart, Idle.value v h.idle]
      exact IdleInside.members ms h

end

/-! Without an object nothing happens outside of the answer, either. -/

mutual

theorem foldl_value_noObject (v : Value) {p : JsonOpenBaoMountInfoState}
    (hstate : p.state = .expectTopLevelField) (hno : Signal.objectStart ∉ v.signals) :
    v.signals.foldl mountinfoAction p = p := by
  cases v with
  | scalar s => rw [Value.signals]; simp [mountinfoAction, jsonMountinfoScalar, hstate]
  | array vs =>
      rw [Value.signals, List.foldl_cons, List.foldl_append]
      exact foldl_elements_noObject vs hstate (by simpa [Value.signals] using hno)
  | object ms => exact absurd (by simp [Value.signals]) hno

theorem foldl_elements_noObject (vs : Elements) {p : JsonOpenBaoMountInfoState}
    (hstate : p.state = .expectTopLevelField) (hno : Signal.objectStart ∉ vs.signals) :
    vs.signals.foldl mountinfoAction p = p := by
  cases vs with
  | nil => rw [Elements.signals]; rfl
  | cons v vs =>
      rw [Elements.signals, List.mem_append, not_or] at hno
      rw [Elements.signals, List.foldl_append, foldl_value_noObject v hstate hno.1]
      exact foldl_elements_noObject vs hstate hno.2

end

/-! ### Arrays in the place of an object

An array that leads with a scalar is skipped like a scalar. -/

mutual

theorem foldl_value_reset (v : Value) {p q : JsonOpenBaoMountInfoState}
    (hscalar : ∀ token, jsonMountinfoScalar p token = q) (hidle : Idle q) :
    (v.signals.find? Signal.decides = none → v.signals.foldl mountinfoAction p = p) ∧
      (LeadsWithScalar v.signals → v.signals.foldl mountinfoAction p = q) := by
  cases v with
  | scalar s =>
      refine ⟨fun hnone => ?_, fun _ => hscalar s.text⟩
      simp [Value.signals, Signal.decides] at hnone
  | array vs =>
      have hfind : (Value.array vs).signals.find? Signal.decides =
          vs.signals.find? Signal.decides := by
        simp [Value.signals, Signal.decides, List.find?_append]
      rw [LeadsWithScalar, hfind, Value.signals, List.foldl_cons, List.foldl_append]
      exact foldl_elements_reset vs hscalar hidle
  | object ms =>
      constructor
      · intro hnone
        simp [Value.signals, Signal.decides] at hnone
      · rintro ⟨s, hs⟩
        simp [Value.signals, Signal.decides] at hs

theorem foldl_elements_reset (vs : Elements) {p q : JsonOpenBaoMountInfoState}
    (hscalar : ∀ token, jsonMountinfoScalar p token = q) (hidle : Idle q) :
    (vs.signals.find? Signal.decides = none → vs.signals.foldl mountinfoAction p = p) ∧
      (LeadsWithScalar vs.signals → vs.signals.foldl mountinfoAction p = q) := by
  cases vs with
  | nil =>
      refine ⟨fun _ => by rw [Elements.signals]; rfl, ?_⟩
      rintro ⟨s, hs⟩
      simp [Elements.signals] at hs
  | cons v vs =>
      obtain ⟨hvalue, hvalue'⟩ := foldl_value_reset v hscalar hidle
      obtain ⟨hrest, hrest'⟩ := foldl_elements_reset vs hscalar hidle
      rw [LeadsWithScalar, Elements.signals, List.find?_append, List.foldl_append]
      cases hfind : v.signals.find? Signal.decides with
      | none =>
          rw [hvalue hfind]
          exact ⟨hrest, hrest'⟩
      | some m =>
          refine ⟨fun hnone => by simp at hnone, ?_⟩
          rintro ⟨s, hs⟩
          rw [hvalue' ⟨s, hfind.trans hs⟩]
          exact Idle.elements vs hidle

end

/-! ### Values among the options

The end of any object among the options is taken for the end of the options. -/

/-- What values among the options leave behind, by whether there is an object in them. -/
def leaveOptions (p : JsonOpenBaoMountInfoState) (signals : List Signal) :
    JsonOpenBaoMountInfoState :=
  if Signal.objectStart ∈ signals then { p with state := .expectDataField } else p

section LeaveOptions

variable {p : JsonOpenBaoMountInfoState}

theorem idleInside_leaveOptions {signals : List Signal} (hlevel : 2 ≤ p.level)
    (h : Signal.objectStart ∈ signals) : IdleInside (leaveOptions p signals) := by
  rw [leaveOptions, if_pos h]
  exact .inr ⟨rfl, hlevel⟩

theorem leaveOptions_append {l l' : List Signal} (hlevel : 2 ≤ p.level)
    {run : JsonOpenBaoMountInfoState → JsonOpenBaoMountInfoState}
    (hidle : ∀ q, IdleInside q → run q = q) (hrun : run p = leaveOptions p l') :
    run (leaveOptions p l) = leaveOptions p (l ++ l') := by
  by_cases hl : Signal.objectStart ∈ l
  · rw [hidle _ (idleInside_leaveOptions hlevel hl)]
    simp [leaveOptions, hl]
  · have heq : leaveOptions p l = p := if_neg hl
    rw [heq, hrun]
    simp [leaveOptions, hl]

end LeaveOptions

mutual

theorem options_value (v : Value) {p : JsonOpenBaoMountInfoState}
    (hstate : p.state = .expectOptionsField) (hlevel : 2 ≤ p.level) :
    v.signals.foldl mountinfoAction p = leaveOptions p v.signals := by
  cases v with
  | scalar s =>
      rw [Value.signals]
      simp [leaveOptions, mountinfoAction, jsonMountinfoScalar, hstate]
  | array vs =>
      have hmem : Signal.objectStart ∈ (Value.array vs).signals ↔ Signal.objectStart ∈ vs.signals := by
        simp [Value.signals]
      rw [leaveOptions, if_congr hmem rfl rfl, Value.signals, List.foldl_cons, List.foldl_append]
      exact options_elements vs hstate hlevel
  | object ms =>
      have hstart : jsonMountinfoObjectStart p = { p with level := p.level + 1 } := by
        simp [jsonMountinfoObjectStart, hstate]
      have hmembers := @options_members ms { p with level := p.level + 1 } hstate
        (show 2 ≤ p.level + 1 by omega) (fun h : p.level + 1 = 2 => absurd h (by omega))
      have hne : p.level + 1 ≠ 1 := by omega
      rw [leaveOptions, if_pos (by rw [Value.signals]; simp), Value.signals, List.foldl_cons,
        List.foldl_append]
      change jsonMountinfoObjectEnd (ms.signals.foldl mountinfoAction (jsonMountinfoObjectStart p)) = _
      rw [hstart, hmembers, leaveOptions]
      split <;> ext1 <;> simp [jsonMountinfoObjectEnd, hstate, hne]

theorem options_elements (vs : Elements) {p : JsonOpenBaoMountInfoState}
    (hstate : p.state = .expectOptionsField) (hlevel : 2 ≤ p.level) :
    vs.signals.foldl mountinfoAction p = leaveOptions p vs.signals := by
  cases vs with
  | nil => simp [Elements.signals, leaveOptions]
  | cons v vs =>
      rw [Elements.signals, List.foldl_append, options_value v hstate hlevel]
      exact leaveOptions_append hlevel (fun q hq => Idle.elements vs hq.idle)
        (options_elements vs hstate hlevel)

theorem options_members (ms : Members) {p : JsonOpenBaoMountInfoState}
    (hstate : p.state = .expectOptionsField) (hlevel : 2 ≤ p.level)
    (hnames : p.level = 2 → ascii "version" ∉ ms.names) :
    ms.signals.foldl mountinfoAction p = leaveOptions p ms.signals := by
  cases ms with
  | nil => simp [Members.signals, leaveOptions]
  | cons name v ms =>
      have hfield : jsonMountinfoObjectFieldStart p name = p := by
        have hne : ¬ (p.level = 2 ∧ name = ascii "version") := by
          rintro ⟨htwo, rfl⟩
          exact hnames htwo (by simp [Members.names])
        simp [jsonMountinfoObjectFieldStart, hstate, hne]
      have hrest : p.level = 2 → ascii "version" ∉ ms.names := fun htwo hmem =>
        hnames htwo (by simp [Members.names, hmem])
      have hmem : leaveOptions p (Members.cons name v ms).signals =
          leaveOptions p (v.signals ++ ms.signals) := by
        simp [leaveOptions, Members.signals]
      rw [hmem, Members.signals, List.foldl_cons, List.foldl_append]
      change ms.signals.foldl mountinfoAction
        (v.signals.foldl mountinfoAction (jsonMountinfoObjectFieldStart p name)) = _
      rw [hfield, options_value v hstate hlevel]
      exact leaveOptions_append hlevel (fun q hq => IdleInside.members ms hq)
        (options_members ms hstate hlevel hrest)

end

/-! ### Waiting for a scalar -/

theorem NoScalar.tail {m : Signal} {l : List Signal} (h : NoScalar (m :: l)) : NoScalar l :=
  fun s hs => h s (List.mem_cons_of_mem m hs)

/-- The callbacks wait for the type or for the version. -/
def Waiting (p : JsonOpenBaoMountInfoState) : Prop :=
  p.state = .expectTypeValue ∨ p.state = .expectVersionValue

section Waiting

variable {p : JsonOpenBaoMountInfoState}

theorem Waiting.action (h : Waiting p) {m : Signal} (hm : ∀ s, m ≠ .scalar s) :
    (mountinfoAction p m).state = p.state ∧ (mountinfoAction p m).type = p.type ∧
      (mountinfoAction p m).version = p.version := by
  obtain hstate | hstate := h <;> cases m with
  | scalar s => exact absurd rfl (hm s)
  | _ =>
    simp [mountinfoAction, jsonMountinfoObjectStart, jsonMountinfoObjectEnd,
      jsonMountinfoObjectFieldStart, hstate]

/-- Without a scalar nothing is read. -/
theorem Waiting.foldl (h : Waiting p) {signals : List Signal} (hno : NoScalar signals) :
    (signals.foldl mountinfoAction p).type = p.type ∧
      (signals.foldl mountinfoAction p).version = p.version := by
  induction signals generalizing p with
  | nil => exact ⟨rfl, rfl⟩
  | cons m signals ih =>
      obtain ⟨hstate, htype, hversion⟩ :=
        h.action (m := m) fun s hm => hno s (hm ▸ List.mem_cons_self)
      have hwaiting : Waiting (mountinfoAction p m) := by rwa [Waiting, hstate]
      obtain ⟨htype', hversion'⟩ := ih hwaiting hno.tail
      exact ⟨htype'.trans htype, hversion'.trans hversion⟩

end Waiting

/-! ### The options -/

section Options

variable {p : JsonOpenBaoMountInfoState} {options : Members}

end Options

/-! ### The data -/

section Data

variable {ms : Members} {name : List UInt8} {v : Value} {behind : List Signal}
  {old : Option (List UInt8)}

/-- Between two members of the data. -/
structure AtData (p : JsonOpenBaoMountInfoState) : Prop where
  state : p.state = .expectDataField
  level : p.level = 1

variable {p : JsonOpenBaoMountInfoState}

theorem AtData.idle (h : AtData p) : Idle p := .inr ⟨h.state, h.level.ge⟩

/-- If the member is an array, it leads with a scalar. -/
def ArraySkipped (ms : Members) (name : List UInt8) : Prop :=
  ∀ pre vs post, ms.split name = some (pre, .array vs, post) → LeadsWithScalar vs.signals

theorem ArraySkipped.of_cons {name' : List UInt8} (h : ArraySkipped (.cons name' v ms) name)
    (hne : name' ≠ name) : ArraySkipped ms name := by
  intro pre vs post hsplit
  refine h (.cons name' v pre) vs post ?_
  rw [Members.split_cons_of_ne hne, hsplit]
  rfl

end Data

/-! ### The answer -/

/-- Between two members of the answer. -/
structure AtTop (p : JsonOpenBaoMountInfoState) : Prop where
  state : p.state = .expectTopLevelField
  level : p.level = 0

section Answer

variable {p : JsonOpenBaoMountInfoState} {ms : Members}

theorem AtTop.foldl (h : AtTop p) (hnames : ascii "data" ∉ ms.names) :
    ms.signals.foldl mountinfoAction p = p := by
  induction ms using Members.induct with
  | nil => rw [Members.signals]; rfl
  | cons name v ms ih =>
      simp only [Members.names, List.mem_cons, not_or] at hnames
      have hfield : mountinfoAction p (.fieldStart name) = p := by
        simp [mountinfoAction, jsonMountinfoObjectFieldStart, h.state, Ne.symm hnames.1]
      rw [Members.signals, List.foldl_cons, hfield, List.foldl_append,
        Idle.value v (.inl ⟨h.state, h.level.ge⟩)]
      exact ih hnames.2

end Answer

end OpenPgTde.OpenBao
