import OpenPgTde.Keyring
import OpenPgTde.Lib.Json
import Mathlib.Data.List.Induction

/-!
Reading the options of a key provider (`catalog/tde_keyring_parse_opts.c`).

The options are kept as a JSON text, an object of scalars. A JSON parser goes through the text and
calls back for what it meets; the callbacks know which fields the type of the provider has and write
the scalars into the structure of the provider. A field that comes twice is written twice.

The parser is not part of the program. What the callbacks make of a text is
`parseKeyringJSONOptions_ok_iff`: the options are read without an error when the text is an object of
fields of the provider that are strings, numbers or null, and then every field has what the text says
about it last.
-/

namespace OpenPgTde

open Lib.Json

/-- The bytes of a text of ASCII characters. -/
def ascii (s : String) : List UInt8 := s.toList.map fun c => UInt8.ofNat c.toNat

inductive JsonKeyringField
  | unknown
  | filePath
  | openbaoTokenPath
  | openbaoUrl
  | openbaoMountPath
  | openbaoCaPath
  | openbaoNamespace
  | kmipHost
  | kmipPort
  | kmipCaPath
  | kmipCertPath
  | kmipKeyPath
  deriving DecidableEq, Repr

/-- `JK_FIELD_NAMES`. -/
def jkFieldNames : JsonKeyringField → List UInt8
  | .unknown => ascii "unknownField"
  | .filePath => ascii "path"
  | .openbaoTokenPath => ascii "tokenPath"
  | .openbaoUrl => ascii "url"
  | .openbaoMountPath => ascii "mountPath"
  | .openbaoCaPath => ascii "caPath"
  | .openbaoNamespace => ascii "namespace"
  | .kmipHost => ascii "host"
  | .kmipPort => ascii "port"
  | .kmipCaPath => ascii "caPath"
  | .kmipCertPath => ascii "certPath"
  | .kmipKeyPath => ascii "keyPath"

/-- The fields a provider has, in the order in which their names are compared. -/
def jkFields : ProviderType → List JsonKeyringField
  | .unknown => []
  | .file => [.filePath]
  | .openbao =>
    [.openbaoTokenPath, .openbaoUrl, .openbaoMountPath, .openbaoCaPath, .openbaoNamespace]
  | .kmip => [.kmipHost, .kmipPort, .kmipCaPath, .kmipCertPath, .kmipKeyPath]

/-- What a provider structure holds in its fields; `none` is a null pointer. -/
abbrev ProviderOpts := JsonKeyringField → Option (List UInt8)

inductive JsonKeyringSemState
  | expectTopLevelObject
  | expectField
  deriving DecidableEq, Repr

structure JsonKeyringState where
  providerType : ProviderType
  providerOpts : ProviderOpts
  currentField : JsonKeyringField
  state : JsonKeyringSemState

inductive KeyringOptionsError
  | parsingFailed
  | invalidToken
  | invalidSemanticState
  | optionsMustBeAnObject
  | unexpectedArray (field : JsonKeyringField)
  | valueCannotBeAnObject
  | unexpectedField (fname : List UInt8) (providerType : ProviderType)
  | unexpectedBoolean (field : JsonKeyringField)
  | unexpectedScalarField (field : JsonKeyringField)
  deriving DecidableEq, Repr

/-! ### The callbacks -/

def jsonKringArrayStart (parse : JsonKeyringState) :
    Except KeyringOptionsError JsonKeyringState :=
  match parse.state with
  | .expectTopLevelObject => .error .optionsMustBeAnObject
  | .expectField => .error (.unexpectedArray parse.currentField)

def jsonKringObjectStart (parse : JsonKeyringState) :
    Except KeyringOptionsError JsonKeyringState :=
  match parse.state with
  | .expectTopLevelObject => .ok { parse with state := .expectField }
  | .expectField => .error .valueCannotBeAnObject

/-- The field of this name. -/
def jkFieldNamed (providerType : ProviderType) (fname : List UInt8) : Option JsonKeyringField :=
  (jkFields providerType).find? fun field => jkFieldNames field = fname

def jsonKringObjectFieldStart (parse : JsonKeyringState) (fname : List UInt8) :
    Except KeyringOptionsError JsonKeyringState :=
  match parse.state, parse.providerType with
  | .expectTopLevelObject, _ => .error .invalidSemanticState
  | .expectField, .unknown => .error .invalidToken
  | .expectField, providerType =>
    match jkFieldNamed providerType fname with
    | some field => .ok { parse with currentField := field }
    | none => .error (.unexpectedField fname providerType)

def jsonKringAssignScalar (parse : JsonKeyringState) (field : JsonKeyringField)
    (value : Option (List UInt8)) : Except KeyringOptionsError JsonKeyringState :=
  match field with
  | .unknown => .error (.unexpectedScalarField field)
  | field => .ok { parse with providerOpts := Function.update parse.providerOpts field value }

def jsonKringScalar (parse : JsonKeyringState) (token : Scalar) :
    Except KeyringOptionsError JsonKeyringState :=
  if parse.state = .expectTopLevelObject then .error .optionsMustBeAnObject
  else
    match token with
    | .str value => jsonKringAssignScalar parse parse.currentField (some value)
    | .num value => jsonKringAssignScalar parse parse.currentField (some value)
    | .bool _ => .error (.unexpectedBoolean parse.currentField)
    | .null => jsonKringAssignScalar parse parse.currentField none

def semAction (parse : JsonKeyringState) : Event → Except KeyringOptionsError JsonKeyringState
  | .objectStart => jsonKringObjectStart parse
  | .arrayStart => jsonKringArrayStart parse
  | .fieldStart fname => jsonKringObjectFieldStart parse fname
  | .scalar token => jsonKringScalar parse token

/-- `ParseKeyringJSONOptions`, with a parser that reports what it met if the text is JSON, on a
structure without values. If the text is not JSON, a callback may have raised an error of its own
before that was noticed. -/
def parseKeyringJSONOptions (parser : List UInt8 → Option (List Event))
    (providerType : ProviderType) (inBuf : List UInt8) : Except KeyringOptionsError ProviderOpts :=
  match parser inBuf with
  | none => .error .parsingFailed
  | some events =>
    (events.foldlM semAction ⟨providerType, fun _ => none, .unknown, .expectTopLevelObject⟩).map
      (·.providerOpts)

/-- `ParseKeyringJSONOptions` on a structure that may have values already. -/
def parseKeyringJSONOptionsInto (parser : List UInt8 → Option (List Event))
    (providerType : ProviderType) (outOpts : ProviderOpts) (inBuf : List UInt8) :
    Except KeyringOptionsError ProviderOpts :=
  match parser inBuf with
  | none => .error .parsingFailed
  | some events =>
    (events.foldlM semAction ⟨providerType, outOpts, .unknown, .expectTopLevelObject⟩).map
      (·.providerOpts)

theorem parseKeyringJSONOptions_eq_into (parser : List UInt8 → Option (List Event))
    (providerType : ProviderType) (inBuf : List UInt8) :
    parseKeyringJSONOptions parser providerType inBuf =
      parseKeyringJSONOptionsInto parser providerType (fun _ => none) inBuf := rfl

/-! ### What a text says about the fields -/

/-- What is written into a field. -/
def scalarText : Scalar → Option (List UInt8)
  | .str s => some s
  | .num s => some s
  | .bool _ => none
  | .null => none

/-- Writing a member into the field of its name. -/
def assignMember (providerType : ProviderType) (opts : ProviderOpts)
    (m : List UInt8 × Scalar) : ProviderOpts :=
  match jkFieldNamed providerType m.1 with
  | some field => Function.update opts field (scalarText m.2)
  | none => opts

def assignMembers (providerType : ProviderType) (opts : ProviderOpts)
    (ms : List (List UInt8 × Scalar)) : ProviderOpts :=
  ms.foldl (assignMember providerType) opts

/-- A member the callbacks accept. -/
structure Acceptable (providerType : ProviderType) (m : List UInt8 × Scalar) : Prop where
  named : (jkFieldNamed providerType m.1).isSome
  notBool : ∀ b, m.2 ≠ .bool b

/-- The text is an object of such members. -/
def IsOptions (providerType : ProviderType) (text : List UInt8) (ms : List (List UInt8 × Scalar)) :
    Prop :=
  Lexes text (Value.object (flat ms)).tokens ∧ ∀ m ∈ ms, Acceptable providerType m

/-- In a list where no key comes twice, the element found by its key is the one with that key. -/
theorem find?_key_eq_some {α β : Type} [DecidableEq β] {key : α → β} {l : List α}
    (hkeys : (l.map key).Nodup) {a : α} {b : β} :
    (l.find? fun a => key a = b) = some a ↔ a ∈ l ∧ key a = b := by
  have hfound : ∀ {a'}, (l.find? fun a => key a = b) = some a' → a' ∈ l ∧ key a' = b :=
    fun h => ⟨List.mem_of_find?_eq_some h, by simpa using List.find?_some h⟩
  refine ⟨hfound, fun ⟨hmem, hkey⟩ => ?_⟩
  have hsome : (l.find? fun a => key a = b).isSome := by
    rw [List.find?_isSome]
    exact ⟨a, hmem, by simpa using hkey⟩
  obtain ⟨a', ha'⟩ := Option.isSome_iff_exists.1 hsome
  obtain ⟨hmem', hkey'⟩ := hfound ha'
  rw [ha', List.inj_on_of_nodup_map hkeys hmem' hmem (hkey'.trans hkey.symm)]

theorem jkFieldNames_nodup (providerType : ProviderType) :
    ((jkFields providerType).map jkFieldNames).Nodup := by
  cases providerType <;> decide

theorem jkFieldNamed_eq_some {providerType : ProviderType} {fname : List UInt8}
    {field : JsonKeyringField} : jkFieldNamed providerType fname = some field ↔
      field ∈ jkFields providerType ∧ jkFieldNames field = fname :=
  find?_key_eq_some (jkFieldNames_nodup providerType)

theorem jkFieldNamed_ne_unknown {providerType : ProviderType} {fname : List UInt8}
    {field : JsonKeyringField} (h : jkFieldNamed providerType fname = some field) :
    field ≠ .unknown := by
  obtain ⟨hmem, -⟩ := jkFieldNamed_eq_some.1 h
  rintro rfl
  cases providerType <;> simp [jkFields] at hmem

/-! ### The callbacks on a text -/

section Run

variable {providerType : ProviderType} {st st' : JsonKeyringState}

theorem except_bind_ok {ε α β : Type} {x : Except ε α} {f : α → Except ε β} {b : β} :
    (x >>= f) = .ok b ↔ ∃ a, x = .ok a ∧ f a = .ok b := by
  cases x <;> simp [bind, Except.bind]

theorem jsonKringObjectFieldStart_ok {fname : List UInt8} (hst : st.state = .expectField) :
    jsonKringObjectFieldStart st fname = .ok st' ↔
      ∃ field, jkFieldNamed st.providerType fname = some field ∧
        st' = { st with currentField := field } := by
  unfold jsonKringObjectFieldStart
  rw [hst]
  cases st.providerType with
  | unknown => simp [jkFieldNamed, jkFields]
  | _ =>
      simp only
      split
      · rename_i field hfield
        simp [hfield, eq_comm]
      · rename_i hfield
        simp [hfield]

theorem jsonKringScalar_ok {token : Scalar} (hst : st.state = .expectField)
    (hfield : st.currentField ≠ .unknown) :
    jsonKringScalar st token = .ok st' ↔ (∀ b, token ≠ .bool b) ∧
      st' = { st with
        providerOpts := Function.update st.providerOpts st.currentField (scalarText token) } := by
  have hassign : ∀ value, jsonKringAssignScalar st st.currentField value =
      .ok { st with providerOpts := Function.update st.providerOpts st.currentField value } := by
    intro value
    unfold jsonKringAssignScalar
    split
    · rename_i h
      exact absurd h hfield
    · rfl
  unfold jsonKringScalar
  rw [if_neg (by simp [hst])]
  cases token <;> simp [hassign, scalarText, eq_comm]

/-- A member with a scalar is accepted if it is acceptable, and then it is written. -/
theorem member_ok {name : List UInt8} {s : Scalar} (hst : st.state = .expectField) :
    [Event.fieldStart name, .scalar s].foldlM semAction st = .ok st' ↔
      Acceptable st.providerType (name, s) ∧ ∃ field,
        jkFieldNamed st.providerType name = some field ∧
        st' = { st with
          currentField := field
          providerOpts := assignMember st.providerType st.providerOpts (name, s) } := by
  have hfold : [Event.fieldStart name, .scalar s].foldlM semAction st = .ok st' ↔
      ∃ st₁, jsonKringObjectFieldStart st name = .ok st₁ ∧ jsonKringScalar st₁ s = .ok st' := by
    rw [List.foldlM_cons, except_bind_ok]
    simp [semAction]
  rw [hfold]
  constructor
  · rintro ⟨st₁, h₁, h₂⟩
    obtain ⟨field, hfield, rfl⟩ := (jsonKringObjectFieldStart_ok hst).1 h₁
    have hne := jkFieldNamed_ne_unknown hfield
    obtain ⟨hbool, rfl⟩ := (jsonKringScalar_ok (by exact hst) (by exact hne)).1 h₂
    exact ⟨⟨by simp [hfield], hbool⟩, field, hfield, by simp [assignMember, hfield]⟩
  · rintro ⟨hacc, field, hfield, rfl⟩
    have hne := jkFieldNamed_ne_unknown hfield
    refine ⟨_, (jsonKringObjectFieldStart_ok hst).2 ⟨field, hfield, rfl⟩,
      (jsonKringScalar_ok (by exact hst) (by exact hne)).2 ⟨hacc.notBool, ?_⟩⟩
    simp [assignMember, hfield]

/-- A value that is accepted after the name of a member is a scalar. -/
theorem value_ok {name : List UInt8} {v : Value} {es : List Event} (hst : st.state = .expectField)
    (h : (Event.fieldStart name :: (v.events ++ es)).foldlM semAction st = .ok st') :
    ∃ s, v = .scalar s := by
  rw [List.foldlM_cons, except_bind_ok] at h
  obtain ⟨st₁, h₁, h⟩ := h
  obtain ⟨field, -, rfl⟩ := (jsonKringObjectFieldStart_ok hst).1 h₁
  cases v with
  | scalar s => exact ⟨s, rfl⟩
  | array vs =>
      rw [Value.events, List.cons_append, List.foldlM_cons, except_bind_ok] at h
      obtain ⟨st₂, h₂, -⟩ := h
      simp [semAction, jsonKringArrayStart, hst] at h₂
  | object ms =>
      rw [Value.events, List.cons_append, List.foldlM_cons, except_bind_ok] at h
      obtain ⟨st₂, h₂, -⟩ := h
      simp [semAction, jsonKringObjectStart, hst] at h₂

/-- The members that are accepted are scalars, and they are written in their order. -/
theorem members_ok (ms : Members) {st : JsonKeyringState} (hst : st.state = .expectField)
    (h : ms.events.foldlM semAction st = .ok st') :
    ∃ fs, ms = flat fs ∧ (∀ m ∈ fs, Acceptable st.providerType m) ∧
      st'.providerOpts = assignMembers st.providerType st.providerOpts fs := by
  match ms with
  | .nil =>
      obtain rfl : st = st' := by simpa [Members.events, pure, Except.pure] using h
      exact ⟨[], rfl, by simp, rfl⟩
  | .cons name v ms =>
      rw [Members.events] at h
      obtain ⟨s, rfl⟩ := value_ok hst h
      rw [Value.events, ← List.cons_append, List.foldlM_append, except_bind_ok] at h
      obtain ⟨st₁, h₁, h⟩ := h
      obtain ⟨hacc, field, -, rfl⟩ := (member_ok hst).1 h₁
      obtain ⟨fs, rfl, hall, hopts⟩ := members_ok ms (by exact hst) h
      exact ⟨(name, s) :: fs, rfl, List.forall_mem_cons.2 ⟨hacc, hall⟩, hopts⟩

/-- Acceptable members are accepted. -/
theorem flat_ok {fs : List (List UInt8 × Scalar)} (hst : st.state = .expectField)
    (hall : ∀ m ∈ fs, Acceptable st.providerType m) :
    ∃ st', (flat fs).events.foldlM semAction st = .ok st' ∧
      st'.providerOpts = assignMembers st.providerType st.providerOpts fs := by
  induction fs generalizing st with
  | nil => exact ⟨st, rfl, rfl⟩
  | cons m fs ih =>
      obtain ⟨name, s⟩ := m
      obtain ⟨hacc, hall⟩ := List.forall_mem_cons.1 hall
      obtain ⟨field, hfield⟩ := Option.isSome_iff_exists.1 hacc.named
      have hmember := (member_ok hst).2 ⟨hacc, field, hfield, rfl⟩
      obtain ⟨st', hst', hopts⟩ := @ih { st with
        currentField := field
        providerOpts := assignMember st.providerType st.providerOpts (name, s) } hst hall
      refine ⟨st', ?_, hopts⟩
      rw [flat, Members.events, Value.events, ← List.cons_append, List.foldlM_append,
        except_bind_ok]
      exact ⟨_, hmember, hst'⟩

/-- The value that is accepted as a whole is an object. -/
theorem document_ok {v : Value} (hst : st.state = .expectTopLevelObject)
    (h : v.events.foldlM semAction st = .ok st') :
    ∃ fs, v = .object (flat fs) ∧ (∀ m ∈ fs, Acceptable st.providerType m) ∧
      st'.providerOpts = assignMembers st.providerType st.providerOpts fs := by
  cases v with
  | scalar s =>
      rw [Value.events, List.foldlM_cons, except_bind_ok] at h
      obtain ⟨st₁, h₁, -⟩ := h
      simp [semAction, jsonKringScalar, hst] at h₁
  | array vs =>
      rw [Value.events, List.foldlM_cons, except_bind_ok] at h
      obtain ⟨st₁, h₁, -⟩ := h
      simp [semAction, jsonKringArrayStart, hst] at h₁
  | object ms =>
      rw [Value.events, List.foldlM_cons, except_bind_ok] at h
      obtain ⟨st₁, h₁, h⟩ := h
      obtain rfl : { st with state := .expectField } = st₁ := by
        simpa [semAction, jsonKringObjectStart, hst] using h₁
      obtain ⟨fs, rfl, hfs⟩ := members_ok ms (by rfl) h
      exact ⟨fs, rfl, hfs⟩

end Run

theorem parseKeyringJSONOptionsInto_ok_iff {parser : List UInt8 → Option (List Event)}
    (hparser : Standard parser) {providerType : ProviderType} {text : List UInt8}
    {outOpts opts : ProviderOpts} :
    parseKeyringJSONOptionsInto parser providerType outOpts text = .ok opts ↔
      ∃ ms, IsOptions providerType text ms ∧ opts = assignMembers providerType outOpts ms := by
  unfold parseKeyringJSONOptionsInto
  constructor
  · intro h
    split at h
    · cases h
    · rename_i events hevents
      obtain ⟨v, hv, rfl⟩ := hparser.sound hevents
      rcases hfold : v.events.foldlM semAction
        ⟨providerType, outOpts, .unknown, .expectTopLevelObject⟩ with e | st
      · simp [hfold, Except.map] at h
      · obtain ⟨ms, rfl, hall, hopts⟩ := document_ok rfl hfold
        refine ⟨ms, ⟨hv, hall⟩, ?_⟩
        rw [hfold] at h
        exact (Except.ok.inj h).symm.trans hopts
  · rintro ⟨ms, ⟨hlexes, hall⟩, rfl⟩
    obtain ⟨st, hst, hopts⟩ := @flat_ok ⟨providerType, outOpts, .unknown, .expectField⟩ ms rfl hall
    rw [hparser.complete hlexes]
    show Except.map _ ((flat ms).events.foldlM semAction _) = _
    rw [hst, Except.map, hopts]

/-- The options are read without an error when the text is an object of acceptable members, and these
are what is read. -/
theorem parseKeyringJSONOptions_ok_iff {parser : List UInt8 → Option (List Event)}
    (hparser : Standard parser) {providerType : ProviderType} {text : List UInt8}
    {opts : ProviderOpts} : parseKeyringJSONOptions parser providerType text = .ok opts ↔
      ∃ ms, IsOptions providerType text ms ∧
        opts = assignMembers providerType (fun _ => none) ms := by
  rw [parseKeyringJSONOptions_eq_into]
  exact parseKeyringJSONOptionsInto_ok_iff hparser

/-! ### What the members leave in a field -/

section Fields

variable {providerType : ProviderType} {opts : ProviderOpts} {ms : List (List UInt8 × Scalar)}
  {field : JsonKeyringField}

theorem assignMember_named {m : List UInt8 × Scalar}
    (h : jkFieldNamed providerType m.1 = some field) :
    assignMember providerType opts m field = scalarText m.2 := by
  simp [assignMember, h]

theorem assignMember_not_named {m : List UInt8 × Scalar}
    (h : jkFieldNamed providerType m.1 ≠ some field) :
    assignMember providerType opts m field = opts field := by
  rcases hnamed : jkFieldNamed providerType m.1 with _ | field'
  · simp [assignMember, hnamed]
  · have hne : field ≠ field' := fun heq => h (heq ▸ hnamed)
    simp [assignMember, hnamed, hne]

/-- What is in a field was there or comes from a member of its name. -/
theorem assignMembers_eq_some {value : List UInt8}
    (h : assignMembers providerType opts ms field = some value) :
    opts field = some value ∨
      ∃ m ∈ ms, jkFieldNamed providerType m.1 = some field ∧ scalarText m.2 = some value := by
  induction ms generalizing opts with
  | nil => exact .inl h
  | cons m ms ih =>
      obtain h | ⟨m', hm', hfield⟩ := ih h
      · by_cases hfield : jkFieldNamed providerType m.1 = some field
        · rw [assignMember_named hfield] at h
          exact .inr ⟨m, by simp, hfield, h⟩
        · rw [assignMember_not_named hfield] at h
          exact .inl h
      · exact .inr ⟨m', by simp [hm'], hfield⟩

/-- A field that no member names keeps what it has. -/
theorem assignMembers_of_not_named
    (h : ∀ m ∈ ms, jkFieldNamed providerType m.1 ≠ some field) :
    assignMembers providerType opts ms field = opts field := by
  induction ms generalizing opts with
  | nil => rfl
  | cons m ms ih =>
      obtain ⟨hm, hms⟩ := List.forall_mem_cons.1 h
      exact (ih hms).trans (assignMember_not_named hm)

/-- If no name comes twice, every member is kept. -/
theorem assignMembers_of_mem (hnames : (ms.map (·.1)).Nodup) {m : List UInt8 × Scalar}
    (hm : m ∈ ms) (hfield : jkFieldNamed providerType m.1 = some field) :
    assignMembers providerType opts ms field = scalarText m.2 := by
  induction ms generalizing opts with
  | nil => simp at hm
  | cons m' ms ih =>
      rw [List.map_cons, List.nodup_cons] at hnames
      obtain rfl | hm := List.mem_cons.1 hm
      · have hothers : ∀ m' ∈ ms, jkFieldNamed providerType m'.1 ≠ some field := by
          intro m' hm' hfield'
          have hname := (jkFieldNamed_eq_some.1 hfield).2.symm.trans (jkFieldNamed_eq_some.1 hfield').2
          exact hnames.1 (hname ▸ List.mem_map_of_mem hm')
        exact (assignMembers_of_not_named hothers).trans (assignMember_named hfield)
      · exact ih hnames.2 hm

/-- The value of the last member of this name. -/
def lastNamed (name : List UInt8) (ms : List (List UInt8 × Scalar)) : Option Scalar :=
  (ms.reverse.find? fun m => m.1 = name).map (·.2)

/-- The last member of its name decides what a field has. -/
theorem assignMembers_eq_lastNamed (hfield : field ∈ jkFields providerType) :
    assignMembers providerType opts ms field =
      (lastNamed (jkFieldNames field) ms).elim (opts field) scalarText := by
  induction ms using List.reverseRecOn with
  | nil => rfl
  | append_singleton ms m ih =>
      have hsnoc : assignMembers providerType opts (ms ++ [m]) field =
          assignMember providerType (assignMembers providerType opts ms) m field := by
        rw [assignMembers, List.foldl_append]
        rfl
      rw [hsnoc, lastNamed, List.reverse_append, List.reverse_singleton, List.singleton_append]
      by_cases hname : m.1 = jkFieldNames field
      · rw [List.find?_cons_of_pos (by simpa using hname),
          assignMember_named (jkFieldNamed_eq_some.2 ⟨hfield, hname.symm⟩)]
        rfl
      · rw [List.find?_cons_of_neg (by simpa using hname),
          assignMember_not_named fun h => hname (jkFieldNamed_eq_some.1 h).2.symm]
        exact ih

/-- Fields of other providers stay as they are. -/
theorem assignMembers_of_not_mem (hfield : field ∉ jkFields providerType) :
    assignMembers providerType opts ms field = opts field :=
  assignMembers_of_not_named fun _ _ h => hfield (jkFieldNamed_eq_some.1 h).1

theorem acceptable_iff {m : List UInt8 × Scalar} : Acceptable providerType m ↔
    (∃ field ∈ jkFields providerType, jkFieldNames field = m.1) ∧
      ((∃ s, m.2 = .str s) ∨ (∃ s, m.2 = .num s) ∨ m.2 = .null) := by
  have hnamed : (jkFieldNamed providerType m.1).isSome ↔
      ∃ field ∈ jkFields providerType, jkFieldNames field = m.1 := by
    simp only [Option.isSome_iff_exists, jkFieldNamed_eq_some]
  have hscalar : (∀ b, m.2 ≠ .bool b) ↔
      (∃ s, m.2 = .str s) ∨ (∃ s, m.2 = .num s) ∨ m.2 = .null := by
    cases m.2 <;> simp
  exact ⟨fun h => ⟨hnamed.1 h.named, hscalar.1 h.notBool⟩, fun h => ⟨hnamed.2 h.1, hscalar.2 h.2⟩⟩

end Fields

/-- The options are accepted exactly when the text is an object whose members are fields of the
provider and strings, numbers or null. Then a field of the provider has the value of the last member
of its name, nothing if that is null, and what it had, which is nothing in a new structure, if there is
no such member. Fields of other providers are not touched. -/
theorem parse_options_exact {parser : List UInt8 → Option (List Event)} (hparser : Standard parser)
    (providerType : ProviderType) (outOpts : ProviderOpts) (text : List UInt8) :
    ((∃ opts, parseKeyringJSONOptionsInto parser providerType outOpts text = .ok opts) ↔
      ∃ ms, Lexes text (Value.object (flat ms)).tokens ∧ ∀ m ∈ ms,
        (∃ field ∈ jkFields providerType, jkFieldNames field = m.1) ∧
          ((∃ s, m.2 = .str s) ∨ (∃ s, m.2 = .num s) ∨ m.2 = .null)) ∧
    ∀ opts ms, parseKeyringJSONOptionsInto parser providerType outOpts text = .ok opts →
      Lexes text (Value.object (flat ms)).tokens →
      (∀ field ∈ jkFields providerType,
        opts field = (lastNamed (jkFieldNames field) ms).elim (outOpts field) scalarText) ∧
      ∀ field, field ∉ jkFields providerType → opts field = outOpts field := by
  refine ⟨⟨?_, ?_⟩, ?_⟩
  · rintro ⟨opts, hread⟩
    obtain ⟨ms, ⟨hlexes, hall⟩, -⟩ := (parseKeyringJSONOptionsInto_ok_iff hparser).1 hread
    exact ⟨ms, hlexes, fun m hm => acceptable_iff.1 (hall m hm)⟩
  · rintro ⟨ms, hlexes, hall⟩
    have hoptions : IsOptions providerType text ms :=
      ⟨hlexes, fun m hm => acceptable_iff.2 (hall m hm)⟩
    exact ⟨_, (parseKeyringJSONOptionsInto_ok_iff hparser).2 ⟨ms, hoptions, rfl⟩⟩
  · intro opts ms hread hlexes
    obtain ⟨ms', ⟨hlexes', -⟩, rfl⟩ := (parseKeyringJSONOptionsInto_ok_iff hparser).1 hread
    have hvalue := hlexes.value_unique hlexes'
    simp only [Value.object.injEq] at hvalue
    obtain rfl := flat_inj hvalue
    exact ⟨fun field hfield => assignMembers_eq_lastNamed hfield,
      fun field hfield => assignMembers_of_not_mem hfield⟩

/-- The empty object has no member that could be wrong. -/
theorem parse_options_empty_object :
    ∃ opts, parseKeyringJSONOptionsInto Lib.Json.parser .file (fun _ => none) (ascii "\x7b\x7d") =
      .ok opts := by
  refine (parse_options_exact parser_standard .file (fun _ => none) _).1.2 ⟨[], ?_, by simp⟩
  exact .punct (by decide) (.punct (by decide) .nil)

end OpenPgTde
