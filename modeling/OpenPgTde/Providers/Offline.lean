import OpenPgTde.Keyring.Options
import OpenPgTde.Providers.Specs

/-!
Changing a key provider while the server is down (`bin/open_pg_tde_change_key_provider.c`).

The tool puts the options of the new provider together from its arguments and overwrites the record of
the provider in its file. The values go into the text as they are: quotes are put around a value
unless it starts with a brace or a quote itself, and nothing in it is escaped. The comment there
leaves it to the reader of the file to reject what this makes of an odd value. The reader does reject
what is not JSON, but a value with a quote or a backslash can also make an object that says something
else.

Exactly the arguments without quotes and backslashes are safe: with these, what is read without an
error is what was given. With any other, what is read without an error is not
(`change_key_provider_reads_back_iff`). The reason for the second is that the text has no more
backslashes and letters `u` than the names and values it was made of, so if those are all to be read
from it, nothing is left to escape a quote or a backslash with.
-/

namespace OpenPgTde

open Lib.Json

/-! ### The options -/

/-- `json_append`. What does not fit is an error, so the text that was cut off is not used. -/
def jsonAppend (bufsize : ℕ) (buffer src : List UInt8) : Option (List UInt8) :=
  if (buffer ++ src).length < bufsize then some (buffer ++ src) else none

def jsonAppendIf (cond : Bool) (bufsize : ℕ) (buffer src : List UInt8) : Option (List UInt8) :=
  if cond then jsonAppend bufsize buffer src else some buffer

/-- A string that is neither a null pointer nor starts with `{` or `"` is put into quotes. -/
def addQuotes : Option (List UInt8) → Bool
  | none => true
  | some value => value.head? ≠ some 123 ∧ value.head? ≠ some 34

/-- The loop of `build_json` from the pair `i` on. -/
def buildJsonLoop (bufsize : ℕ) :
    ℕ → List UInt8 → List (List UInt8 × Option (List UInt8)) → Option (List UInt8)
  | _, buffer, [] => some buffer
  | i, buffer, (key, value) :: args => do
    let buffer ← jsonAppendIf (i ≠ 0) bufsize buffer [44]
    let buffer ← jsonAppend bufsize buffer [34]
    let buffer ← jsonAppend bufsize buffer key
    let buffer ← jsonAppend bufsize buffer [34, 58]
    let buffer ← jsonAppendIf (addQuotes value) bufsize buffer [34]
    let buffer ← jsonAppendIf value.isSome bufsize buffer (value.getD [])
    let buffer ← jsonAppendIf (addQuotes value) bufsize buffer [34]
    buildJsonLoop bufsize (i + 1) buffer args

/-- `build_json`. -/
def buildJson (bufsize : ℕ) (args : List (List UInt8 × Option (List UInt8))) :
    Option (List UInt8) := do
  let buffer ← jsonAppend bufsize [] [123]
  let buffer ← buildJsonLoop bufsize 0 buffer args
  jsonAppend bufsize buffer [125]

/-! ### The tool -/

inductive ChangeError
  | wrongNumberOfArguments (newProviderType : List UInt8)
  | configurationTooLong
  | unknownProviderType (newProviderType : List UInt8)
  | pgControlCrc
  | clusterMustBeShutDown
  | providerNotFound (providerName : List UInt8) (dbOid : Oid)
  deriving DecidableEq, Repr

inductive DBState
  | startup
  | shutdowned
  | shutdownedInRecovery
  | shutdowning
  | inCrashRecovery
  | inArchiveRecovery
  | inProduction
  deriving DecidableEq, Repr

/-- What `get_controlfile` tells about the cluster. -/
structure ControlFileData where
  crcOk : Bool
  state : DBState

/-- The fields and their values for the arguments behind the type of the provider. -/
def providerArguments (newProviderType : List UInt8) (argv : List (List UInt8)) :
    Except ChangeError (List (List UInt8 × List UInt8)) :=
  if newProviderType = ascii "file" then
    match argv with
    | [path] => .ok [(ascii "path", path)]
    | _ => .error (.wrongNumberOfArguments newProviderType)
  else if newProviderType = ascii "openbao" then
    match argv with
    | [url, mountPath, tokenPath] =>
      .ok [(ascii "url", url), (ascii "mountPath", mountPath), (ascii "tokenPath", tokenPath),
        (ascii "caPath", [])]
    | [url, mountPath, tokenPath, caPath] =>
      .ok [(ascii "url", url), (ascii "mountPath", mountPath), (ascii "tokenPath", tokenPath),
        (ascii "caPath", caPath)]
    | _ => .error (.wrongNumberOfArguments newProviderType)
  else if newProviderType = ascii "kmip" then
    match argv with
    | [host, port, certPath, keyPath] =>
      .ok [(ascii "host", host), (ascii "port", port), (ascii "certPath", certPath),
        (ascii "keyPath", keyPath), (ascii "caPath", [])]
    | [host, port, certPath, keyPath, caPath] =>
      .ok [(ascii "host", host), (ascii "port", port), (ascii "certPath", certPath),
        (ascii "keyPath", keyPath), (ascii "caPath", caPath)]
    | _ => .error (.wrongNumberOfArguments newProviderType)
  else .error (.unknownProviderType newProviderType)

/-- `main`, after the options of the command line: the provider files it leaves. -/
def openPgTdeChangeKeyProvider (controlfile : ControlFileData)
    (files : Oid → List KeyringProviderRecord) (dbOid : Oid)
    (providerName newProviderType : List UInt8) (argv : List (List UInt8)) :
    Except ChangeError (Oid → List KeyringProviderRecord) := do
  let args ← providerArguments newProviderType argv
  match buildJson maxKeyringOptionLen (args.map fun a => (a.1, some a.2)) with
  | none => .error .configurationTooLong
  | some json =>
    if ¬ controlfile.crcOk then .error .pgControlCrc
    else if controlfile.state ≠ .shutdowned ∧ controlfile.state ≠ .shutdownedInRecovery then
      .error .clusterMustBeShutDown
    else
      match getKeyringInfoFileRecordByName providerName (files dbOid) with
      | none => .error (.providerNotFound providerName dbOid)
      | some (offset, record) =>
        -- `strlcpy` into the array of the record
        let record := { record with
          providerType := getKeyringProviderFromTypename newProviderType
          options := json.take (maxKeyringOptionLen - 1) }
        .ok (Function.update files dbOid ((files dbOid).set offset record))

/-! ### What is read back -/

/-- What was given for a field of the provider. -/
def givenValue (providerType : ProviderType) (args : List (List UInt8 × List UInt8)) : ProviderOpts :=
  fun field =>
    if field ∈ jkFields providerType then
      (args.find? fun a => a.1 = jkFieldNames field).map (·.2)
    else none

/-- Reading the options of a record raises an error or gives every field what was given for it. -/
def KeepsArguments (parser : List UInt8 → Option (List Event)) (record : KeyringProviderRecord)
    (args : List (List UInt8 × List UInt8)) : Prop :=
  match parseKeyringJSONOptions parser record.providerType record.options with
  | .error _ => True
  | .ok opts => opts = givenValue record.providerType args

/-! ### The text of the arguments -/

def quoted (value : List UInt8) : List UInt8 :=
  if addQuotes (some value) then 34 :: value ++ [34] else value

def separatorText : List (List UInt8 × List UInt8) → List UInt8
  | [] => []
  | _ :: _ => [44]

def membersText : List (List UInt8 × List UInt8) → List UInt8
  | [] => []
  | (key, value) :: args =>
    34 :: key ++ 34 :: 58 :: (quoted value ++ (separatorText args ++ membersText args))

/-- The options that are put together from these arguments. -/
def optionsText (args : List (List UInt8 × List UInt8)) : List UInt8 :=
  123 :: membersText args ++ [125]

theorem jsonAppend_eq_some {bufsize : ℕ} {buffer src buffer' : List UInt8} :
    jsonAppend bufsize buffer src = some buffer' ↔
      buffer' = buffer ++ src ∧ (buffer ++ src).length < bufsize := by
  unfold jsonAppend
  split <;> simp_all [eq_comm]

theorem jsonAppendIf_eq_some {cond : Bool} {bufsize : ℕ} {buffer src buffer' : List UInt8}
    (h : jsonAppendIf cond bufsize buffer src = some buffer') :
    buffer' = buffer ++ if cond then src else [] := by
  cases cond with
  | true => exact (jsonAppend_eq_some.1 h).1
  | false => simpa [jsonAppendIf, eq_comm] using h

theorem buildJsonLoop_eq {bufsize i : ℕ} {buffer buffer' : List UInt8}
    {args : List (List UInt8 × List UInt8)}
    (h : buildJsonLoop bufsize i buffer (args.map fun a => (a.1, some a.2)) = some buffer') :
    buffer' = buffer ++ ((if i = 0 then [] else separatorText args) ++ membersText args) := by
  induction args generalizing i buffer with
  | nil =>
      obtain rfl := Option.some.inj h
      simp [separatorText, membersText]
  | cons a args ih =>
      obtain ⟨key, value⟩ := a
      simp only [List.map_cons, buildJsonLoop, Option.bind_eq_bind, Option.bind_eq_some_iff] at h
      obtain ⟨b₁, h₁, b₂, h₂, b₃, h₃, b₄, h₄, b₅, h₅, b₆, h₆, b₇, h₇, h⟩ := h
      obtain rfl := ih h
      rw [jsonAppendIf_eq_some h₇, jsonAppendIf_eq_some h₆, jsonAppendIf_eq_some h₅,
        (jsonAppend_eq_some.1 h₄).1, (jsonAppend_eq_some.1 h₃).1, (jsonAppend_eq_some.1 h₂).1,
        jsonAppendIf_eq_some h₁]
      rcases Nat.eq_zero_or_pos i with rfl | hi
      · by_cases hquotes : addQuotes (some value) <;>
          simp [membersText, separatorText, quoted, hquotes]
      · by_cases hquotes : addQuotes (some value) <;>
          simp [membersText, separatorText, quoted, hquotes, Nat.ne_of_gt hi]

theorem buildJson_eq {bufsize : ℕ} {args : List (List UInt8 × List UInt8)} {json : List UInt8}
    (h : buildJson bufsize (args.map fun a => (a.1, some a.2)) = some json) :
    json = optionsText args ∧ json.length < bufsize := by
  simp only [buildJson, Option.bind_eq_bind, Option.bind_eq_some_iff] at h
  obtain ⟨b₁, h₁, b₂, h₂, h⟩ := h
  obtain ⟨rfl, hlen⟩ := jsonAppend_eq_some.1 h
  refine ⟨?_, hlen⟩
  rw [buildJsonLoop_eq h₂, (jsonAppend_eq_some.1 h₁).1]
  simp [optionsText]

/-! ### The names of the fields -/

/-- The fields of the tool, in its order. -/
def argumentNames : ProviderType → List (List UInt8)
  | .unknown => []
  | .file => [ascii "path"]
  | .openbao => [ascii "url", ascii "mountPath", ascii "tokenPath", ascii "caPath"]
  | .kmip => [ascii "host", ascii "port", ascii "certPath", ascii "keyPath", ascii "caPath"]

theorem providerArguments_names {newProviderType : List UInt8} {argv : List (List UInt8)}
    {args : List (List UInt8 × List UInt8)} (h : providerArguments newProviderType argv = .ok args) :
    getKeyringProviderFromTypename newProviderType ≠ .unknown ∧
      args.map (·.1) = argumentNames (getKeyringProviderFromTypename newProviderType) := by
  have hfile : getKeyringProviderFromTypename (ascii "file") = .file := by decide
  have hopenbao : getKeyringProviderFromTypename (ascii "openbao") = .openbao := by decide
  have hkmip : getKeyringProviderFromTypename (ascii "kmip") = .kmip := by decide
  unfold providerArguments at h
  split at h
  · rename_i htype
    rw [htype, hfile]
    split at h <;> cases h
    simp [argumentNames]
  split at h
  · rename_i htype
    rw [htype, hopenbao]
    split at h <;> cases h <;> simp [argumentNames]
  split at h
  · rename_i htype
    rw [htype, hkmip]
    split at h <;> cases h <;> simp [argumentNames]
  · cases h

theorem argumentNames_nodup (providerType : ProviderType) : (argumentNames providerType).Nodup := by
  cases providerType <;> decide

theorem argumentNames_clean (providerType : ProviderType) :
    ∀ name ∈ argumentNames providerType, Clean name := by
  cases providerType <;> decide

theorem argumentNames_field (providerType : ProviderType) :
    ∀ name ∈ argumentNames providerType, ∃ field, jkFieldNamed providerType name = some field := by
  have hsome : ∀ name ∈ argumentNames providerType, (jkFieldNamed providerType name).isSome := by
    cases providerType <;> decide
  exact fun name hname => Option.isSome_iff_exists.1 (hsome name hname)

section Given

variable {providerType : ProviderType} {args : List (List UInt8 × List UInt8)}
  {field : JsonKeyringField}

theorem givenValue_eq_some (hnames : (args.map (·.1)).Nodup) {value : List UInt8} :
    givenValue providerType args field = some value ↔
      ∃ a ∈ args, jkFieldNamed providerType a.1 = some field ∧ a.2 = value := by
  unfold givenValue
  split
  · rename_i hfield
    constructor
    · intro h
      obtain ⟨a, ha, rfl⟩ := Option.map_eq_some_iff.1 h
      obtain ⟨hmem, hname⟩ := (find?_key_eq_some hnames).1 ha
      exact ⟨a, hmem, jkFieldNamed_eq_some.2 ⟨hfield, hname.symm⟩, rfl⟩
    · rintro ⟨a, hmem, ha, rfl⟩
      rw [(find?_key_eq_some hnames).2 ⟨hmem, (jkFieldNamed_eq_some.1 ha).2.symm⟩, Option.map_some]
  · rename_i hfield
    simp [jkFieldNamed_eq_some, hfield]

end Given

/-! ### Clean values are read as they were given -/

/-- The members as strings. -/
def stringMembers (args : List (List UInt8 × List UInt8)) : List (List UInt8 × Scalar) :=
  args.map fun a => (a.1, .str a.2)

/-- A value without quotes and backslashes that a scalar can be read from is that string. -/
theorem value_of_clean {value r : List UInt8} {s : Scalar} {ts : List Token} (hvalue : Clean value)
    (h : Lexes (quoted value ++ r) (.scalar s :: ts)) : s = .str value ∧ Lexes r ts := by
  unfold quoted at h
  split at h
  · obtain ⟨raw, s', r', ts', heq, hs', hts, hr⟩ := Lexes.quote_inv h
    obtain ⟨rfl, rfl⟩ := hs'.eq_of_clean hvalue (by simpa using heq)
    obtain ⟨hs, rfl⟩ := List.cons.inj hts
    exact ⟨Token.scalar.inj hs, hr⟩
  · rename_i hquotes
    obtain ⟨c, value', rfl⟩ : ∃ c value', value = c :: value' := by
      cases value with
      | nil => simp [addQuotes] at hquotes
      | cons c value' => exact ⟨c, value', rfl⟩
    have hc : c = 123 := by
      simpa [addQuotes, (clean_cons.1 hvalue).1] using hquotes
    obtain ⟨ts', hts, -⟩ := Lexes.punct_inv (t := .leftBrace) (by rw [hc]; rfl) h
    cases hts

/-- Behind a member of a text stands what stands behind a member that is read. -/
theorem lexes_members {args : List (List UInt8 × List UInt8)} {ms : List (List UInt8 × Scalar)}
    (h : Lexes (separatorText args ++ (membersText args ++ [125]))
      ((flat ms).separator ++ (flat ms).tokens)) :
    Lexes (membersText args ++ [125]) (flat ms).tokens := by
  cases args with
  | nil =>
      obtain ⟨ts, hts, -⟩ := Lexes.punct_inv (t := .rightBrace) rfl h
      cases ms with
      | nil => exact h
      | cons m ms => simp [flat, Members.separator] at hts
  | cons a args =>
      obtain ⟨ts, hts, hms⟩ := Lexes.punct_inv (t := .comma) rfl h
      cases ms with
      | nil => simp [flat, Members.separator, Members.tokens] at hts
      | cons m ms =>
          obtain ⟨-, rfl⟩ := List.cons.inj hts
          exact hms

/-- A text without quotes and backslashes can only be read as the members it was made of. -/
theorem members_of_clean {args : List (List UInt8 × List UInt8)} {ms : List (List UInt8 × Scalar)}
    (hnames : ∀ a ∈ args, Clean a.1) (hvalues : ∀ a ∈ args, Clean a.2)
    (h : Lexes (membersText args ++ [125]) (flat ms).tokens) : ms = stringMembers args := by
  induction args generalizing ms with
  | nil =>
      obtain ⟨ts, hts, -⟩ := Lexes.punct_inv (t := .rightBrace) rfl h
      cases ms with
      | nil => rfl
      | cons m ms => simp [flat, Members.tokens] at hts
  | cons a args ih =>
      obtain ⟨key, value⟩ := a
      obtain ⟨hkey, hrestNames⟩ := List.forall_mem_cons.1 hnames
      obtain ⟨hvalue, hrestValues⟩ := List.forall_mem_cons.1 hvalues
      simp only [membersText, List.append_assoc, List.cons_append] at h
      obtain ⟨raw, name, r, ts, heq, hname, hts, h⟩ := h.quote_inv
      obtain ⟨rfl, rfl⟩ := hname.eq_of_clean hkey heq
      obtain ⟨ts', rfl, hvalueLexes⟩ := Lexes.punct_inv (t := .colon) rfl h
      cases ms with
      | nil => simp [flat, Members.tokens] at hts
      | cons m ms =>
          obtain ⟨name', s⟩ := m
          simp only [flat, Members.tokens, Value.tokens, List.cons_append, List.nil_append,
            List.cons.injEq, Token.scalar.injEq, Scalar.str.injEq, true_and] at hts
          obtain ⟨rfl, rfl⟩ := hts
          obtain ⟨rfl, hrest⟩ := value_of_clean hvalue hvalueLexes
          rw [ih hrestNames hrestValues (lexes_members hrest), stringMembers, stringMembers,
            List.map_cons]

theorem isOptions_of_clean {providerType : ProviderType} {args : List (List UInt8 × List UInt8)}
    {ms : List (List UInt8 × Scalar)} (hnames : ∀ a ∈ args, Clean a.1)
    (hvalues : ∀ a ∈ args, Clean a.2) (h : IsOptions providerType (optionsText args) ms) :
    ms = stringMembers args := by
  obtain ⟨ts, hts, hlexes⟩ := Lexes.punct_inv (t := .leftBrace) rfl h.1
  obtain ⟨-, rfl⟩ := List.cons.inj hts
  exact members_of_clean hnames hvalues hlexes

/-- What is left in the fields by the members as strings is what was given. -/
theorem assignMembers_stringMembers (providerType : ProviderType)
    {args : List (List UInt8 × List UInt8)} (hnames : (args.map (·.1)).Nodup) :
    assignMembers providerType (fun _ => none) (stringMembers args) =
      givenValue providerType args := by
  have hmembers : ((stringMembers args).map (·.1)).Nodup := by
    rwa [stringMembers, List.map_map]
  funext field
  apply Option.ext
  intro value
  rw [givenValue_eq_some hnames]
  constructor
  · intro h
    obtain h | ⟨m, hm, hfield, htext⟩ := assignMembers_eq_some h
    · cases h
    · obtain ⟨a, ha, rfl⟩ := List.mem_map.1 hm
      exact ⟨a, ha, hfield, Option.some.inj htext⟩
  · rintro ⟨a, ha, hfield, rfl⟩
    exact assignMembers_of_mem hmembers (List.mem_map_of_mem ha) hfield

/-! ### What is read as it was given is clean -/

/-- What the strings of an assignment weigh. -/
def pairWeight (p : List UInt8 × Option (List UInt8)) : ℕ := weight p.1 + (p.2.map weight).getD 0

theorem weight_membersText (args : List (List UInt8 × List UInt8)) :
    weight (membersText args) = ((args.map fun a => (a.1, some a.2)).map pairWeight).sum := by
  have hquoted : ∀ value, weight (quoted value) = weight value := by
    intro value
    unfold quoted
    split <;> simp [weight_cons]
  have hseparator : ∀ args, weight (separatorText args) = 0 := by
    intro args
    cases args <;> rfl
  induction args with
  | nil => rfl
  | cons a args ih =>
      simp only [membersText, List.cons_append, weight_cons, weight_append, hquoted, hseparator, ih,
        List.map_cons, List.sum_cons, pairWeight, Option.map_some, Option.getD_some]
      simp
      omega

theorem tokensWeight_flat (ms : List (List UInt8 × Scalar)) :
    tokensWeight (flat ms).tokens =
      ((ms.map fun m => (m.1, scalarText m.2)).map pairWeight).sum := by
  have hseparator : ∀ ms, tokensWeight (flat ms).separator = 0 := by
    intro ms
    cases ms <;> rfl
  have hscalar : ∀ s : Scalar, s.weight = ((scalarText s).map weight).getD 0 := by
    intro s
    cases s <;> rfl
  induction ms with
  | nil => rfl
  | cons m ms ih =>
      simp only [flat, Members.tokens, Value.tokens, tokensWeight_cons, tokensWeight_append,
        tokensWeight_nil, hseparator, ih, List.map_cons, List.sum_cons, pairWeight, Token.weight,
        hscalar]
      simp [scalarText]
      omega

theorem mem_tokens_flat {ms : List (List UInt8 × Scalar)} {m : List UInt8 × Scalar} (h : m ∈ ms) :
    Token.scalar m.2 ∈ (flat ms).tokens := by
  induction ms with
  | nil => simp at h
  | cons m' ms ih =>
      obtain rfl | h := List.mem_cons.1 h
      · simp [flat, Members.tokens, Value.tokens]
      · simp [flat, Members.tokens, ih h]

/-- Where every argument is among the members of the text, the text has no escapes. -/
theorem clean_of_members {args : List (List UInt8 × List UInt8)} {ms : List (List UInt8 × Scalar)}
    (hnames : (args.map (·.1)).Nodup)
    (h : Lexes (optionsText args) (Value.object (flat ms)).tokens)
    (hmem : ∀ a ∈ args, ∃ m ∈ ms, m.1 = a.1 ∧ scalarText m.2 = some a.2) :
    ∀ a ∈ args, Clean a.2 := by
  have hsub : (args.map fun a => (a.1, some a.2)) ⊆ ms.map fun m => (m.1, scalarText m.2) := by
    intro p hp
    obtain ⟨a, ha, rfl⟩ := List.mem_map.1 hp
    obtain ⟨m, hm, hname, htext⟩ := hmem a ha
    exact List.mem_map.2 ⟨m, hm, by rw [hname, htext]⟩
  have hnodup : (args.map fun a => (a.1, some a.2)).Nodup := by
    apply List.Nodup.of_map Prod.fst
    rwa [List.map_map]
  have hsum : ((args.map fun a => (a.1, some a.2)).map pairWeight).sum ≤
      ((ms.map fun m => (m.1, scalarText m.2)).map pairWeight).sum := by
    obtain ⟨l, hperm, hsublist⟩ := hnodup.subperm hsub
    rw [← (hperm.map pairWeight).sum_eq]
    exact (hsublist.map pairWeight).sum_le_sum (by simp)
  have htext : weight (optionsText args) = weight (membersText args) := by
    simp [optionsText, weight_cons]
  have htokens : tokensWeight (Value.object (flat ms)).tokens = tokensWeight (flat ms).tokens := by
    simp [Value.tokens, Token.weight]
  have heq : tokensWeight (Value.object (flat ms)).tokens = weight (optionsText args) := by
    have hle := h.weighs.le
    rw [weight_membersText] at htext
    rw [tokensWeight_flat] at htokens
    omega
  intro a ha
  obtain ⟨m, hm, -, htext⟩ := hmem a ha
  have htoken : Token.scalar m.2 ∈ (Value.object (flat ms)).tokens := by
    rw [Value.tokens]
    exact List.mem_cons_of_mem _ (mem_tokens_flat hm)
  rcases hs : m.2 with s | s | b | _
  · rw [hs] at htoken htext
    obtain rfl := Option.some.inj htext
    exact h.weighs.clean heq _ htoken
  · rw [hs] at htoken htext
    obtain rfl := Option.some.inj htext
    exact (h.isNumber htoken).clean
  all_goals
    rw [hs] at htext
    cases htext

/-! ### The record the tool leaves -/

theorem getKeyringInfoFileRecordByName_first {name : List UInt8} {r : KeyringProviderRecord}
    {pre post : List KeyringProviderRecord} (h : Named name r = true)
    (hpre : ∀ r' ∈ pre, Named name r' = false) :
    getKeyringInfoFileRecordByName name (pre ++ r :: post) = some (pre.length, r) := by
  have hindex : (pre ++ r :: post).findIdx? (Named name) = some pre.length := by
    rw [List.findIdx?_append, List.findIdx?_eq_none_iff.2 hpre, List.findIdx?_cons]
    simp [h]
  unfold Named at hindex
  unfold getKeyringInfoFileRecordByName
  rw [hindex]
  simp

/-- The record is found under its name again, and it has the new type and options. -/
theorem openPgTdeChangeKeyProvider_record {controlfile : ControlFileData}
    {files files' : Oid → List KeyringProviderRecord} {dbOid : Oid}
    {providerName newProviderType : List UInt8} {argv : List (List UInt8)}
    (h : openPgTdeChangeKeyProvider controlfile files dbOid providerName newProviderType argv =
      .ok files') : ∃ args offset record,
      providerArguments newProviderType argv = .ok args ∧
      getKeyringInfoFileRecordByName providerName (files' dbOid) = some (offset, record) ∧
      record.providerType = getKeyringProviderFromTypename newProviderType ∧
      record.options = optionsText args := by
  unfold openPgTdeChangeKeyProvider at h
  obtain ⟨args, hargs, h⟩ := except_bind_ok.1 h
  split at h
  · cases h
  rename_i json hjson
  obtain ⟨rfl, hlen⟩ := buildJson_eq hjson
  split at h
  · cases h
  split at h
  · cases h
  split at h
  · cases h
  rename_i offset record hfound
  obtain rfl := Except.ok.inj h
  obtain ⟨pre, post, hfile, rfl, hnamed, hpre⟩ := getKeyringInfoFileRecordByName_eq_some hfound
  obtain ⟨hlive, -⟩ := providerArguments_names hargs
  rw [Function.update_self, hfile, List.set_append_right _ _ le_rfl, Nat.sub_self, List.set_cons_zero]
  refine ⟨args, _, _, hargs, getKeyringInfoFileRecordByName_first ?_ hpre, rfl, ?_⟩
  · rw [Named, Bool.and_eq_true] at hnamed ⊢
    exact ⟨by simpa [KeyringProviderRecord.live] using hlive, hnamed.2⟩
  · exact List.take_of_length_le (by omega)

/-! ### When the arguments are kept -/

theorem keepsArguments_iff {parser : List UInt8 → Option (List Event)} (hparser : Standard parser)
    {newProviderType : List UInt8} {argv : List (List UInt8)} {args : List (List UInt8 × List UInt8)}
    {record : KeyringProviderRecord} (hargs : providerArguments newProviderType argv = .ok args)
    (htype : record.providerType = getKeyringProviderFromTypename newProviderType)
    (hoptions : record.options = optionsText args) :
    KeepsArguments parser record args ↔
      (¬ ∃ ms, IsOptions (getKeyringProviderFromTypename newProviderType) (optionsText args) ms) ∨
        ∀ a ∈ args, Clean a.2 := by
  obtain ⟨-, hargNames⟩ := providerArguments_names hargs
  rw [KeepsArguments, htype, hoptions]
  generalize getKeyringProviderFromTypename newProviderType = providerType at *
  have hnames : (args.map (·.1)).Nodup := hargNames ▸ argumentNames_nodup providerType
  have hmem : ∀ a ∈ args, a.1 ∈ argumentNames providerType := by
    intro a ha
    exact hargNames ▸ List.mem_map_of_mem ha
  have hclean : ∀ a ∈ args, Clean a.1 := fun a ha => argumentNames_clean _ a.1 (hmem a ha)
  rcases hread : parseKeyringJSONOptions parser providerType (optionsText args) with e | opts
  · have hnone : ¬ ∃ ms, IsOptions providerType (optionsText args) ms := by
      rintro ⟨ms, hms⟩
      have hok := (parseKeyringJSONOptions_ok_iff hparser).2 ⟨ms, hms, rfl⟩
      rw [hread] at hok
      cases hok
    exact ⟨fun _ => .inl hnone, fun _ => trivial⟩
  · obtain ⟨ms, hms, rfl⟩ := (parseKeyringJSONOptions_ok_iff hparser).1 hread
    constructor
    · intro hkept
      refine .inr (clean_of_members hnames hms.1 fun a ha => ?_)
      obtain ⟨field, hfield⟩ := argumentNames_field _ a.1 (hmem a ha)
      have hgiven := (givenValue_eq_some hnames).2 ⟨a, ha, hfield, rfl⟩
      rw [← hkept] at hgiven
      obtain hgiven | ⟨m, hm, hfield', htext⟩ := assignMembers_eq_some hgiven
      · cases hgiven
      · have hname := (jkFieldNamed_eq_some.1 hfield').2.symm.trans (jkFieldNamed_eq_some.1 hfield).2
        exact ⟨m, hm, hname, htext⟩
    · rintro (hnone | hvalues)
      · exact absurd ⟨ms, hms⟩ hnone
      · rw [isOptions_of_clean hclean hvalues hms]
        exact assignMembers_stringMembers providerType hnames

/-- Reading the record back raises an error or gives every field the value that was given for it
exactly when the text is not one of options at all or no value contains a double quote or a
backslash. -/
theorem change_key_provider_keeps_arguments_iff {parser : List UInt8 → Option (List Event)}
    (hparser : Standard parser) {controlfile : ControlFileData}
    {files files' : Oid → List KeyringProviderRecord} {dbOid : Oid}
    {providerName newProviderType : List UInt8} {argv : List (List UInt8)}
    (h : openPgTdeChangeKeyProvider controlfile files dbOid providerName newProviderType argv =
      .ok files') : ∃ args offset record,
      providerArguments newProviderType argv = .ok args ∧
      getKeyringInfoFileRecordByName providerName (files' dbOid) = some (offset, record) ∧
      (KeepsArguments parser record args ↔
        (¬ ∃ ms, IsOptions (getKeyringProviderFromTypename newProviderType) (optionsText args) ms) ∨
          ∀ a ∈ args, Clean a.2) := by
  obtain ⟨args, offset, record, hargs, hrecord, htype, hoptions⟩ :=
    openPgTdeChangeKeyProvider_record h
  exact ⟨args, offset, record, hargs, hrecord, keepsArguments_iff hparser hargs htype hoptions⟩

/-- A file provider under the name `p`. -/
def sampleProviders : Oid → List KeyringProviderRecord :=
  fun _ => [⟨1, ascii "p", [], .file⟩]

/-- The tool is run with this path. -/
def samplePathChange (path : List UInt8) : Except ChangeError (Oid → List KeyringProviderRecord) :=
  openPgTdeChangeKeyProvider ⟨true, .shutdowned⟩ sampleProviders 5 (ascii "p") (ascii "file") [path]

theorem change_key_provider_keeps_plain_path : ∃ files', samplePathChange (ascii "/keys") = .ok files' ∧
    ∃ args offset record,
      providerArguments (ascii "file") [ascii "/keys"] = .ok args ∧
      getKeyringInfoFileRecordByName (ascii "p") (files' 5) = some (offset, record) ∧
      (KeepsArguments parser record args ↔
        (¬ ∃ ms, IsOptions (getKeyringProviderFromTypename (ascii "file")) (optionsText args) ms) ∨
          ∀ a ∈ args, Clean a.2) := by
  obtain ⟨files', h⟩ : ∃ files', samplePathChange (ascii "/keys") = .ok files' := ⟨_, rfl⟩
  exact ⟨files', h, change_key_provider_keeps_arguments_iff parser_standard h⟩

/-- A path with a backslash before an `n` is read with a line feed in place of the two. -/
theorem change_key_provider_alters_path : Standard parser ∧
    ∃ files', samplePathChange (ascii "a\\nb") = .ok files' ∧ ∃ args offset record,
      providerArguments (ascii "file") [ascii "a\\nb"] = .ok args ∧
      getKeyringInfoFileRecordByName (ascii "p") (files' 5) = some (offset, record) ∧
      ¬ KeepsArguments parser record args := by
  obtain ⟨files', h⟩ : ∃ files', samplePathChange (ascii "a\\nb") = .ok files' := ⟨_, rfl⟩
  obtain ⟨args, offset, record, hargs, hrecord, htype, hoptions⟩ :=
    openPgTdeChangeKeyProvider_record h
  refine ⟨parser_standard, files', h, args, offset, record, hargs, hrecord, ?_⟩
  rw [keepsArguments_iff parser_standard hargs htype hoptions]
  obtain rfl : [(ascii "path", ascii "a\\nb")] = args := Except.ok.inj hargs
  have hpath : StringBody (ascii "path") (ascii "path") := .of_clean (by decide) (by decide +kernel)
  have hvalue : StringBody (ascii "a\\nb") [97, 10, 98] :=
    .byte (by decide) (by decide) (by decide) (.escape rfl
      (.byte (by decide) (by decide) (by decide) .nil))
  have hlexes : Lexes (optionsText [(ascii "path", ascii "a\\nb")])
      (Value.object (flat [(ascii "path", .str [97, 10, 98])])).tokens :=
    .punct rfl (.str hpath (.punct rfl (.str hvalue (.punct rfl .nil))))
  have hacc : Acceptable (getKeyringProviderFromTypename (ascii "file"))
      (ascii "path", .str [97, 10, 98]) := ⟨by decide, by simp⟩
  rintro (hnone | hclean)
  · exact hnone ⟨_, hlexes, by simpa using hacc⟩
  · exact absurd (hclean _ (List.mem_singleton_self _)) (by decide)

end OpenPgTde
