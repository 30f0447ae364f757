import OpenPgTde.Keyring.Options
import OpenPgTde.Lib.JsonPath

/-!
Keys in OpenBao (`keyring/keyring_openbao.c`).

A key is a secret of a Key/Value engine, and its name is the end of the URL it has there. Two answers
of the server are read: the one that has a key in it, and what the server says about the mount when
the provider is validated. A JSON parser goes through them and calls back, and the callbacks know by a
state and by the number of objects around them where in the answer they are. Nobody listens to where
arrays start and end.

The transport, the JSON parser and the base64 coding are parameters.
-/

namespace OpenPgTde.OpenBao

open Lib.Json

/-! ### The answer with a key -/

inductive JsonOpenBaoRespSemState
  | expectTopData
  | expectData
  | expectKey
  deriving DecidableEq, Repr

inductive JsonOpenBaoRespField
  | unused
  | key
  deriving DecidableEq, Repr

@[ext] structure JsonOpenBaoRespState where
  state : JsonOpenBaoRespSemState
  field : JsonOpenBaoRespField
  level : ℤ
  key : Option (List UInt8)
  deriving DecidableEq

def jsonRespObjectStart (parse : JsonOpenBaoRespState) : JsonOpenBaoRespState :=
  { parse with level := parse.level + 1 }

def jsonRespObjectEnd (parse : JsonOpenBaoRespState) : JsonOpenBaoRespState :=
  { parse with level := parse.level - 1 }

def jsonRespScalar (parse : JsonOpenBaoRespState) (token : List UInt8) : JsonOpenBaoRespState :=
  match parse.field with
  | .key => { parse with key := some token, field := .unused }
  | .unused => parse

def jsonRespObjectFieldStart (parse : JsonOpenBaoRespState) (fname : List UInt8) :
    JsonOpenBaoRespState :=
  match parse.state with
  | .expectTopData =>
    if fname = ascii "data" ∧ parse.level = 0 then { parse with state := .expectData } else parse
  | .expectData =>
    if fname = ascii "data" ∧ parse.level = 1 then { parse with state := .expectKey } else parse
  | .expectKey =>
    if fname = ascii "key" ∧ parse.level = 2 then { parse with field := .key } else parse

def respAction (parse : JsonOpenBaoRespState) : Signal → JsonOpenBaoRespState
  | .objectStart => jsonRespObjectStart parse
  | .objectEnd => jsonRespObjectEnd parse
  | .fieldStart fname => jsonRespObjectFieldStart parse fname
  | .scalar s => jsonRespScalar parse s.text
  | .arrayStart => parse
  | .arrayEnd => parse

/-- `parse_json_response`, on what the parser reports. -/
def parseJsonResponse (signals : List Signal) : JsonOpenBaoRespState :=
  signals.foldl respAction ⟨.expectTopData, .unused, -1, none⟩

/-! ### The answer about the mount -/

inductive JsonOpenBaoRespMountInfoSemState
  | expectTopLevelField
  | expectDataStart
  | expectDataField
  | expectTypeValue
  | expectVersionValue
  | expectOptionsStart
  | expectOptionsField
  deriving DecidableEq, Repr

@[ext] structure JsonOpenBaoMountInfoState where
  state : JsonOpenBaoRespMountInfoSemState
  level : ℤ
  type : Option (List UInt8)
  version : Option (List UInt8)
  deriving DecidableEq

def jsonMountinfoObjectStart (parse : JsonOpenBaoMountInfoState) : JsonOpenBaoMountInfoState :=
  let state := match parse.state with
    | .expectDataStart => .expectDataField
    | .expectOptionsStart => .expectOptionsField
    | state => state
  { parse with state := state, level := parse.level + 1 }

def jsonMountinfoObjectEnd (parse : JsonOpenBaoMountInfoState) : JsonOpenBaoMountInfoState :=
  let state :=
    if parse.state = .expectOptionsField then .expectDataField
    else if parse.state = .expectDataField ∧ parse.level = 1 then .expectTopLevelField
    else parse.state
  { parse with state := state, level := parse.level - 1 }

def jsonMountinfoScalar (parse : JsonOpenBaoMountInfoState) (token : List UInt8) :
    JsonOpenBaoMountInfoState :=
  match parse.state with
  | .expectTypeValue => { parse with type := some token, state := .expectDataField }
  | .expectVersionValue => { parse with version := some token, state := .expectOptionsField }
  -- most likely just a null
  | .expectOptionsStart => { parse with state := .expectDataField }
  | .expectDataStart => { parse with state := .expectTopLevelField }
  | _ => parse

def jsonMountinfoObjectFieldStart (parse : JsonOpenBaoMountInfoState) (fname : List UInt8) :
    JsonOpenBaoMountInfoState :=
  match parse.state with
  | .expectTopLevelField =>
    if parse.level = 0 ∧ fname = ascii "data" then { parse with state := .expectDataStart }
    else parse
  | .expectDataField =>
    if parse.level = 1 ∧ fname = ascii "type" then { parse with state := .expectTypeValue }
    else if parse.level = 1 ∧ fname = ascii "options" then
      { parse with state := .expectOptionsStart }
    else parse
  | .expectOptionsField =>
    if parse.level = 2 ∧ fname = ascii "version" then { parse with state := .expectVersionValue }
    else parse
  | _ => parse

def mountinfoAction (parse : JsonOpenBaoMountInfoState) : Signal → JsonOpenBaoMountInfoState
  | .objectStart => jsonMountinfoObjectStart parse
  | .objectEnd => jsonMountinfoObjectEnd parse
  | .fieldStart fname => jsonMountinfoObjectFieldStart parse fname
  | .scalar s => jsonMountinfoScalar parse s.text
  | .arrayStart => parse
  | .arrayEnd => parse

/-- `parse_openbao_mount_info`, on what the parser reports. -/
def parseOpenbaoMountInfo (signals : List Signal) : JsonOpenBaoMountInfoState :=
  signals.foldl mountinfoAction ⟨.expectTopLevelField, -1, none, none⟩

/-! ### Requests -/

/-- `OPENBAO_URL_MAX_LEN`. -/
def openbaoUrlMaxLen : ℕ := 512

structure OpenBaoKeyring where
  providerName : List UInt8
  openbaoUrl : List UInt8
  openbaoMountPath : List UInt8

structure Response where
  httpCode : ℤ
  body : List UInt8

/-- What is outside: the server, a JSON parser and the base64 coding. -/
structure Outside where
  curlPerform : List UInt8 → Option (List UInt8) → Option Response
  parser : List UInt8 → Option (List Signal)
  pgB64Encode : List UInt8 → List UInt8
  pgB64Decode : List UInt8 → Option (List UInt8)

inductive OpenBaoError
  | mountsUrlTooLong
  | metadataUrlTooLong
  | requestFailed (providerName : List UInt8)
  | invalidHttpResponse (providerName : List UInt8) (httpCode : ℤ)
  | unsupportedEngineType (mountPath type : List UInt8)
  | missingVersion (url mountPath : List UInt8)
  | unsupportedEngineVersion (mountPath version : List UInt8)
  | listingFailed (url mountPath : List UInt8)
  deriving DecidableEq, Repr

/-- What `snprintf` leaves in a buffer of this size, which is the text and a zero, and how long the
text is. -/
def snprintf (size : ℕ) (text : List UInt8) : List UInt8 × ℕ := (text.take (size - 1), text.length)

def getKeyringOpenbaoUrl (keyring : OpenBaoKeyring) (keyName : List UInt8) (outSize : ℕ) :
    List UInt8 :=
  (snprintf outSize (keyring.openbaoUrl ++ ascii "/v1/" ++ keyring.openbaoMountPath ++
    ascii "/data/" ++ keyName)).1

/-- `set_key_by_name`. -/
def setKeyByName (o : Outside) (keyring : OpenBaoKeyring) (key : KeyInfo) : Except OpenBaoError Unit :=
  let jsonText := ascii "\x7b\"data\":\x7b\"key\":\"" ++ o.pgB64Encode key.data ++ ascii "\"\x7d\x7d"
  match o.curlPerform (getKeyringOpenbaoUrl keyring key.name openbaoUrlMaxLen) (some jsonText) with
  | none => .error (.requestFailed keyring.providerName)
  | some response =>
    if response.httpCode.tdiv 100 ≠ 2 then
      .error (.invalidHttpResponse keyring.providerName response.httpCode)
    else .ok ()

/-- `get_key_by_name`; decoding also fails when the key is longer than a key can be. -/
def getKeyByName (o : Outside) (keyring : OpenBaoKeyring) (keyName : List UInt8) :
    Except KeyringReturnCode (Option KeyInfo) :=
  match o.curlPerform (getKeyringOpenbaoUrl keyring keyName openbaoUrlMaxLen) none with
  | none => .error .invalidKey
  | some response =>
    if response.httpCode = 404 then .ok none
    else if response.httpCode.tdiv 100 ≠ 2 then .error .invalidResponse
    else match o.parser response.body with
      | none => .error .invalidResponse
      | some signals =>
        match (parseJsonResponse signals).key with
        | none => .error .invalidResponse
        | some responseKey =>
          match o.pgB64Decode responseKey with
          | none => .error .invalidKey
          | some data => .ok (some ⟨keyName, data⟩)

/-- What an answer about the mount is checked for. If it has no type, there is just a warning. -/
def checkMountInfo (keyring : OpenBaoKeyring) (parse : JsonOpenBaoMountInfoState) :
    Except OpenBaoError Unit :=
  match parse.type with
  | none => .ok ()
  | some type =>
    if type ≠ ascii "kv" then .error (.unsupportedEngineType keyring.openbaoMountPath type)
    else match parse.version with
      | none => .error (.missingVersion keyring.openbaoUrl keyring.openbaoMountPath)
      | some version =>
        if version ≠ ascii "2" then
          .error (.unsupportedEngineVersion keyring.openbaoMountPath version)
        else .ok ()

/-- The first half of `validate`: the mount has the engine that is supported. -/
def validateMount (o : Outside) (keyring : OpenBaoKeyring) : Except OpenBaoError Unit :=
  let (url, len) := snprintf openbaoUrlMaxLen
    (keyring.openbaoUrl ++ ascii "/v1/sys/mounts/" ++ keyring.openbaoMountPath)
  if openbaoUrlMaxLen ≤ len then .error .mountsUrlTooLong
  else match o.curlPerform url none with
    | none => .error (.requestFailed keyring.providerName)
    | some response =>
      if response.httpCode ≠ 200 then .ok ()
      else match o.parser response.body with
        | none => .ok ()
        | some signals => checkMountInfo keyring (parseOpenbaoMountInfo signals)

/-- The second half: the secrets at the mount can be read. Without any secrets the answer is 404. -/
def validateListing (o : Outside) (keyring : OpenBaoKeyring) : Except OpenBaoError Unit :=
  let (url, len) := snprintf openbaoUrlMaxLen
    (keyring.openbaoUrl ++ ascii "/v1/" ++ keyring.openbaoMountPath ++
      ascii "/metadata/?list=true")
  if openbaoUrlMaxLen ≤ len then .error .metadataUrlTooLong
  else match o.curlPerform url none with
    | none => .error (.requestFailed keyring.providerName)
    | some response =>
      if response.httpCode ≠ 200 ∧ response.httpCode ≠ 404 then
        .error (.listingFailed keyring.openbaoUrl keyring.openbaoMountPath)
      else .ok ()

def validate (o : Outside) (keyring : OpenBaoKeyring) : Except OpenBaoError Unit := do
  validateMount o keyring
  validateListing o keyring

end OpenPgTde.OpenBao
