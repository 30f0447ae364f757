import OpenPgTde.Replication.Redo

/-!
Adding, changing and deleting key providers (`catalog/tde_keyring.c`).

A provider file is an array of records. A new record goes to the end with an id that is larger in
size than every id in the file; a record is changed where it stands; a deleted record keeps its
place and its id and nothing else. Every write is logged with the place it goes to.

A record is addressed in two ways. `GetKeyProviderByName`, which keys are set through and which
decides whether a provider is in use, ignores the case of letters; the routines that write look for
the exact name.
-/

namespace OpenPgTde

open Lib.Effect Lib.SlotArray

/-! ### Provider files -/

/-- `MAX_PROVIDER_NAME_LEN`. -/
def maxProviderNameLen : ℕ := 128

/-- `MAX_KEYRING_OPTION_LEN`. -/
def maxKeyringOptionLen : ℕ := 1024

/-- `PG_INT32_MAX`. -/
def pgInt32Max : ℕ := 2147483647

/-- A deleted record stays in the file with the type `unknown`. -/
def KeyringProviderRecord.live (r : KeyringProviderRecord) : Bool := r.providerType ≠ .unknown

/-- `get_keyring_provider_from_typename`: "file", "kmip" and "openbao". -/
def getKeyringProviderFromTypename (name : List UInt8) : ProviderType :=
  if name = [102, 105, 108, 101] then .file
  else if name = [107, 109, 105, 112] then .kmip
  else if name = [111, 112, 101, 110, 98, 97, 111] then .openbao
  else .unknown

/-- `get_keyring_info_file_record_by_name`: the place and the record of the first live record of
exactly this name. -/
def getKeyringInfoFileRecordByName (providerName : List UInt8)
    (file : List KeyringProviderRecord) : Option (ℕ × KeyringProviderRecord) :=
  match file.findIdx? fun r => r.live && r.providerName = providerName with
  | none => none
  | some offset => (file[offset]?).map fun r => (offset, r)

/-- The largest size of an id in the file. -/
def maxProviderId (file : List KeyringProviderRecord) : ℕ :=
  file.foldl (fun n r => max n r.providerId.natAbs) 0

/-- What `delete_key_provider_info` leaves of a record. -/
def KeyringProviderRecord.erased (r : KeyringProviderRecord) : KeyringProviderRecord :=
  ⟨r.providerId, [], [], .unknown⟩

/-- `write_key_provider_info` with a record: the file is opened, the record logged, the slot
written and the file flushed. -/
def writeKeyProviderInfo (dbOid : Oid) (offset : ℕ) (provider : KeyringProviderRecord) :
    M Unit := do
  sysCall (.couldNotWriteProviders dbOid)
  xlogInsert (.writeKeyProvider dbOid offset provider)
  redoKeyProviderInfo dbOid offset provider
  sysCall (.couldNotWriteProviders dbOid)

/-! ### Keys in use -/

/-- The check `open_pg_tde_verify_provider_keys_in_use` makes for one header. -/
def verifyKeyInUse (w : World) (provider : KeyringProviderRecord) :
    Option TDESignedPrincipalKeyInfo → M Unit
  | none => pure ()
  | some info => do
    if info.data.keyringId = provider.providerId then
      let s ← get
      match keyringGetKey w s.kms provider info.data.name with
      | .error code => throw (.keyringFailed code)
      | .ok none => throw (.keyNotFound info.data.name)
      | .ok (some k) =>
        if verifyPrincipalKeyInfo w info k.data then pure ()
        else throw (.headerNotVerified info.data.name)

/-- `open_pg_tde_verify_provider_keys_in_use`: the server key, then the key of every row of
`pg_database`. -/
def verifyProviderKeysInUse (w : World) (provider : KeyringProviderRecord) : M Unit := do
  let info ← getServerKeyInfo
  verifyKeyInUse w provider info
  let s ← get
  forM s.databases fun db => do
    let info ← getPrincipalKeyInfo db.oid
    verifyKeyInUse w provider info

/-- The comparison `open_pg_tde_is_provider_used` makes for one scope. -/
def usesProvider (w : World) (scope : Oid) (providerId : ℤ) : M Bool := do
  match ← getPrincipalKeyNoDefault w scope with
  | some k => pure (k.keyInfo.keyringId = providerId)
  | none => pure false

/-- The scan of `open_pg_tde_is_provider_used` over the databases. -/
def usedByDatabase (w : World) (providerId : ℤ) : List DatabaseId → M Bool
  | [] => pure false
  | db :: dbs => do
    if ← usesProvider w db.oid providerId then pure true else usedByDatabase w providerId dbs

/-- `open_pg_tde_is_provider_used`. -/
def isProviderUsed (w : World) (dbOid : Oid) (providerId : ℤ) : M Bool := do
  if dbOid = globalDataTdeOid ∨ dbOid = defaultDataTdeOid then
    if ← usesProvider w globalDataTdeOid providerId then pure true
    else if ← usesProvider w defaultDataTdeOid providerId then pure true
    else do
      let s ← get
      usedByDatabase w providerId s.databases
  else usesProvider w dbOid providerId

/-! ### The three operations -/

/-- The arguments of the SQL functions on providers, and what their checks depend on: whether the
options can be loaded, and whether the provider passes `KeyringValidate`. -/
structure ProviderCall where
  superuser : Bool
  providerType : Option (List UInt8)
  providerName : Option (List UInt8)
  options : Option (List UInt8)
  loads : Bool
  validates : Bool
  deriving DecidableEq, Repr

/-- `check_provider_record`. -/
def checkProviderRecord (w : World) (c : ProviderCall) (provider : KeyringProviderRecord) :
    M Unit := do
  if provider.providerType = .unknown then throw .invalidProviderType
  if c.loads = false then throw .providerNotLoaded
  if c.validates = false then throw .providerNotValid
  if provider.providerId ≠ 0 then verifyProviderKeysInUse w provider

/-- `save_new_key_provider_info`. -/
def saveNewKeyProviderInfo (w : World) (c : ProviderCall) (provider : KeyringProviderRecord)
    (dbOid : Oid) : M Unit := do
  checkProviderRecord w c provider
  sysCall (.couldNotWriteProviders dbOid)
  let s ← get
  let file := s.providers dbOid
  if file.any fun r => r.live && r.providerName = provider.providerName then
    throw (.providerExists provider.providerName)
  if maxProviderId file = pgInt32Max then throw .providerIdOutOfRange
  let newProviderId : ℤ := maxProviderId file + 1
  writeKeyProviderInfo dbOid file.length { provider with
    providerId := if dbOid = globalDataTdeOid then -newProviderId else newProviderId }

/-- `modify_key_provider_info`. -/
def modifyKeyProviderInfo (w : World) (c : ProviderCall) (provider : KeyringProviderRecord)
    (dbOid : Oid) : M Unit := do
  checkProviderRecord w c provider
  sysCall (.couldNotWriteProviders dbOid)
  let s ← get
  match getKeyringInfoFileRecordByName provider.providerName (s.providers dbOid) with
  | none => throw (.providerNotFound provider.providerName)
  | some (offset, record) => do
    if provider.providerId ≠ record.providerId then
      throw (.providerIdMismatch provider.providerId record.providerId)
    writeKeyProviderInfo dbOid offset provider

/-- `delete_key_provider_info`. -/
def deleteKeyProviderInfo (providerName : List UInt8) (dbOid : Oid) : M Unit := do
  sysCall (.couldNotWriteProviders dbOid)
  let s ← get
  match getKeyringInfoFileRecordByName providerName (s.providers dbOid) with
  | none => throw (.providerNotFound providerName)
  | some (offset, record) => writeKeyProviderInfo dbOid offset record.erased

/-- `open_pg_tde_add_key_provider_internal`. -/
def addKeyProvider (w : World) (c : ProviderCall) (dbOid : Oid) : M Unit := do
  if c.superuser = false then throw .mustBeSuperuser
  match c.providerType, c.providerName, c.options with
  | some type, some name, some options => do
    if name.length = 0 then throw .providerNameTooShort
    if maxProviderNameLen - 1 ≤ name.length then throw .providerNameTooLong
    if maxKeyringOptionLen ≤ options.length then throw .providerOptionsTooLarge
    saveNewKeyProviderInfo w c ⟨0, name, options, getKeyringProviderFromTypename type⟩ dbOid
  | _, _, _ => throw .providerArgumentNull

/-- `open_pg_tde_change_key_provider_internal`. -/
def changeKeyProvider (w : World) (c : ProviderCall) (dbOid : Oid) : M Unit := do
  if c.superuser = false then throw .mustBeSuperuser
  match c.providerType, c.providerName, c.options with
  | some type, some name, some options => do
    let s ← get
    match getKeyProviderByName s.providers name dbOid with
    | none => throw (.providerNotFound name)
    | some keyring => do
      if maxKeyringOptionLen ≤ options.length then throw .providerOptionsTooLarge
      modifyKeyProviderInfo w c
        ⟨keyring.providerId, name, options, getKeyringProviderFromTypename type⟩ dbOid
  | _, _, _ => throw .providerArgumentNull

/-- `open_pg_tde_delete_key_provider_internal`. -/
def deleteKeyProvider (w : World) (c : ProviderCall) (dbOid : Oid) : M Unit := do
  if c.superuser = false then throw .mustBeSuperuser
  match c.providerName with
  | none => throw .providerArgumentNull
  | some name => do
    let s ← get
    match getKeyProviderByName s.providers name dbOid with
    | none => throw (.providerNotFound name)
    | some keyring => do
      if ← isProviderUsed w dbOid keyring.providerId then throw .providerInUse
      deleteKeyProviderInfo name dbOid

/-- The SQL functions on providers. For global providers the scope is `GLOBAL_DATA_TDE_OID`, else it is
the database of the session. -/
inductive ProviderOp
  | add (c : ProviderCall) (dbOid : Oid)
  | change (c : ProviderCall) (dbOid : Oid)
  | delete (c : ProviderCall) (dbOid : Oid)

def ProviderOp.exec (w : World) : ProviderOp → M Unit
  | add c dbOid => addKeyProvider w c dbOid
  | change c dbOid => changeKeyProvider w c dbOid
  | delete c dbOid => deleteKeyProvider w c dbOid

/-- The scope and the name an operation is called with. -/
def ProviderOp.dbOid : ProviderOp → Oid
  | add _ dbOid => dbOid
  | change _ dbOid => dbOid
  | delete _ dbOid => dbOid

def ProviderOp.name : ProviderOp → Option (List UInt8)
  | add c _ => c.providerName
  | change c _ => c.providerName
  | delete c _ => c.providerName

end OpenPgTde
