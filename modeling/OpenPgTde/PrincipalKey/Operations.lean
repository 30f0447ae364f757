import OpenPgTde.WalKeys.File

/-!
The principal keys of a server (`catalog/tde_principal_key.c`) and the relation keys that are stored
under them (`access/open_pg_tde_tdemap.c`, `smgr/open_pg_tde_smgr.c`).

A scope is a database, the default scope or the server scope. A principal key is looked up in the
cache first and then in the keyring that the header of the scope names; a database without a
principal key of its own falls back on the default key, which is then written into its header.
Setting a key in a scope that has one is a rotation.
-/

namespace OpenPgTde

open Lib.Effect Lib.SlotArray

/-! ### The cache -/

/-- `push_principal_key_to_cache`: an entry that is there already is not replaced. -/
def pushPrincipalKeyToCache (k : TDEPrincipalKey) : M Unit := do
  let s ← get
  if (s.cache k.keyInfo.databaseId).isNone then set (s.putCache k.keyInfo.databaseId (some k))
  sysCall .mlockFailed

/-- `clear_principal_key_cache`. -/
def clearPrincipalKeyCache (dbOid : Oid) : M Unit :=
  modify fun s => s.putCache dbOid none

/-- `principal_key_startup_cleanup`. -/
def principalKeyStartupCleanup (dbOid : Oid) : M Unit := do
  clearPrincipalKeyCache dbOid
  deleteTdeFiles dbOid

/-! ### Looking up a principal key -/

/-- `get_principal_key_from_keyring`. -/
def getPrincipalKeyFromKeyring (w : World) (dbOid : Oid) : M (Option TDEPrincipalKey) := do
  match ← (if dbOid = globalDataTdeOid then getServerKeyInfo else getPrincipalKeyInfo dbOid) with
  | none => pure none
  | some info => do
    let s ← get
    match getKeyProviderByID s.providers info.data.keyringId dbOid with
    | none => throw (.unknownKeyring info.data.keyringId)
    | some keyring =>
      match keyringGetKey w s.kms keyring info.data.name with
      | .error code => throw (.keyringFailed code)
      | .ok none => throw (.keyNotFound info.data.name)
      | .ok (some k) =>
        if verifyPrincipalKeyInfo w info k.data then pure (some ⟨info.data, k.data⟩)
        else throw (.headerNotVerified info.data.name)

/-- `GetPrincipalKeyNoDefault`. -/
def getPrincipalKeyNoDefault (w : World) (dbOid : Oid) : M (Option TDEPrincipalKey) := do
  let s ← get
  match s.cache dbOid with
  | some k => pure (some k)
  | none =>
    match ← getPrincipalKeyFromKeyring w dbOid with
    | none => pure none
    | some k => do
      pushPrincipalKeyToCache k
      let s ← get
      pure (s.cache dbOid)

/-- `GetPrincipalKey`: without a key of its own a scope takes over the default key. No WAL record
is written for that. -/
def getPrincipalKey (w : World) (dbOid : Oid) : M (Option TDEPrincipalKey) := do
  match ← getPrincipalKeyNoDefault w dbOid with
  | some k => pure (some k)
  | none =>
    match ← getPrincipalKeyNoDefault w defaultDataTdeOid with
    | none => pure none
    | some k => do
      let newKey : TDEPrincipalKey := { k with keyInfo := { k.keyInfo with databaseId := dbOid } }
      if dbOid = globalDataTdeOid then saveServerKey w newKey false
      else savePrincipalKey w newKey false
      pushPrincipalKeyToCache newKey
      getPrincipalKeyNoDefault w dbOid

/-! ### Setting a principal key -/

/-- The new key of `set_principal_key_with_keyring` and of `xl_tde_perform_rotate_key`. -/
def newPrincipalKey (dbOid : Oid) (keyring : KeyringProviderRecord) (k : KeyInfo) :
    M TDEPrincipalKey := do
  let now ← getTimeOfDay
  pure ⟨⟨dbOid, keyring.providerId, now, k.name⟩, k.data⟩

/-- The rotation step all callers share: the file of the scope is rewritten and the cache entry
replaced. -/
def rotatePrincipalKey (w : World) (dbOid : Oid) (pk newPk : TDEPrincipalKey) (writeXlog : Bool) :
    M Unit := do
  if dbOid = globalDataTdeOid then performRotateServerKey w pk newPk writeXlog
  else performRotateKey w pk newPk writeXlog
  clearPrincipalKeyCache pk.keyInfo.databaseId
  pushPrincipalKeyToCache newPk

/-- `set_principal_key_with_keyring`. -/
def setPrincipalKeyWithKeyring (w : World) (keyName providerName : List UInt8)
    (providerOid dbOid : Oid) : M Unit := do
  let curr ← getPrincipalKeyNoDefault w dbOid
  let s ← get
  match getKeyProviderByName s.providers providerName providerOid with
  | none => throw (.providerNotFound providerName)
  | some keyring =>
    match keyringGetKey w s.kms keyring keyName with
    | .error code => throw (.keyringFailed code)
    | .ok none => throw (.keyNotFound keyName)
    | .ok (some k) => do
      let newPk ← newPrincipalKey dbOid keyring k
      match curr with
      | none => do
        if dbOid = globalDataTdeOid then saveServerKey w newPk true
        else savePrincipalKey w newPk true
        pushPrincipalKeyToCache newPk
      | some curr => rotatePrincipalKey w dbOid curr newPk true

/-- `open_pg_tde_is_same_principal_key`. -/
def isSamePrincipalKey (a b : Option TDEPrincipalKey) : Bool :=
  match a, b with
  | some a, some b => a.keyInfo.name = b.keyInfo.name && a.keyInfo.keyringId = b.keyInfo.keyringId
  | _, _ => false

/-- `open_pg_tde_rotate_default_key_for_database`. -/
def rotateDefaultKeyForDatabase (w : World) (oldKey newKeyTemplate : TDEPrincipalKey) : M Unit :=
  rotatePrincipalKey w oldKey.keyInfo.databaseId oldKey { newKeyTemplate with
    keyInfo := { newKeyTemplate.keyInfo with databaseId := oldKey.keyInfo.databaseId } } true

/-- The check and the rotation `open_pg_tde_update_default_principal_key_everywhere` makes for one
scope. -/
def updateDefaultPrincipalKey (w : World) (oldKey : TDEPrincipalKey) (newKey : TDEPrincipalKey)
    (dbOid : Oid) : M Unit := do
  match ← getPrincipalKeyNoDefault w dbOid with
  | none => pure ()
  | some k =>
    if isSamePrincipalKey (some oldKey) (some k) then rotateDefaultKeyForDatabase w k newKey

/-- `open_pg_tde_update_default_principal_key_everywhere`: the server scope, then every row of
`pg_database`. -/
def updateDefaultPrincipalKeyEverywhere (w : World) (oldKey newKey : TDEPrincipalKey) :
    M Unit := do
  updateDefaultPrincipalKey w oldKey newKey globalDataTdeOid
  let s ← get
  forM s.databases fun db => updateDefaultPrincipalKey w oldKey newKey db.oid

/-- The arguments of the SQL functions that set a key, and what their checks depend on. -/
structure SetKeyCall where
  superuser : Bool
  allowInheritGlobalProviders : Bool
  keyName : Option (List UInt8)
  providerName : Option (List UInt8)
  deriving DecidableEq, Repr

/-- A call that sets the key of this name, by a superuser who may use global providers. -/
def sampleCall (keyName : List UInt8) : SetKeyCall := ⟨true, true, some keyName, some [112]⟩

/-- The checks at the start of `open_pg_tde_set_principal_key_internal`, in their order. -/
def checkSetKeyCall (providerOid : Oid) (c : SetKeyCall) :
    Except TdeError (List UInt8 × List UInt8) :=
  if providerOid = globalDataTdeOid ∧ c.superuser = false then .error .insufficientPrivilege
  else if providerOid = globalDataTdeOid ∧ c.allowInheritGlobalProviders = false then
    .error .globalProvidersDisabled
  else match c.keyName, c.providerName with
    | none, _ => .error .keyNameNull
    | some keyName, providerName =>
      if keyName.length = 0 then .error .keyNameTooShort
      else if principalKeyNameLen ≤ keyName.length then .error .keyNameTooLong
      else match providerName with
        | none => .error .providerNameNull
        | some providerName => .ok (keyName, providerName)

/-- `open_pg_tde_set_principal_key_internal`. -/
def setPrincipalKeyInternal (w : World) (providerOid dbOid : Oid) (c : SetKeyCall) : M Unit := do
  match checkSetKeyCall providerOid c with
  | .error e => throw e
  | .ok (keyName, providerName) => do
    let existing ← if dbOid = defaultDataTdeOid then getPrincipalKeyNoDefault w dbOid else pure none
    setPrincipalKeyWithKeyring w keyName providerName providerOid dbOid
    match existing with
    | none => pure ()
    | some oldKey =>
      match ← getPrincipalKeyNoDefault w dbOid with
      | none => pure () -- the key has just been set
      | some newKey => updateDefaultPrincipalKeyEverywhere w oldKey newKey

/-- `open_pg_tde_set_key_using_database_key_provider`. -/
def setKeyUsingDatabaseKeyProvider (w : World) (db : DatabaseId) (c : SetKeyCall) : M Unit :=
  setPrincipalKeyInternal w db.oid db.oid c

/-- `open_pg_tde_set_key_using_global_key_provider`. -/
def setKeyUsingGlobalKeyProvider (w : World) (db : DatabaseId) (c : SetKeyCall) : M Unit :=
  setPrincipalKeyInternal w globalDataTdeOid db.oid c

/-- `open_pg_tde_set_server_key_using_global_key_provider`. -/
def setServerKeyUsingGlobalKeyProvider (w : World) (c : SetKeyCall) : M Unit :=
  setPrincipalKeyInternal w globalDataTdeOid globalDataTdeOid c

/-- `open_pg_tde_set_default_key_using_global_key_provider`: a server key is set along with the
default key if there is none. -/
def setDefaultKeyUsingGlobalKeyProvider (w : World) (c : SetKeyCall) : M Unit := do
  setPrincipalKeyInternal w globalDataTdeOid defaultDataTdeOid c
  match ← getPrincipalKeyNoDefault w globalDataTdeOid with
  | some _ => pure ()
  | none => setPrincipalKeyInternal w globalDataTdeOid globalDataTdeOid c

/-! ### Deleting a principal key -/

/-- `open_pg_tde_delete_key`. -/
def deleteKey (w : World) (db : DatabaseId) : M Unit := do
  match ← getPrincipalKeyNoDefault w db.oid with
  | none => throw .noPrincipalKey
  | some k =>
    if (← countEncryptionKeys db.oid 0) ≠ 0 then
      match ← getPrincipalKeyNoDefault w defaultDataTdeOid with
      | none => throw .keyInUse
      | some defaultKey =>
        if isSamePrincipalKey (some k) (some defaultKey) then throw .keyInUse
        else rotateDefaultKeyForDatabase w k defaultKey
    else do
      deletePrincipalKey db.oid
      clearPrincipalKeyCache db.oid

/-- The scan of `open_pg_tde_delete_default_key`: the databases that use the default key and have
no encrypted tables; one that has some is an error. -/
def databasesUsingDefaultKey (w : World) (defaultKey : TDEPrincipalKey) :
    List DatabaseId → M (List DatabaseId)
  | [] => pure []
  | db :: dbs => do
    let k ← getPrincipalKeyNoDefault w db.oid
    if isSamePrincipalKey (some defaultKey) k then
      if (← countEncryptionKeys db.oid 0) ≠ 0 then throw (.defaultKeyInUse db.oid)
      let rest ← databasesUsingDefaultKey w defaultKey dbs
      pure (db :: rest)
    else databasesUsingDefaultKey w defaultKey dbs

/-- `open_pg_tde_delete_default_key`. -/
def deleteDefaultKey (w : World) (superuser : Bool) : M Unit := do
  if superuser = false then throw .insufficientPrivilege
  match ← getPrincipalKeyNoDefault w defaultDataTdeOid with
  | none => throw .noDefaultKey
  | some defaultKey => do
    let s ← get
    let dbs ← databasesUsingDefaultKey w defaultKey s.databases
    let serverKey ← getPrincipalKeyNoDefault w globalDataTdeOid
    if isSamePrincipalKey (some defaultKey) serverKey then
      if (← countWalRangesInFile) ≠ 0 then throw .walKeysInUse
      deleteServerKey
      clearPrincipalKeyCache globalDataTdeOid
    forM dbs fun db => do
      deletePrincipalKey db.oid
      clearPrincipalKeyCache db.oid
    deletePrincipalKey defaultDataTdeOid
    clearPrincipalKeyCache defaultDataTdeOid

/-! ### Relation keys -/

/-- The scan of `open_pg_tde_save_smgr_key` for the slot to write: whether the relation was found,
and the index of its entry, else of the first free one, else of the end. Tablespace and relation
are compared, the type of the entry is not. -/
def saveSlot (rel : RelFileLocator) (entries : List TDEMapEntry) : Bool × ℕ :=
  findSlot (fun e => e.spcOid = rel.spcOid && e.relNumber = rel.relNumber)
    (fun e => e.type = .empty) entries 0 none

/-- `open_pg_tde_save_smgr_key`. -/
def saveSmgrKey (w : World) (rel : RelFileLocator) (k : InternalKey) (replaceExisting : Bool) :
    M Unit := do
  match ← getPrincipalKey w rel.dbOid with
  | none => throw .principalKeyNotConfigured
  | some pk => do
    let info ← signPrincipalKeyInfo w pk
    let entries ← openFileWrite (.keys rel.dbOid) (some info) false
    if (saveSlot rel entries).1 = false ∨ replaceExisting = true then
      let e ← initializeMapEntry w pk rel k
      writeOneMapEntry (.keys rel.dbOid) (saveSlot rel entries).2 e

/-- `open_pg_tde_get_smgr_key`. -/
def getSmgrKey (w : World) (rel : RelFileLocator) : M (Option InternalKey) := do
  let s ← get
  match s.keyFiles (.keys rel.dbOid) with
  | none => pure none
  | some _ =>
    match ← findMapEntry rel with
    | none => pure none
    | some e =>
      match ← getPrincipalKey w rel.dbOid with
      | none => throw .principalKeyNotConfigured
      | some pk => do
        let k ← decryptRelKey w pk e
        pure (some k)

/-- `open_pg_tde_generate_internal_key`. -/
def generateInternalKey (cipher : CipherType) : M InternalKey := do
  let key ← randBytes cipher.keyLength
  let iv ← randBytes ivLen
  if h : key.length = cipher.keyLength then pure ⟨cipher, iv, key, h⟩ else throw .randFailed

/-- `tde_smgr_data_cipher`: data files always get a tweakable cipher. -/
def smgrDataCipher (s : Server) : CipherType :=
  match s.dataCipher.getD s.cipher with
  | .aes128 => .aes128Xts
  | .aes256 => .aes256Xts
  | c => c

/-- `tde_smgr_create_key`, for a relation that is not temporary. -/
def smgrCreateKey (w : World) (rel : RelFileLocator) : M InternalKey := do
  let s ← get
  let k ← generateInternalKey (smgrDataCipher s)
  saveSmgrKey w rel k true
  xlogInsert (.createRelationKey rel)
  pure k

/-- `tde_smgr_create_key_redo`. -/
def smgrCreateKeyRedo (w : World) (rel : RelFileLocator) : M Unit := do
  let s ← get
  let k ← generateInternalKey (smgrDataCipher s)
  saveSmgrKey w rel k false

/-- `tde_smgr_delete_key`, for a relation that is not temporary. -/
def smgrDeleteKey (rel : RelFileLocator) : M Unit := freeKeyMapEntry rel

/-- `tde_smgr_delete_leftover_key`, for a relation that is not temporary. -/
def smgrDeleteLeftoverKey (rel : RelFileLocator) : M Unit := do
  freeKeyMapEntry rel
  xlogInsert (.deleteRelationKey rel)

/-- `open_pg_tde_create_wal_range`. -/
def createWalRange (w : World) (type : WalEncryptionRangeType) (keyLen : ℕ) :
    M WalEncryptionRange := do
  match ← getPrincipalKey w globalDataTdeOid with
  | none => throw .principalKeyNotConfigured
  | some pk =>
    match CipherType.byKeyLen keyLen with
    | none => throw (.noKeystreamCipher keyLen)
    | some cipher => do
      let k ← generateInternalKey cipher
      let range : WalEncryptionRange := ⟨type, k, invalidWalLocation, maxWalLocation⟩
      writeWalKeyFileEntry w range pk
      pure range

end OpenPgTde
