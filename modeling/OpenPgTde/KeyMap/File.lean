import OpenPgTde.Server
import OpenPgTde.Lib.SlotArray

/-!
The key file of a database (`access/open_pg_tde_tdemap.c`): its routines that do not look up a
principal key themselves. The entries are an unordered array of slots; a relation's key is
replaced where it stands, a freed entry is overwritten with zeros, and a rotation of the principal
key writes the live entries to a new file that then takes the place of the old one.
-/

namespace OpenPgTde

open Lib.Effect Lib.SlotArray

/-! ### Wrapping keys -/

/-- Encrypt a key for storage. -/
def wrapKey (w : World) (principalKey iv aad : List UInt8) (k : InternalKey) :
    List UInt8 × List UInt8 :=
  w.aead.encrypt principalKey iv aad k.key

/-- Read a stored key back: decrypt as many bytes as the cipher's keys have. -/
def unwrapKey (w : World) (principalKey iv aad : List UInt8) (cipher : CipherType)
    (baseIv data tag : List UInt8) : Option InternalKey :=
  match w.aead.decrypt principalKey iv aad (data.take cipher.keyLength) tag with
  | none => none
  | some key =>
    if h : key.length = cipher.keyLength then some ⟨cipher, baseIv, key, h⟩ else none

theorem unwrapKey_wrapKey (w : World) (principalKey iv aad : List UInt8) (k : InternalKey) :
    unwrapKey w principalKey iv aad k.cipher k.baseIv (wrapKey w principalKey iv aad k).1
      (wrapKey w principalKey iv aad k).2 = some k := by
  have hlen : (w.aead.encrypt principalKey iv aad k.key).1.length ≤ k.cipher.keyLength := by
    simp [k.length_key]
  simp [unwrapKey, wrapKey, List.take_of_length_le hlen, k.length_key]

/-- `open_pg_tde_sign_principal_key_info`. -/
def signPrincipalKeyInfo (w : World) (k : TDEPrincipalKey) : M TDESignedPrincipalKeyInfo := do
  let iv ← randBytes ivLen
  pure ⟨k.keyInfo, iv, (w.aead.encrypt k.keyData iv k.keyInfo.bytes []).2⟩

/-- `open_pg_tde_verify_principal_key_info`. -/
def verifyPrincipalKeyInfo (w : World) (info : TDESignedPrincipalKeyInfo)
    (keyData : List UInt8) : Bool :=
  (w.aead.decrypt keyData info.signIv info.data.bytes [] info.aeadTag).isSome

/-! ### Entries -/

/-- The part of an entry that its tag authenticates. -/
def TDEMapEntry.aad (e : TDEMapEntry) : List UInt8 :=
  leBytes 4 e.cipher.code ++ leBytes 4 e.spcOid.toNat ++ leBytes 4 e.relNumber.toNat ++
    leBytes 4 e.type.code ++ e.keyBaseIv

/-- The entry a freed key leaves behind: all zeros. -/
def emptyMapEntry : TDEMapEntry where
  cipher := .aes128
  spcOid := 0
  relNumber := 0
  type := .empty
  keyBaseIv := List.replicate 16 0
  entryIv := List.replicate 16 0
  aeadTag := List.replicate 16 0
  encryptedKeyData := List.replicate 64 0

/-- `open_pg_tde_initialize_map_entry`. -/
def initializeMapEntry (w : World) (pk : TDEPrincipalKey) (rlocator : RelFileLocator)
    (k : InternalKey) : M TDEMapEntry := do
  let iv ← randBytes ivLen
  let e : TDEMapEntry :=
    { cipher := k.cipher, spcOid := rlocator.spcOid, relNumber := rlocator.relNumber,
      type := .key, keyBaseIv := k.baseIv, entryIv := iv, aeadTag := [], encryptedKeyData := [] }
  let sealed := wrapKey w pk.keyData iv e.aad k
  pure { e with encryptedKeyData := sealed.1, aeadTag := sealed.2 }

/-- The key an entry holds, when it decrypts under `keyData`. -/
def TDEMapEntry.unwrap (w : World) (keyData : List UInt8) (e : TDEMapEntry) : Option InternalKey :=
  unwrapKey w keyData e.entryIv e.aad e.cipher e.keyBaseIv e.encryptedKeyData e.aeadTag

/-- `tde_decrypt_rel_key`. -/
def decryptRelKey (w : World) (pk : TDEPrincipalKey) (e : TDEMapEntry) : M InternalKey :=
  match e.unwrap w pk.keyData with
  | some k => pure k
  | none => throw .decryptFailed

/-! ### Opening a file -/

/-- `open_pg_tde_open_file_read`: the entries, or nothing if the file may be missing and is. -/
def openFileRead (path : KeyFilePath) (ignoreMissing : Bool) : M (Option (List TDEMapEntry)) := do
  sysCall (.couldNotOpen path)
  let s ← get
  match s.keyFiles path with
  | none => if ignoreMissing then pure none else throw (.couldNotOpen path)
  | some .empty => pure (some [])
  | some (.current _ entries) => pure (some entries)
  | some _ => throw (.wrongVersion path)

/-- `open_pg_tde_open_file_write`: creates the file if it is missing, truncates it if asked to,
and adds the header to an empty file if there is one to add. -/
def openFileWrite (path : KeyFilePath) (info : Option TDESignedPrincipalKeyInfo)
    (truncate : Bool) : M (List TDEMapEntry) := do
  sysCall (.couldNotOpen path)
  let s ← get
  let file := if truncate then .empty else (s.keyFiles path).getD .empty
  set (s.putKeyFile path (some file))
  match file, info with
  | .empty, none => pure []
  | .empty, some info => do
    sysCall (.couldNotWrite path)
    modify fun s => s.putKeyFile path (some (.current info []))
    pure []
  | .current _ entries, _ => pure entries
  | _, _ => throw (.wrongVersion path)

/-- `open_pg_tde_write_one_map_entry`: the entry at index `i` of an open file. -/
def writeOneMapEntry (path : KeyFilePath) (i : ℕ) (e : TDEMapEntry) : M Unit := do
  sysCall (.couldNotWrite path)
  let s ← get
  match s.keyFiles path with
  | some (.current info entries) =>
    set (s.putKeyFile path (some (.current info (writeAt entries i e))))
  | _ => pure ()

/-- `durable_rename` of the rewritten file over the old one. -/
def durableRename (dbOid : Oid) : M Unit := do
  sysCall (.couldNotWrite (.keysTmp dbOid))
  let s ← get
  set ((s.putKeyFile (.keys dbOid) (s.keyFiles (.keysTmp dbOid))).putKeyFile (.keysTmp dbOid) none)

/-! ### The header -/

/-- `open_pg_tde_get_principal_key_info`. -/
def getPrincipalKeyInfo (dbOid : Oid) : M (Option TDESignedPrincipalKeyInfo) := do
  sysCall (.couldNotOpen (.keys dbOid))
  let s ← get
  pure ((s.keyFiles (.keys dbOid)).bind KeyFile.info)

/-- `open_pg_tde_save_principal_key`. -/
def savePrincipalKey (w : World) (pk : TDEPrincipalKey) (writeXlog : Bool) : M Unit := do
  let info ← signPrincipalKeyInfo w pk
  if writeXlog then xlogInsert (.addPrincipalKey info)
  let _ ← openFileWrite (.keys pk.keyInfo.databaseId) (some info) true

/-- `open_pg_tde_save_principal_key_redo`. -/
def savePrincipalKeyRedo (info : TDESignedPrincipalKeyInfo) : M Unit := do
  let _ ← openFileWrite (.keys info.data.databaseId) (some info) false

/-- `open_pg_tde_delete_principal_key`. -/
def deletePrincipalKey (dbOid : Oid) : M Unit := do
  xlogInsert (.deletePrincipalKey dbOid)
  sysCall (.couldNotOpen (.keys dbOid))
  let s ← get
  if (s.keyFiles (.keys dbOid)).isSome then set (s.putKeyFile (.keys dbOid) none)
  else throw (.couldNotOpen (.keys dbOid))

/-- `open_pg_tde_delete_principal_key_redo`: a failure is only a warning. -/
def deletePrincipalKeyRedo (dbOid : Oid) : M Unit := do
  if ← sysTry then modify fun s => s.putKeyFile (.keys dbOid) none

/-- `open_pg_tde_delete_tde_files`. -/
def deleteTdeFiles (dbOid : Oid) : M Unit := do
  if ← sysTry then modify fun s => s.putKeyFile (.keys dbOid) none

/-! ### The entries of a file -/

/-- The entry test of `open_pg_tde_find_map_entry` and `open_pg_tde_free_key_map_entry`. -/
def TDEMapEntry.isKeyOf (spcOid : Oid) (relNumber : UInt32) (e : TDEMapEntry) : Bool :=
  e.type = .key && e.spcOid = spcOid && e.relNumber = relNumber

/-- `open_pg_tde_find_map_entry`. -/
def findMapEntry (rlocator : RelFileLocator) : M (Option TDEMapEntry) := do
  match ← openFileRead (.keys rlocator.dbOid) false with
  | none => pure none
  | some entries => pure (entries.find? (TDEMapEntry.isKeyOf rlocator.spcOid rlocator.relNumber))

/-- `open_pg_tde_has_smgr_key`. -/
def hasSmgrKey (rlocator : RelFileLocator) : M Bool := do
  let s ← get
  match s.keyFiles (.keys rlocator.dbOid) with
  | none => pure false
  | some _ => do
    let e ← findMapEntry rlocator
    pure e.isSome

/-- `open_pg_tde_count_encryption_keys`; `spcOid` 0 stands for every tablespace. -/
def countEncryptionKeys (dbOid spcOid : Oid) : M ℕ := do
  match ← openFileRead (.keys dbOid) true with
  | none => pure 0
  | some entries =>
    pure (entries.countP fun e => e.type = .key && (spcOid = 0 || e.spcOid = spcOid))

/-- `open_pg_tde_free_key_map_entry`. -/
def freeKeyMapEntry (rlocator : RelFileLocator) : M Unit := do
  let entries ← openFileWrite (.keys rlocator.dbOid) none false
  match entries.findIdx? (TDEMapEntry.isKeyOf rlocator.spcOid rlocator.relNumber) with
  | none => pure ()
  | some i => writeOneMapEntry (.keys rlocator.dbOid) i emptyMapEntry

/-! ### Rotation -/

/-- The loop of `open_pg_tde_perform_rotate_key`: the live entries, decrypted and encrypted again,
are written to the new file from index `pos` on. -/
def rotateEntries (w : World) (pk newPk : TDEPrincipalKey) : List TDEMapEntry → ℕ → M Unit
  | [], _ => pure ()
  | e :: entries, pos =>
    if e.type = .empty then rotateEntries w pk newPk entries pos
    else do
      let k ← decryptRelKey w pk e
      let e' ← initializeMapEntry w newPk ⟨e.spcOid, pk.keyInfo.databaseId, e.relNumber⟩ k
      writeOneMapEntry (.keysTmp pk.keyInfo.databaseId) pos e'
      rotateEntries w pk newPk entries (pos + 1)

/-- `open_pg_tde_perform_rotate_key`. -/
def performRotateKey (w : World) (pk newPk : TDEPrincipalKey) (writeXlog : Bool) : M Unit := do
  let info ← signPrincipalKeyInfo w newPk
  let entries ← openFileRead (.keys pk.keyInfo.databaseId) false
  let _ ← openFileWrite (.keysTmp pk.keyInfo.databaseId) (some info) true
  rotateEntries w pk newPk (entries.getD []) 0
  durableRename pk.keyInfo.databaseId
  if writeXlog then
    xlogInsert (.rotatePrincipalKey newPk.keyInfo.databaseId newPk.keyInfo.keyringId
      newPk.keyInfo.name)

end OpenPgTde
