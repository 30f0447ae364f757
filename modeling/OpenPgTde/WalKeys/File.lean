import OpenPgTde.KeyMap.File

/-!
The file of WAL keys (`access/open_pg_tde_xlog_keys.c`).

Each entry opens a range of the WAL: from its start location on, until the start of the next range,
the WAL is encrypted with the entry's key, or left unencrypted. Entries are only ever appended. An
entry is created without a start location; the first write to the WAL after that fills it in, in
place, and marks the entry before it invalid if it does not start earlier.
-/

namespace OpenPgTde

open Lib.Effect

/-! ### Locations and ranges -/

/-- `wal_location_cmp`: timelines first, then positions. -/
def walLocationCmp (l₁ l₂ : WalLocation) : Ordering :=
  if l₁.tli < l₂.tli then .lt
  else if l₂.tli < l₁.tli then .gt
  else if l₁.lsn < l₂.lsn then .lt
  else if l₂.lsn < l₁.lsn then .gt
  else .eq

/-- `wal_location_valid`. -/
def walLocationValid (loc : WalLocation) : Bool := loc.tli ≠ 0 && loc.lsn ≠ 0

/-- The location no range starts at, and the one no range reaches beyond. -/
def invalidWalLocation : WalLocation := ⟨0, 0⟩

def maxWalLocation : WalLocation := ⟨2 ^ 64 - 1, 2 ^ 32 - 1⟩

structure WalEncryptionRange where
  type : WalEncryptionRangeType
  key : InternalKey
  start : WalLocation
  stop : WalLocation
  deriving DecidableEq

/-! ### Entries -/

/-- The part of an entry that its tag authenticates; the start location is not in it. -/
def WalKeyFileEntry.aad (e : WalKeyFileEntry) : List UInt8 :=
  leBytes 4 e.cipher.code ++ leBytes 4 e.rangeType.code ++ e.keyBaseIv

/-- The key an entry holds, when it decrypts under `keyData`. -/
def WalKeyFileEntry.unwrap (w : World) (keyData : List UInt8) (e : WalKeyFileEntry) :
    Option InternalKey :=
  unwrapKey w keyData e.entryIv e.aad e.cipher e.keyBaseIv e.encryptedKeyData e.aeadTag

/-- The entry for a range, encrypted under `keyData` with the initialisation vector `iv`. -/
def sealWalKeyFileEntry (w : World) (keyData iv : List UInt8) (range : WalEncryptionRange) :
    WalKeyFileEntry :=
  let e : WalKeyFileEntry :=
    { cipher := range.key.cipher, rangeType := range.type, keyBaseIv := range.key.baseIv,
      rangeStart := range.start, entryIv := iv, aeadTag := [], encryptedKeyData := [] }
  let wrapped := wrapKey w keyData iv e.aad range.key
  { e with encryptedKeyData := wrapped.1, aeadTag := wrapped.2 }

/-- The range an entry stands for; where it ends is known only with its successor. -/
def walRangeOfEntry (w : World) (keyData : List UInt8) (e : WalKeyFileEntry) :
    Option WalEncryptionRange :=
  (e.unwrap w keyData).map fun k => ⟨e.rangeType, k, e.rangeStart, maxWalLocation⟩

/-- `open_pg_tde_initialize_wal_key_file_entry`. The buffer for the key has 32 bytes. -/
def initializeWalKeyFileEntry (w : World) (pk : TDEPrincipalKey) (range : WalEncryptionRange) :
    M WalKeyFileEntry := do
  if 32 < range.key.cipher.keyLength then throw .walKeyTooLong
  let iv ← randBytes ivLen
  pure (sealWalKeyFileEntry w pk.keyData iv range)

/-- `open_pg_tde_wal_range_from_entry`. -/
def walRangeFromEntry (w : World) (pk : TDEPrincipalKey) (e : WalKeyFileEntry) :
    M WalEncryptionRange :=
  match walRangeOfEntry w pk.keyData e with
  | some range => pure range
  | none => throw .decryptFailed

/-! ### Opening the file -/

/-- `open_pg_tde_open_wal_key_file_read`. -/
def openWalKeyFileRead (path : WalKeyPath) (ignoreMissing : Bool) :
    M (Option (List WalKeyFileEntry)) := do
  sysCall .couldNotOpenWal
  let s ← get
  match s.walKeys path with
  | none => if ignoreMissing then pure none else throw .couldNotOpenWal
  | some .empty => pure (some [])
  | some (.current _ entries) => pure (some entries)
  | some _ => throw .wrongWalVersion

/-- `open_pg_tde_open_wal_key_file_write`. -/
def openWalKeyFileWrite (path : WalKeyPath) (info : Option TDESignedPrincipalKeyInfo)
    (truncate : Bool) : M (List WalKeyFileEntry) := do
  sysCall .couldNotOpenWal
  let s ← get
  let file := if truncate then .empty else (s.walKeys path).getD .empty
  set (s.putWalKeys path (some file))
  match file, info with
  | .empty, none => pure []
  | .empty, some info => do
    sysCall .couldNotWriteWal
    modify fun s => s.putWalKeys path (some (.current info []))
    pure []
  | .current _ entries, _ => pure entries
  | _, _ => throw .wrongWalVersion

/-- `open_pg_tde_write_one_wal_key_file_entry`, which is always called at the end of the file. -/
def writeOneWalKeyFileEntry (path : WalKeyPath) (e : WalKeyFileEntry) : M Unit := do
  sysCall .couldNotWriteWal
  let s ← get
  match s.walKeys path with
  | some (.current info entries) =>
    set (s.putWalKeys path (some (.current info (entries ++ [e]))))
  | _ => pure ()

/-- `durable_rename` of the rewritten file over the old one. -/
def durableRenameWalKeys : M Unit := do
  sysCall .couldNotWriteWal
  let s ← get
  set ((s.putWalKeys .walKeys (s.walKeys .walKeysTmp)).putWalKeys .walKeysTmp none)

/-- `open_pg_tde_write_wal_key_file_entry`. -/
def writeWalKeyFileEntry (w : World) (range : WalEncryptionRange) (pk : TDEPrincipalKey) :
    M Unit := do
  let info ← signPrincipalKeyInfo w pk
  let _ ← openWalKeyFileWrite .walKeys (some info) false
  let e ← initializeWalKeyFileEntry w pk range
  writeOneWalKeyFileEntry .walKeys e

/-! ### Positioning the last range -/

/-- The entries once the last range is given its start `loc`: the entry before it is marked invalid
if it does not start before `loc`. Everything else in that entry stays as it is, its tag included.
-/
def setLastLocation (loc : WalLocation) : List WalKeyFileEntry → List WalKeyFileEntry
  | [] => []
  | [last] => [{ last with rangeStart := loc }]
  | [prev, last] =>
    [if walLocationCmp prev.rangeStart loc ≠ .lt then { prev with rangeType := .invalid } else prev,
      { last with rangeStart := loc }]
  | e :: e' :: e'' :: entries => e :: setLastLocation loc (e' :: e'' :: entries)

theorem setLastLocation_cons (loc : WalLocation) (e : WalKeyFileEntry)
    {entries : List WalKeyFileEntry} (h : 2 ≤ entries.length) :
    setLastLocation loc (e :: entries) = e :: setLastLocation loc entries := by
  match entries, h with
  | _ :: _ :: _, _ => rfl

theorem setLastLocation_append (loc : WalLocation) (front : List WalKeyFileEntry)
    (prev last : WalKeyFileEntry) :
    setLastLocation loc (front ++ [prev, last]) =
      front ++ [if walLocationCmp prev.rangeStart loc ≠ .lt then { prev with rangeType := .invalid }
        else prev, { last with rangeStart := loc }] := by
  induction front with
  | nil => rfl
  | cons e front ih => rw [List.cons_append, setLastLocation_cons _ _ (by simp), ih, List.cons_append]

/-- What the write of a location does to a header when no entry follows it. The place of the entry
with index -1 lies in the header: 16 bytes in the middle of the key name are overwritten. -/
def TDEPrincipalKeyInfo.overwriteName (loc : WalLocation) (i : TDEPrincipalKeyInfo) :
    TDEPrincipalKeyInfo :=
  { i with name := (padTo principalKeyNameLen i.name).take 208 ++
      (leBytes 8 loc.lsn ++ leBytes 4 loc.tli ++ leBytes 4 0) ++
      (padTo principalKeyNameLen i.name).drop 224 }

/-- `open_pg_tde_wal_last_range_set_location`. In a file without a header the computed offset is
negative and the write fails. -/
def walLastRangeSetLocation (loc : WalLocation) : M Unit := do
  let _ ← openWalKeyFileWrite .walKeys none false
  sysCall .couldNotWriteWal
  let s ← get
  match s.walKeys .walKeys with
  | some (.current info []) =>
    set (s.putWalKeys .walKeys
      (some (.current { info with data := info.data.overwriteName loc } [])))
  | some (.current info entries) =>
    set (s.putWalKeys .walKeys (some (.current info (setLastLocation loc entries))))
  | _ => throw .couldNotWriteWal

/-! ### Rotation -/

/-- The loop of `open_pg_tde_perform_rotate_server_key`. -/
def rotateWalEntries (w : World) (pk newPk : TDEPrincipalKey) : List WalKeyFileEntry → M Unit
  | [] => pure ()
  | e :: entries => do
    let range ← walRangeFromEntry w pk e
    let e' ← initializeWalKeyFileEntry w newPk range
    writeOneWalKeyFileEntry .walKeysTmp e'
    rotateWalEntries w pk newPk entries

/-- `open_pg_tde_perform_rotate_server_key`. -/
def performRotateServerKey (w : World) (pk newPk : TDEPrincipalKey) (writeXlog : Bool) :
    M Unit := do
  let info ← signPrincipalKeyInfo w newPk
  let entries ← openWalKeyFileRead .walKeys false
  let _ ← openWalKeyFileWrite .walKeysTmp (some info) true
  rotateWalEntries w pk newPk (entries.getD [])
  durableRenameWalKeys
  if writeXlog then
    xlogInsert (.rotatePrincipalKey newPk.keyInfo.databaseId newPk.keyInfo.keyringId
      newPk.keyInfo.name)

/-! ### Older layouts -/

/-- What the tag of a version 1 entry authenticates. -/
def WalKeyFileEntryV1.aad (e : WalKeyFileEntryV1) : List UInt8 :=
  leBytes 4 e.unused1.toNat ++ leBytes 4 e.unused2.toNat

/-- In version 2 the base IV stands behind the tag and is not authenticated. -/
def WalKeyFileEntryV2.aad (e : WalKeyFileEntryV2) : List UInt8 :=
  leBytes 4 e.cipher.code ++ leBytes 4 e.rangeType.code

/-- `wal_range_from_entry_v1`: the key is always one of AES-128. -/
def walRangeFromEntryV1 (w : World) (keyData : List UInt8) (e : WalKeyFileEntryV1) :
    Option WalEncryptionRange :=
  (unwrapKey w keyData e.entryIv e.aad .aes128 e.keyBaseIv e.encryptedKeyData e.aeadTag).map
    fun k => ⟨e.rangeType, k, e.rangeStart, maxWalLocation⟩

/-- `wal_range_from_entry_v2`. -/
def walRangeFromEntryV2 (w : World) (keyData : List UInt8) (e : WalKeyFileEntryV2) :
    Option WalEncryptionRange :=
  (unwrapKey w keyData e.entryIv e.aad e.cipher e.keyBaseIv e.encryptedKeyData e.aeadTag).map
    fun k => ⟨e.rangeType, k, e.rangeStart, maxWalLocation⟩

/-- The loop of `open_pg_tde_update_wal_keys_file`: each range that is read is written, encrypted
under `pk`, to the new file. -/
def migrateWalEntries {α : Type} (w : World) (pk : TDEPrincipalKey)
    (readRange : α → Option WalEncryptionRange) : List α → M Unit
  | [] => pure ()
  | e :: entries =>
    match readRange e with
    | none => throw .decryptFailed
    | some range => do
      let e' ← initializeWalKeyFileEntry w pk range
      writeOneWalKeyFileEntry .walKeysTmp e'
      migrateWalEntries w pk readRange entries

/-! ### The header -/

/-- `open_pg_tde_save_server_key_redo`. -/
def saveServerKeyRedo (info : TDESignedPrincipalKeyInfo) : M Unit := do
  let _ ← openWalKeyFileWrite .walKeys (some info) false

/-- `open_pg_tde_save_server_key`. -/
def saveServerKey (w : World) (pk : TDEPrincipalKey) (writeXlog : Bool) : M Unit := do
  let info ← signPrincipalKeyInfo w pk
  if writeXlog then xlogInsert (.addPrincipalKey info)
  let _ ← openWalKeyFileWrite .walKeys (some info) true

/-- `open_pg_tde_get_server_key_info`. -/
def getServerKeyInfo : M (Option TDESignedPrincipalKeyInfo) := do
  sysCall .couldNotOpenWal
  let s ← get
  pure ((s.walKeys .walKeys).bind WalKeyFile.info)

/-- `open_pg_tde_count_wal_ranges_in_file`. -/
def countWalRangesInFile : M ℕ := do
  match ← openWalKeyFileRead .walKeys true with
  | none => pure 0
  | some entries => pure entries.length

/-- `open_pg_tde_delete_server_key`. -/
def deleteServerKey : M Unit := do
  xlogInsert (.deletePrincipalKey globalDataTdeOid)
  sysCall .couldNotOpenWal
  let s ← get
  if (s.walKeys .walKeys).isSome then set (s.putWalKeys .walKeys none) else throw .couldNotOpenWal

end OpenPgTde
