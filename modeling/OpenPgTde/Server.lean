import OpenPgTde.Keyring
import OpenPgTde.Lib.Effect

/-!
The state of a server and the system calls the key management makes.

Principal keys are remembered in three places. A key file names the principal key of its scope in
the header, signed with that key; the entries after the header are keys encrypted under it; and a
cache in shared memory holds the principal keys themselves, one for each scope. Every database and
the default scope have a file `<oid>_keys`; the server scope has the file `wal_keys`, whose entries
are ranges of the WAL.

Routines are programs of `M`: they change the state step by step and an error leaves the state as
it was when it was raised. Files are modelled by what the entry-wise reads and writes of the program
see: a header and a list of entries. Each call of the operating system or of the random generator
may fail; which ones do is decided by the stream `sys`, so that a statement about every state is a
statement about every pattern of failures.
-/

namespace OpenPgTde

open Lib.Effect

/-! ### Principal keys -/

structure Timeval where
  sec : ℕ
  usec : ℕ
  deriving DecidableEq, Repr

structure TDEPrincipalKeyInfo where
  databaseId : Oid
  keyringId : ℤ
  creationTime : Timeval
  name : List UInt8
  deriving DecidableEq, Repr

/-- The principal key information in a file header, with the tag that authenticates it. -/
structure TDESignedPrincipalKeyInfo where
  data : TDEPrincipalKeyInfo
  signIv : List UInt8
  aeadTag : List UInt8
  deriving DecidableEq, Repr

structure TDEPrincipalKey where
  keyInfo : TDEPrincipalKeyInfo
  keyData : List UInt8
  deriving DecidableEq, Repr

/-- `PRINCIPAL_KEY_NAME_LEN`. -/
def principalKeyNameLen : ℕ := 256

/-- A text in a buffer of fixed size, filled up with zeros. -/
def padTo (n : ℕ) (l : List UInt8) : List UInt8 := l ++ List.replicate (n - l.length) 0

theorem length_padTo {n : ℕ} {l : List UInt8} (h : l.length ≤ n) : (padTo n l).length = n := by
  rw [padTo, List.length_append, List.length_replicate]
  omega

/-- The structure as it lies in memory; this is what the header's tag authenticates. -/
def TDEPrincipalKeyInfo.bytes (i : TDEPrincipalKeyInfo) : List UInt8 :=
  leBytes 4 i.databaseId.toNat ++ leBytes 4 (i.keyringId % 4294967296).toNat ++
    leBytes 8 i.creationTime.sec ++ leBytes 8 i.creationTime.usec ++
    padTo principalKeyNameLen i.name

/-! ### Database key files -/

structure RelFileLocator where
  spcOid : Oid
  dbOid : Oid
  relNumber : UInt32
  deriving DecidableEq, Repr

inductive MapEntryType
  | empty
  | key
  deriving DecidableEq, Repr

def MapEntryType.code : MapEntryType → ℕ
  | empty => 0
  | key => 1

structure TDEMapEntry where
  cipher : CipherType
  spcOid : Oid
  relNumber : UInt32
  type : MapEntryType
  keyBaseIv : List UInt8
  entryIv : List UInt8
  aeadTag : List UInt8
  encryptedKeyData : List UInt8
  deriving DecidableEq, Repr

/-- An entry of version 3: the key is always one of AES-128. -/
structure TDEMapEntryV3 where
  spcOid : Oid
  relNumber : UInt32
  type : MapEntryType
  unused1 : UInt32
  encryptedKeyData : List UInt8
  keyBaseIv : List UInt8
  entryIv : List UInt8
  aeadTag : List UInt8
  deriving DecidableEq, Repr

/-- An entry of version 4. It has the fields of the current entry, but the base IV stands behind
the tag and is not authenticated, and there is room for 32 bytes of key only. -/
structure TDEMapEntryV4 where
  cipher : CipherType
  spcOid : Oid
  relNumber : UInt32
  type : MapEntryType
  entryIv : List UInt8
  aeadTag : List UInt8
  keyBaseIv : List UInt8
  encryptedKeyData : List UInt8
  deriving DecidableEq, Repr

/-- An entry of version 5: version 4 with room for 64 bytes of key. -/
structure TDEMapEntryV5 where
  cipher : CipherType
  spcOid : Oid
  relNumber : UInt32
  type : MapEntryType
  entryIv : List UInt8
  aeadTag : List UInt8
  keyBaseIv : List UInt8
  encryptedKeyData : List UInt8
  deriving DecidableEq, Repr

/-- A database key file: nothing at all, or a header and entries in the layout of its version. In
the old versions `torn` says that the last entry is cut off; version 3 and the current version
take a partial entry for the end of the file, so there it is not recorded. -/
inductive KeyFile
  | empty
  | v3 (info : TDESignedPrincipalKeyInfo) (entries : List TDEMapEntryV3)
  | v4 (info : TDESignedPrincipalKeyInfo) (entries : List TDEMapEntryV4) (torn : Bool)
  | v5 (info : TDESignedPrincipalKeyInfo) (entries : List TDEMapEntryV5) (torn : Bool)
  | current (info : TDESignedPrincipalKeyInfo) (entries : List TDEMapEntry)
  | other (version : ℕ) (info : TDESignedPrincipalKeyInfo)
  deriving DecidableEq, Repr

/-- The principal key information of the header, which all versions share. -/
def KeyFile.info : KeyFile → Option TDESignedPrincipalKeyInfo
  | empty => none
  | v3 info _ => some info
  | v4 info _ _ => some info
  | v5 info _ _ => some info
  | current info _ => some info
  | other _ info => some info

/-- `<oid>_keys` and `<oid>_keys.r`, the file a rewrite goes to before it replaces the first. -/
inductive KeyFilePath
  | keys (dbOid : Oid)
  | keysTmp (dbOid : Oid)
  deriving DecidableEq, Repr

/-! ### The file of WAL keys -/

structure WalLocation where
  lsn : ℕ
  tli : ℕ
  deriving DecidableEq, Repr

inductive WalEncryptionRangeType
  | invalid
  | unencrypted
  | encrypted
  deriving DecidableEq, Repr

def WalEncryptionRangeType.code : WalEncryptionRangeType → ℕ
  | invalid => 0
  | unencrypted => 1
  | encrypted => 2

structure WalKeyFileEntry where
  cipher : CipherType
  rangeType : WalEncryptionRangeType
  keyBaseIv : List UInt8
  rangeStart : WalLocation
  entryIv : List UInt8
  aeadTag : List UInt8
  encryptedKeyData : List UInt8
  deriving DecidableEq, Repr

structure WalKeyFileEntryV1 where
  unused1 : UInt32
  unused2 : UInt32
  encryptedKeyData : List UInt8
  keyBaseIv : List UInt8
  rangeType : WalEncryptionRangeType
  rangeStart : WalLocation
  entryIv : List UInt8
  aeadTag : List UInt8
  deriving DecidableEq, Repr

structure WalKeyFileEntryV2 where
  cipher : CipherType
  rangeType : WalEncryptionRangeType
  rangeStart : WalLocation
  entryIv : List UInt8
  aeadTag : List UInt8
  keyBaseIv : List UInt8
  encryptedKeyData : List UInt8
  deriving DecidableEq, Repr

inductive WalKeyFile
  | empty
  | v1 (info : TDESignedPrincipalKeyInfo) (entries : List WalKeyFileEntryV1)
  | v2 (info : TDESignedPrincipalKeyInfo) (entries : List WalKeyFileEntryV2)
  | current (info : TDESignedPrincipalKeyInfo) (entries : List WalKeyFileEntry)
  | other (version : ℕ) (info : TDESignedPrincipalKeyInfo)
  deriving DecidableEq, Repr

def WalKeyFile.info : WalKeyFile → Option TDESignedPrincipalKeyInfo
  | empty => none
  | v1 info _ => some info
  | v2 info _ => some info
  | current info _ => some info
  | other _ info => some info

/-- `wal_keys` and `wal_keys.r`. -/
inductive WalKeyPath
  | walKeys
  | walKeysTmp
  deriving DecidableEq, Repr

/-! ### WAL records of the key management -/

inductive XLogRecord
  | createRelationKey (rlocator : RelFileLocator)
  | addPrincipalKey (info : TDESignedPrincipalKeyInfo)
  | rotatePrincipalKey (databaseId : Oid) (keyringId : ℤ) (keyName : List UInt8)
  | writeKeyProvider (databaseId : Oid) (offset : ℕ) (provider : KeyringProviderRecord)
  | installExtension (databaseId : Oid)
  | deleteRelationKey (rlocator : RelFileLocator)
  | deletePrincipalKey (dbOid : Oid)
  deriving DecidableEq, Repr

/-! ### The server -/

structure Server where
  providers : Oid → List KeyringProviderRecord
  keyFiles : KeyFilePath → Option KeyFile
  walKeys : WalKeyPath → Option WalKeyFile
  cache : Oid → Option TDEPrincipalKey
  /-- The rows of `pg_database` in scan order. -/
  databases : List DatabaseId
  /-- The records inserted so far, oldest first. -/
  xlog : List XLogRecord
  kms : KeyringProviderRecord → List UInt8 → KmsReply
  /-- The settings `open_pg_tde.cipher` and `open_pg_tde.data_cipher` (`none` is "inherit"). -/
  cipher : CipherType
  dataCipher : Option CipherType
  /-- The bytes `RAND_bytes` will give, the times `gettimeofday` will give, and which of the
  system calls to come will succeed. -/
  rng : ℕ → UInt8
  clock : ℕ → Timeval
  sys : ℕ → Bool

/-- The errors of the key management, with the text of the message each one stands for. -/
inductive TdeError
  /-- principal key not configured -/
  | principalKeyNotConfigured
  /-- could not open tde file -/
  | couldNotOpen (path : KeyFilePath)
  /-- could not write tde map file / could not fsync file / could not rename file -/
  | couldNotWrite (path : KeyFilePath)
  /-- key file has wrong version -/
  | wrongVersion (path : KeyFilePath)
  /-- could not open WAL key file -/
  | couldNotOpenWal
  /-- could not write WAL key file -/
  | couldNotWriteWal
  /-- WAL key file is corrupted or has wrong version -/
  | wrongWalVersion
  /-- could not find the required key at index -/
  | noWalKeyAtIndex
  /-- WAL key length exceeds the WAL key entry size -/
  | walKeyTooLong
  /-- no open_pg_tde keystream cipher registered for key length -/
  | noKeystreamCipher (keyLen : ℕ)
  /-- Failed to decrypt key, incorrect principal key or corrupted key file -/
  | decryptFailed
  /-- could not generate iv for key map / could not generate internal key / could not generate IV -/
  | randFailed
  /-- could not mlock principal key cache entry -/
  | mlockFailed
  /-- must be superuser to access global key providers -/
  | insufficientPrivilege
  /-- usage of global key providers is disabled -/
  | globalProvidersDisabled
  /-- key name cannot be null -/
  | keyNameNull
  /-- key name "" is too short -/
  | keyNameTooShort
  /-- key name is too long -/
  | keyNameTooLong
  /-- key provider name cannot be null -/
  | providerNameNull
  /-- key provider does not exists -/
  | providerNotFound (providerName : List UInt8)
  /-- keyring lookup failed for principal key, unknown keyring with ID -/
  | unknownKeyring (keyringId : ℤ)
  /-- failed to retrieve principal key from key provider -/
  | keyringFailed (code : KeyringReturnCode)
  /-- key does not exist / key not found in key provider -/
  | keyNotFound (keyName : List UInt8)
  /-- Failed to verify principal key header -/
  | headerNotVerified (keyName : List UInt8)
  /-- principal key does not exists for the database -/
  | noPrincipalKey
  /-- default principal key is not set -/
  | noDefaultKey
  /-- cannot delete principal key: there are encrypted tables in the database -/
  | keyInUse
  /-- cannot delete default principal key: encrypted tables in the database with that id -/
  | defaultKeyInUse (dbOid : Oid)
  /-- cannot delete default principal key: there are WAL encryption keys -/
  | walKeysInUse
  /-- failed to retrieve current principal key for database (redo) -/
  | noCurrentKey (dbOid : Oid)
  /-- could not open tde file / key provider info file can't be written -/
  | couldNotWriteProviders (dbOid : Oid)
  /-- keys migration: failed to retrieve principal key for database -/
  | noKeyForMigration (dbOid : Oid)
  /-- keys migration: could not read map entry -/
  | couldNotReadEntry
  /-- could not get server principal key -/
  | noServerKey
  /-- could not create file / could not open file / could not read blocks / cannot extend file -/
  | mdFailed
  /-- could not read file (a WAL segment) -/
  | couldNotReadSegment
  /-- mismatch of segment size in WAL file -/
  | segmentSizeMismatch (header size : ℕ)
  /-- invalid WAL segment size in WAL file -/
  | invalidSegmentSize (size : ℕ)
  /-- keys migration: unsupported or corrupted version -/
  | unsupportedVersion (version : ℕ)
  /-- must be superuser to modify key providers -/
  | mustBeSuperuser
  /-- provider type / provider name / provider options cannot be null -/
  | providerArgumentNull
  /-- provider name "" is too short -/
  | providerNameTooShort
  /-- provider name is too long -/
  | providerNameTooLong
  /-- too large provider options -/
  | providerOptionsTooLarge
  /-- Invalid provider type. -/
  | invalidProviderType
  /-- the options of the provider cannot be parsed, or one is missing -/
  | providerNotLoaded
  /-- the provider does not pass `KeyringValidate` -/
  | providerNotValid
  /-- Key provider already exists. -/
  | providerExists (providerName : List UInt8)
  /-- cannot create key provider, id out of range -/
  | providerIdOutOfRange
  /-- provider id mismatch -/
  | providerIdMismatch (providerId recordId : ℤ)
  /-- cannot delete provider which is currently in use -/
  | providerInUse
  deriving DecidableEq, Repr

abbrev M := EStateM TdeError Server

/-! ### System calls -/

/-- A call that succeeds or raises `e`. -/
def sysCall (e : TdeError) : M Unit := do
  let s ← get
  set { s with sys := fun i => s.sys (i + 1) }
  if s.sys 0 then pure () else throw e

/-- `RAND_bytes`. -/
def randBytes (n : ℕ) : M (List UInt8) := do
  sysCall .randFailed
  let s ← get
  set { s with rng := fun i => s.rng (i + n) }
  pure (List.ofFn fun i : Fin n => s.rng i)

/-- `gettimeofday`. -/
def getTimeOfDay : M Timeval := do
  let s ← get
  set { s with clock := fun i => s.clock (i + 1) }
  pure (s.clock 0)

/-- `XLogInsert`. -/
def xlogInsert (r : XLogRecord) : M Unit :=
  modify fun s => { s with xlog := s.xlog ++ [r] }

/-- A call whose failure is only logged. -/
def sysTry : M Bool := do
  let s ← get
  set { s with sys := fun i => s.sys (i + 1) }
  pure (s.sys 0)

def Server.putKeyFile (s : Server) (path : KeyFilePath) (f : Option KeyFile) : Server :=
  { s with keyFiles := Function.update s.keyFiles path f }

def Server.putWalKeys (s : Server) (path : WalKeyPath) (f : Option WalKeyFile) : Server :=
  { s with walKeys := Function.update s.walKeys path f }

def Server.putCache (s : Server) (dbOid : Oid) (k : Option TDEPrincipalKey) : Server :=
  { s with cache := Function.update s.cache dbOid k }

/-! ### Reading an updated server -/

section Puts

variable (s : Server) (path : KeyFilePath) (f : Option KeyFile) (wpath : WalKeyPath)
  (g : Option WalKeyFile) (dbOid : Oid) (k : Option TDEPrincipalKey) (rs : List XLogRecord)

/-- The state with records added to the log. -/
def Server.logged (s : Server) (rs : List XLogRecord) : Server := { s with xlog := s.xlog ++ rs }

@[simp] theorem putKeyFile_keyFiles :
    (s.putKeyFile path f).keyFiles = Function.update s.keyFiles path f := rfl
@[simp] theorem putKeyFile_walKeys : (s.putKeyFile path f).walKeys = s.walKeys := rfl
@[simp] theorem putKeyFile_cache : (s.putKeyFile path f).cache = s.cache := rfl
@[simp] theorem putKeyFile_providers : (s.putKeyFile path f).providers = s.providers := rfl
@[simp] theorem putKeyFile_databases : (s.putKeyFile path f).databases = s.databases := rfl
@[simp] theorem putKeyFile_xlog : (s.putKeyFile path f).xlog = s.xlog := rfl
@[simp] theorem putKeyFile_kms : (s.putKeyFile path f).kms = s.kms := rfl

@[simp] theorem putWalKeys_keyFiles : (s.putWalKeys wpath g).keyFiles = s.keyFiles := rfl
@[simp] theorem putWalKeys_walKeys :
    (s.putWalKeys wpath g).walKeys = Function.update s.walKeys wpath g := rfl
@[simp] theorem putWalKeys_cache : (s.putWalKeys wpath g).cache = s.cache := rfl
@[simp] theorem putWalKeys_providers : (s.putWalKeys wpath g).providers = s.providers := rfl
@[simp] theorem putWalKeys_databases : (s.putWalKeys wpath g).databases = s.databases := rfl
@[simp] theorem putWalKeys_xlog : (s.putWalKeys wpath g).xlog = s.xlog := rfl
@[simp] theorem putWalKeys_kms : (s.putWalKeys wpath g).kms = s.kms := rfl

@[simp] theorem putCache_keyFiles : (s.putCache dbOid k).keyFiles = s.keyFiles := rfl
@[simp] theorem putCache_walKeys : (s.putCache dbOid k).walKeys = s.walKeys := rfl
@[simp] theorem putCache_cache :
    (s.putCache dbOid k).cache = Function.update s.cache dbOid k := rfl
@[simp] theorem putCache_providers : (s.putCache dbOid k).providers = s.providers := rfl
@[simp] theorem putCache_databases : (s.putCache dbOid k).databases = s.databases := rfl
@[simp] theorem putCache_xlog : (s.putCache dbOid k).xlog = s.xlog := rfl
@[simp] theorem putCache_kms : (s.putCache dbOid k).kms = s.kms := rfl

@[simp] theorem logged_keyFiles : (s.logged rs).keyFiles = s.keyFiles := rfl
@[simp] theorem logged_walKeys : (s.logged rs).walKeys = s.walKeys := rfl
@[simp] theorem logged_cache : (s.logged rs).cache = s.cache := rfl
@[simp] theorem logged_providers : (s.logged rs).providers = s.providers := rfl
@[simp] theorem logged_databases : (s.logged rs).databases = s.databases := rfl
@[simp] theorem logged_xlog : (s.logged rs).xlog = s.xlog ++ rs := rfl
@[simp] theorem logged_kms : (s.logged rs).kms = s.kms := rfl
@[simp] theorem logged_nil : s.logged [] = s := by simp [Server.logged]

@[simp] theorem putKeyFile_self : s.putKeyFile path (s.keyFiles path) = s := by
  simp [Server.putKeyFile]

@[simp] theorem putKeyFile_putKeyFile (f' : Option KeyFile) :
    (s.putKeyFile path f).putKeyFile path f' = s.putKeyFile path f' := by
  simp [Server.putKeyFile]

theorem putKeyFile_comm {path' : KeyFilePath} (h : path' ≠ path) (f' : Option KeyFile) :
    (s.putKeyFile path f).putKeyFile path' f' = (s.putKeyFile path' f').putKeyFile path f := by
  simp only [Server.putKeyFile]
  rw [Function.update_comm h.symm]

@[simp] theorem putWalKeys_self : s.putWalKeys wpath (s.walKeys wpath) = s := by
  simp [Server.putWalKeys]

@[simp] theorem putWalKeys_putWalKeys (g' : Option WalKeyFile) :
    (s.putWalKeys wpath g).putWalKeys wpath g' = s.putWalKeys wpath g' := by
  simp [Server.putWalKeys]

theorem putWalKeys_comm {wpath' : WalKeyPath} (h : wpath' ≠ wpath) (g' : Option WalKeyFile) :
    (s.putWalKeys wpath g).putWalKeys wpath' g' =
      (s.putWalKeys wpath' g').putWalKeys wpath g := by
  simp only [Server.putWalKeys]
  rw [Function.update_comm h.symm]

end Puts

/-! ### What the calls leave alone

A step is quiet when it touches nothing but the three streams: it used some randomness, looked at
the clock, made system calls. Routines that compute a value or check something are quiet, and a
property of the files and of the cache survives them by definition. -/

/-- No system call fails from here on. -/
def Server.SysOk (s : Server) : Prop := ∀ i, s.sys i = true

def Quiet (s t : Server) : Prop :=
  ∃ rng clock sys, (s.SysOk → ∀ i, sys i = true) ∧
    t = { s with rng := rng, clock := clock, sys := sys }

theorem Quiet.refl (s : Server) : Quiet s s := ⟨s.rng, s.clock, s.sys, id, rfl⟩

theorem Quiet.sysOk {s t : Server} (h : Quiet s t) (hs : s.SysOk) : t.SysOk := by
  obtain ⟨rng, clock, sys, hsys, rfl⟩ := h
  exact hsys hs

theorem Quiet.trans {s t u : Server} (h : Quiet s t) (h' : Quiet t u) : Quiet s u := by
  have hok : s.SysOk → u.SysOk := fun hs => h'.sysOk (h.sysOk hs)
  obtain ⟨rng, clock, sys, -, rfl⟩ := h
  obtain ⟨rng', clock', sys', -, rfl⟩ := h'
  exact ⟨rng', clock', sys', hok, rfl⟩

section QuietSteps

variable {s t : Server}

theorem Quiet.keyFiles (h : Quiet s t) : t.keyFiles = s.keyFiles := by
  obtain ⟨_, _, _, _, rfl⟩ := h
  rfl

theorem Quiet.walKeys (h : Quiet s t) : t.walKeys = s.walKeys := by
  obtain ⟨_, _, _, _, rfl⟩ := h
  rfl

theorem Quiet.putKeyFile (h : Quiet s t) (path : KeyFilePath) (f : Option KeyFile) :
    Quiet (s.putKeyFile path f) (t.putKeyFile path f) := by
  obtain ⟨rng, clock, sys, hsys, rfl⟩ := h
  exact ⟨rng, clock, sys, hsys, rfl⟩

theorem Quiet.putWalKeys (h : Quiet s t) (path : WalKeyPath) (f : Option WalKeyFile) :
    Quiet (s.putWalKeys path f) (t.putWalKeys path f) := by
  obtain ⟨rng, clock, sys, hsys, rfl⟩ := h
  exact ⟨rng, clock, sys, hsys, rfl⟩

theorem Quiet.putCache (h : Quiet s t) (dbOid : Oid) (k : Option TDEPrincipalKey) :
    Quiet (s.putCache dbOid k) (t.putCache dbOid k) := by
  obtain ⟨rng, clock, sys, hsys, rfl⟩ := h
  exact ⟨rng, clock, sys, hsys, rfl⟩

theorem Quiet.logged (h : Quiet s t) (rs : List XLogRecord) :
    Quiet (s.logged rs) (t.logged rs) := by
  obtain ⟨rng, clock, sys, hsys, rfl⟩ := h
  exact ⟨rng, clock, sys, hsys, rfl⟩

end QuietSteps

section Specs

variable {s : Server}

theorem sysCall_spec (e : TdeError) :
    wp (sysCall e) (fun _ t => Quiet s t) (fun e' t => e' = e ∧ Quiet s t ∧ ¬s.SysOk) s := by
  simp only [sysCall, wp_bind, wp_get, wp_set, wp_ite, wp_pure, wp_throw, true_and]
  have hq : Quiet s { s with sys := fun i => s.sys (i + 1) } :=
    ⟨_, _, _, fun h i => h (i + 1), rfl⟩
  exact ⟨fun _ => hq, fun h => ⟨hq, fun hs => h (hs 0)⟩⟩

theorem randBytes_spec (n : ℕ) :
    wp (randBytes n) (fun l t => l.length = n ∧ Quiet s t) (fun _ t => Quiet s t ∧ ¬s.SysOk) s := by
  refine (wp_bind ..).2 ((sysCall_spec _).mono (fun _ t ht => ?_) fun _ _ h => h.2)
  simp only [wp_bind, wp_get, wp_set, wp_pure, List.length_ofFn, true_and]
  exact ht.trans ⟨_, _, _, id, rfl⟩

theorem getTimeOfDay_spec :
    wp getTimeOfDay (fun _ t => Quiet s t) (fun _ _ => False) s := by
  simp only [getTimeOfDay, wp_bind, wp_get, wp_set, wp_pure]
  exact ⟨_, _, _, id, rfl⟩

end Specs

/-! ### A small server for concrete runs -/

/-- Every provider keeps a key under every name; its bytes are the first byte of the name. -/
def sampleWorld : World where
  aead := Lib.Aead.transparent
  vault _ name := some ⟨name, List.replicate 16 (name.headD 0)⟩
  vault_name h := by cases h; rfl

def sampleProvider : KeyringProviderRecord := ⟨-1, [112], [], .file⟩

def sampleDatabase : DatabaseId := ⟨5, by decide, by decide⟩

/-- One database, one global provider, no keys yet. -/
def sampleServer : Server where
  providers oid := if oid = globalDataTdeOid then [sampleProvider] else []
  keyFiles _ := none
  walKeys _ := none
  cache _ := none
  databases := [sampleDatabase]
  xlog := []
  kms _ _ := .stored
  cipher := .aes128
  dataCipher := none
  rng i := UInt8.ofNat i
  clock _ := ⟨0, 0⟩
  sys _ := true

/-- The header that the key `A` of the sample provider gives the file of a scope when it is the
first thing that happens: sixteen random bytes are its initialisation vector. -/
def sampleInfo (dbOid : Oid) : TDESignedPrincipalKeyInfo :=
  let data : TDEPrincipalKeyInfo := ⟨dbOid, -1, ⟨0, 0⟩, [65]⟩
  let iv : List UInt8 := [0, 1, 2, 3, 4, 5, 6, 7, 8, 9, 10, 11, 12, 13, 14, 15]
  ⟨data, iv, List.replicate 16 65 ++ iv ++ data.bytes ++ []⟩

end OpenPgTde
