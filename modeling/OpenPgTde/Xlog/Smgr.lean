import OpenPgTde.PrincipalKey.Operations
import OpenPgTde.Xlog.CryptBuffer

/-!
The storage manager of encrypted WAL (`access/open_pg_tde_xlog_smgr.c`) and the key cache it reads
the ranges from (`access/open_pg_tde_xlog_keys.c`).

A process has a list of the ranges it has read from the key file, and the range it writes with. The
range that is in force at the end of the WAL is created when the server starts, without a start; the
first write gives it one. Where it starts is then in the key file and in shared memory, from which
the other processes learn that there is a range they have not read yet.
-/

namespace OpenPgTde

open Lib.Effect

/-! ### State -/

/-- The contents of `CurrentWalEncryptionRange` before it is set, and of the stub in the cache of a
process that found no ranges. -/
def noWalRange : WalEncryptionRange where
  type := .invalid
  key := ⟨.aes128, List.replicate 16 0, List.replicate 16 0, rfl⟩
  start := invalidWalLocation
  stop := maxWalLocation

/-- What a process remembers of the WAL keys. -/
structure WalProcess where
  /-- The list from `tde_wal_key_cache` to `tde_wal_key_last_rec`. -/
  cache : List WalEncryptionRange
  /-- `CurrentWalEncryptionRange`. -/
  current : WalEncryptionRange
  deriving DecidableEq

/-- A process that has not done anything with the WAL yet. -/
def WalProcess.initial : WalProcess := ⟨[], noWalRange⟩

/-- What the routines of a process work on: the server with its key file, the location in shared
memory (`EncryptionState`), and the memory of the process. -/
structure WalState where
  server : Server
  encKey : WalLocation
  process : WalProcess

abbrev X := EStateM TdeError WalState

/-- A routine that works on the server only. -/
def onServer {α : Type} (m : M α) : X α := fun x =>
  match m x.server with
  | .ok a s => .ok a { x with server := s }
  | .error e s => .error e { x with server := s }

def modifyProcess (f : WalProcess → WalProcess) : X Unit :=
  modify fun x => { x with process := f x.process }

/-! ### The key cache -/

/-- `open_pg_tde_free_wal_key_cache`. -/
def freeWalKeyCache : X Unit := modifyProcess fun p => { p with cache := [] }

/-- `open_pg_tde_add_wal_range_to_cache`: the last range so far ends where the new one starts. -/
def addWalRange (range : WalEncryptionRange) : List WalEncryptionRange → List WalEncryptionRange
  | [] => [range]
  | [last] => [{ last with stop := range.start }, range]
  | r :: r' :: cache => r :: addWalRange range (r' :: cache)

def addWalRangeToCache (range : WalEncryptionRange) : X Unit :=
  modifyProcess fun p => { p with cache := addWalRange range p.cache }

/-- The entries `open_pg_tde_fetch_wal_keys` does not skip: not marked, with a start, and at or
after the location. -/
def isFetched (start : WalLocation) (e : WalKeyFileEntry) : Bool :=
  e.rangeType ≠ .invalid && walLocationValid e.rangeStart &&
    walLocationCmp e.rangeStart start ≠ .lt

/-- `open_pg_tde_fetch_wal_keys`. -/
def fetchWalKeys (w : World) (start : WalLocation) : X Unit := do
  match ← onServer (getPrincipalKey w globalDataTdeOid) with
  | none => pure ()
  | some pk => do
    match ← onServer (openWalKeyFileRead .walKeys false) with
    | none => pure ()
    | some [] => addWalRangeToCache noWalRange
    | some entries =>
      forM (entries.filter (isFetched start)) fun e => do
        let range ← onServer (walRangeFromEntry w pk e)
        addWalRangeToCache range

/-- `open_pg_tde_read_last_wal_range`. -/
def readLastWalRange (w : World) : M (Option WalEncryptionRange) := do
  match ← getPrincipalKey w globalDataTdeOid with
  | none => pure none
  | some pk => do
    match ((← openWalKeyFileRead .walKeys false).getD []).getLast? with
    | none => pure none
    | some e => do
      let range ← walRangeFromEntry w pk e
      pure (some range)

/-! ### Starting -/

/-- The location from which all ranges are fetched. -/
def firstWalLocation : WalLocation := ⟨0, 1⟩

/-- The choice of the range to write with, in `TDEXLogSmgrInitWrite`. -/
def chooseWalRange (w : World) (encryptXlog : Bool) (keyLen : ℕ) (isUnderPostmaster : Bool)
    (range : Option WalEncryptionRange) : X Unit := do
  if isUnderPostmaster then
    match range with
    | some r => modifyProcess fun p => { p with current := r }
    | none => pure ()
  else if encryptXlog then
    let r ← onServer (createWalRange w .encrypted keyLen)
    modifyProcess fun p => { p with current := r }
  else match range with
    | some r =>
      if r.type = .encrypted then
        let r' ← onServer (createWalRange w .unencrypted keyLen)
        modifyProcess fun p => { p with current := r' }
      else modify fun x => { x with process := { x.process with current := r }, encKey := r.start }
    | none => pure ()

/-- `TDEXLogSmgrInitWrite`. -/
def xLogSmgrInitWrite (w : World) (encryptXlog : Bool) (keyLen : ℕ) (isUnderPostmaster : Bool) :
    X Unit := do
  freeWalKeyCache
  let range ← onServer (readLastWalRange w)
  chooseWalRange w encryptXlog keyLen isUnderPostmaster range
  if (← get).process.cache = [] then fetchWalKeys w firstWalLocation

/-! ### Writing and reading -/

/-- `tde_ensure_xlog_key_location`: the first write after the start gives the last range its
start, unless the server is in crash recovery or an older range starts at or after it. -/
def ensureXlogKeyLocation (loc : WalLocation) (crashRecovery : Bool) : X Bool := do
  let x ← get
  let lastKeyUsable := x.encKey.lsn ≠ 0
  let afterWriteKey := walLocationCmp x.encKey loc ≠ .gt
  if x.process.current.type ≠ .invalid ∧ ¬lastKeyUsable ∧ afterWriteKey ∧ crashRecovery = false ∧
      ∀ last ∈ x.process.cache.getLast?, walLocationCmp last.start loc = .lt then
    onServer (walLastRangeSetLocation loc)
    modify fun x => { x with
      process := { x.process with current := { x.process.current with start := loc } },
      encKey := loc }
    pure true
  else pure (lastKeyUsable && afterWriteKey)

/-- The part of `TDEXLogCryptBuffer` that fetches the range a write has located since. -/
def fetchNewWalKeys (w : World) : X Unit := do
  let x ← get
  if x.encKey.lsn ≠ 0 then
    match x.process.cache.getLast? with
    | none => pure ()
    | some last => if walLocationCmp last.start x.encKey = .lt then fetchWalKeys w x.encKey

/-- The part of `TDEXLogCryptBuffer` that brings the cache up to date. -/
def refreshWalKeys (w : World) : X Unit := do
  if (← get).process.cache = [] then fetchWalKeys w firstWalLocation
  fetchNewWalKeys w

/-- `TDEXLogCryptBuffer`. -/
def xLogCryptBuffer (w : World) (aes : BlockCipher) (sz : WalSegSz) (a : SegPos) (inPlace : Bool)
    (buf : List UInt8) : X (List UInt8) := do
  refreshWalKeys w
  let x ← get
  pure (cryptKeys aes sz a inPlace x.process.cache buf)

/-- `tdeheap_xlog_seg_write`: the bytes that are handed to `pg_pwrite`. -/
def tdeheapXlogSegWrite (w : World) (aes : BlockCipher) (sz : WalSegSz) (a : SegPos)
    (crashRecovery : Bool) (buf : List UInt8) : X (List UInt8) := do
  let lastKeyUsable ← ensureXlogKeyLocation (a.location sz) crashRecovery
  let x ← get
  if lastKeyUsable = false ∧ x.process.current.type ≠ .invalid then
    xLogCryptBuffer w aes sz a false buf
  else if x.process.current.type = .encrypted then
    let key := x.process.current.key
    pure (streamCrypt aes (calcXLogPageIVPrefix a.tli a.segno key.baseIv) a.offset buf key.key)
  else pure buf

/-- `tdeheap_xlog_seg_read`, on the bytes that `pg_pread` gave. -/
def tdeheapXlogSegRead (w : World) (aes : BlockCipher) (sz : WalSegSz) (a : SegPos)
    (buf : List UInt8) : X (List UInt8) :=
  xLogCryptBuffer w aes sz a true buf

end OpenPgTde
