import OpenPgTde.Frontend.Archive
import OpenPgTde.Lib.Schedule
import OpenPgTde.Rewind.Plan

/-!
How `pg_rewind` rewinds (`perform_rewind` of `pg_rewind/pg_rewind.c`, `pg_rewind/tde_ops.c`,
`pg_rewind/file_ops.c`).

The key directory of the source is copied to a temporary directory at the very beginning. Blocks that
are fetched for a relation of which other blocks stay are decrypted with the key that the source has
and encrypted with the key that the target has; when `pg_rewind` turns to another file, that key is put
into the temporary directory. WAL segments that stay go the other way, from the keys of the target to
those of the source. In the end the temporary directory takes the place of the one of the target.
A fatal error is `none`.
-/

namespace OpenPgTde

open Lib.Effect Lib.Splice

/-! ### State -/

/-- A key directory: what is in it apart from the keys of relations, and these keys. -/
structure TdeDir where
  server : Server
  smgrKeys : RelFileLocator → Option InternalKey

/-- What `pg_rewind` works with. Files of relations consist of whole pages. The source has no key
directory if it knows nothing of encryption. -/
structure RewindEnv where
  w : World
  aes : BlockCipher
  c : PageCipher
  sz : WalSegSz
  libpq : Bool
  sourceFile : List UInt8 → Option (List UInt8)
  sourceRel : RelFileLocator → ForkNumber → ℕ → Option (List Page)
  sourceTde : Option TdeDir
  targetTde : TdeDir

/-- `source_has_tde`. -/
def RewindEnv.sourceHasTde (env : RewindEnv) : Bool := env.sourceTde.isSome

/-- `current_file_data`. -/
structure CurrentFileData where
  sourceKey : InternalKey
  targetKey : InternalKey
  path : RewindPath
  rlocator : RelFileLocator
  segNo : ℕ

/-- The files of the target, the temporary key directory, and `current_tde_file` while it has a
source key. -/
structure RewindState where
  file : List UInt8 → Option (List UInt8)
  rel : RelFileLocator → ForkNumber → ℕ → Option (List Page)
  tmpSource : TdeDir
  current : Option CurrentFileData

/-- A directory without key files. -/
def emptyKeyDir (d : Server) : Server :=
  { d with
    providers := fun _ => []
    keyFiles := fun _ => none
    walKeys := fun _ => none
    cache := fun _ => none }

/-- The temporary key directory in the beginning. Where there is none, its name stays empty, and no key
file is found under such names. -/
def RewindEnv.tmpSource (env : RewindEnv) : TdeDir :=
  env.sourceTde.getD ⟨emptyKeyDir env.targetTde.server, fun _ => none⟩

def RewindState.putFile (st : RewindState) (path : List UInt8) (f : Option (List UInt8)) :
    RewindState :=
  { st with file := Function.update st.file path f }

@[simp] theorem RewindState.putFile_self (st : RewindState) (path : List UInt8)
    (f : Option (List UInt8)) : (st.putFile path f).file path = f := Function.update_self ..

theorem RewindState.putFile_other (st : RewindState) {path path' : List UInt8}
    (f : Option (List UInt8)) (h : path' ≠ path) : (st.putFile path f).file path' = st.file path' :=
  Function.update_of_ne h ..

def RewindState.putRel (st : RewindState) (rlocator : RelFileLocator) (fork : ForkNumber)
    (segNo : ℕ) (f : Option (List Page)) : RewindState :=
  let forks := Function.update (st.rel rlocator) fork (Function.update (st.rel rlocator fork) segNo f)
  { st with rel := Function.update st.rel rlocator forks }

/-! ### Keys of relations -/

/-- `path_rlocator`. The number of a segment is not found behind the name of a fork. -/
def pathRlocator : RewindPath → Option (RelFileLocator × ℕ)
  | .file _ => none
  | .rel rlocator fork segNo => some (rlocator, if fork = .main then segNo else 0)

/-- `tde_reencrypt_block`, for a block of the current file. -/
def tdeReencryptBlock (c : PageCipher) (current : Option CurrentFileData) (fork : ForkNumber)
    (block : ℕ) (page : Page) : Page :=
  match current with
  | none => page
  | some data =>
    let blkno := block + data.segNo * relSegSize
    tdeEncryptSmgrBlock c data.targetKey fork blkno
      (tdeDecryptSmgrBlock c data.sourceKey fork blkno page)

/-- `reencrypt_fork`. -/
def reencryptFork (c : PageCipher) (data : CurrentFileData) (fork : ForkNumber) (st : RewindState) :
    RewindState :=
  match st.rel data.rlocator fork 0 with
  | none => st
  | some pages =>
    st.putRel data.rlocator fork 0 (some (pages.mapIdx (tdeReencryptBlock c (some data) fork)))

/-- `flush_current_tde_rel_key`. -/
def flushCurrentTdeRelKey (c : PageCipher) (st : RewindState) : RewindState :=
  match st.current with
  | none => st
  | some data =>
    let st := reencryptFork c data .fsm st
    let st := reencryptFork c data .visibilityMap st
    let keys := Function.update st.tmpSource.smgrKeys data.rlocator (some data.targetKey)
    { st with tmpSource := { st.tmpSource with smgrKeys := keys }, current := none }

/-- `ensure_tde_keys`. -/
def ensureTdeKeys (env : RewindEnv) (path : RewindPath) (st : RewindState) : Option RewindState :=
  if env.sourceHasTde = false then some st
  else if st.current.map (·.path) = some path then some st
  else
    let st := flushCurrentTdeRelKey env.c st
    match pathRlocator path with
    | none => some st
    | some (rlocator, segNo) =>
      match st.tmpSource.smgrKeys rlocator, env.targetTde.smgrKeys rlocator with
      | none, _ => some st
      | some _, none => none
      | some sourceKey, some targetKey =>
        some { st with current := some ⟨sourceKey, targetKey, path, rlocator, segNo⟩ }

/-! ### WAL segments -/

/-- `TDEXLogCryptBuffer` in place, after `open_pg_tde_set_data_dir`. -/
def cryptPage (env : RewindEnv) (d : Server) (a : SegPos) (page : List UInt8) : Option (List UInt8) :=
  match xLogCryptBufferFe env.w env.aes env.sz a true page (openKeyDir d) with
  | .ok page _ => some page
  | .error _ _ => none

/-- The loop of `ensure_tde_wal_seg`, with the number of turns that are left. -/
def reencryptPages (env : RewindEnv) (tmpSource : Server) (tli segno : ℕ) :
    ℕ → ℕ → List UInt8 → Option (List UInt8)
  | 0, _, file => some file
  | turns + 1, offset, file => do
    let page := slice file offset xlogBlcksz
    if page = [] then some file
    else do
      let plain ← cryptPage env env.targetTde.server ⟨tli, segno, offset⟩ page
      let bytes ← cryptPage env tmpSource ⟨tli, segno, offset⟩ plain
      reencryptPages env tmpSource tli segno turns (offset + page.length)
        (overwrite file offset bytes)

/-- `ensure_tde_wal_seg`: what becomes of the file, if it is there. -/
def ensureTdeWalSeg (env : RewindEnv) (tmpSource : Server) (relpath : List UInt8) :
    Option (List UInt8) → Option (Option (List UInt8))
  | none => some none
  | some file => do
    let (tli, segno) := xLogFromFileName env.sz (lastComponent relpath)
    let file ← reencryptPages env tmpSource tli segno file.length 0 file
    some (some file)

/-- A turn of the loop of `ensure_tde_archive_wal`. -/
def ensureTdeArchiveSeg (env : RewindEnv) (keepwal : List (List UInt8)) (st : RewindState)
    (segpath : List UInt8) : Option RewindState := do
  if keepwalEntryExists keepwal segpath then some st
  else
    let file ← ensureTdeWalSeg env st.tmpSource.server segpath (st.file segpath)
    some (st.putFile segpath file)

/-! ### Files -/

section Files

variable {α : Type}

/-- `write_target_range`, to a file that `open_target_file` has made if there was none. -/
def writeTargetRange (zero : α) (file : Option (List α)) (begin_ : ℕ) (data : List α) :
    Option (List α) :=
  let old := file.getD []
  some (if data = [] then old
    else overwrite (old ++ List.replicate (begin_ - old.length) zero) begin_ data)

/-- `truncate_target_file`. -/
def truncateTargetFile (zero : α) (newsize : ℕ) :
    Option (List α) → Option (Option (List α))
  | none => none
  | some old => some (some (old.take newsize ++ List.replicate (newsize - old.length) zero))

/-- `remove_target_file`, for a file that must be there. -/
def removeTargetFile : Option (List α) → Option (Option (List α))
  | none => none
  | some _ => some none

/-- What a source has for a request. A server tells that the file is gone; a local file must be there,
and must have the size that it had before. -/
def fetchData (libpq : Bool) (rq : FetchRangeRequest) (unit : ℕ) :
    Option (List α) → Option (Option (List α))
  | none => if libpq then some none else none
  | some src =>
    let data := slice src (rq.offset / unit) (rq.length / unit)
    let whole := if rq.encrypt then data else src
    if libpq = false ∧ whole.length ≠ rq.length / unit then none else some (some data)

end Files

/-! ### Steps -/

/-- The keys for a chunk are looked up where it may need re-encryption. -/
def ensureChunkKeys (env : RewindEnv) (rq : FetchRangeRequest) (st : RewindState) :
    Option RewindState :=
  if rq.encrypt then ensureTdeKeys env rq.path st else some st

/-- A chunk is received and written: `local_queue_fetch_file`, `local_queue_fetch_range`, or a row in
`process_queued_fetch_requests`. -/
def fetchChunk (env : RewindEnv) (rq : FetchRangeRequest) (st : RewindState) : Option RewindState :=
  match rq.path with
  | .file path => do
    match ← fetchData env.libpq rq 1 (env.sourceFile path) with
    | none => some (st.putFile path none)
    | some data =>
      let st ← ensureChunkKeys env rq st
      some (st.putFile path (writeTargetRange 0 (st.file path) rq.offset data))
  | .rel rlocator fork segNo => do
    match ← fetchData env.libpq rq blckSz (env.sourceRel rlocator fork segNo) with
    | none => some (st.putRel rlocator fork segNo none)
    | some data =>
      let st ← ensureChunkKeys env rq st
      let block := rq.offset / blckSz
      let data := if rq.encrypt then
        data.mapIdx fun i page => tdeReencryptBlock env.c st.current .main (block + i) page else data
      some (st.putRel rlocator fork segNo
        (writeTargetRange 0 (st.rel rlocator fork segNo) block data))

/-- A file of the target, changed by a routine. -/
def RewindState.change (st : RewindState) (path : RewindPath)
    (onFile : Option (List UInt8) → Option (Option (List UInt8)))
    (onRel : Option (List Page) → Option (Option (List Page))) : Option RewindState :=
  match path with
  | .file path => (onFile (st.file path)).map (st.putFile path)
  | .rel rlocator fork segNo =>
    (onRel (st.rel rlocator fork segNo)).map (st.putRel rlocator fork segNo)

/-- A step. Segments of the WAL are not files of a relation. -/
def performStep (env : RewindEnv) (st : RewindState) : RewindStep → Option RewindState
  | .openTarget path => st.change path (fun _ => some (some [])) fun _ => some (some [])
  | .chunk rq => fetchChunk env rq st
  | .ensureTdeKeys path => ensureTdeKeys env path st
  | .ensureWalSeg (.file path) =>
    st.change (.file path) (ensureTdeWalSeg env st.tmpSource.server path) fun _ => none
  | .ensureWalSeg (.rel ..) => none
  | .truncate path newsize =>
    st.change path (truncateTargetFile 0 newsize) (truncateTargetFile 0 (newsize / blckSz))
  | .remove path => st.change path removeTargetFile removeTargetFile

/-- `perform_rewind`, up to `fetch_tde_dir`: the files of the target and its key directory. -/
def performRewind (env : RewindEnv) (keepwal archiveWalSegments : List (List UInt8))
    (entries : List FileEntry) (st : RewindState) : Option (RewindState × TdeDir) := do
  let st ← (scheduleEntries env.libpq entries).foldlM (performStep env) st
  let st := flushCurrentTdeRelKey env.c st
  let st ← archiveWalSegments.foldlM (ensureTdeArchiveSeg env keepwal) st
  some (st, if env.sourceHasTde then st.tmpSource else env.targetTde)

/-! ### What becomes of a file that is not one of a relation -/

section File

variable {env : RewindEnv} {c : PageCipher} {st st' : RewindState}

/-- What keys of relations are replaced, and which files of relations change, is left open. -/
structure SameFiles (st st' : RewindState) : Prop where
  file : st'.file = st.file
  server : st'.tmpSource.server = st.tmpSource.server

theorem SameFiles.trans {st₁ st₂ st₃ : RewindState} (h : SameFiles st₁ st₂) (h' : SameFiles st₂ st₃) :
    SameFiles st₁ st₃ :=
  ⟨h'.file.trans h.file, h'.server.trans h.server⟩

theorem reencryptFork_sameFiles (data : CurrentFileData) (fork : ForkNumber) (st : RewindState) :
    SameFiles st (reencryptFork c data fork st) := by
  unfold reencryptFork
  split
  · exact ⟨rfl, rfl⟩
  · exact ⟨rfl, rfl⟩

theorem flushCurrentTdeRelKey_sameFiles (st : RewindState) :
    SameFiles st (flushCurrentTdeRelKey c st) := by
  unfold flushCurrentTdeRelKey
  split
  · exact ⟨rfl, rfl⟩
  · rename_i data _
    have hforks := (reencryptFork_sameFiles (c := c) data .fsm st).trans
      (reencryptFork_sameFiles (c := c) data .visibilityMap _)
    exact ⟨hforks.file, hforks.server⟩

theorem ensureTdeKeys_sameFiles {path : RewindPath} (h : ensureTdeKeys env path st = some st') :
    SameFiles st st' := by
  have hflush : SameFiles st (flushCurrentTdeRelKey env.c st) := flushCurrentTdeRelKey_sameFiles st
  unfold ensureTdeKeys at h
  split at h
  · cases h
    exact ⟨rfl, rfl⟩
  · split at h
    · cases h
      exact ⟨rfl, rfl⟩
    · dsimp only at h
      split at h
      · cases h
        exact hflush
      · split at h
        · cases h
          exact hflush
        · cases h
        · cases h
          exact ⟨hflush.file, hflush.server⟩

theorem ensureChunkKeys_sameFiles {rq : FetchRangeRequest}
    (h : ensureChunkKeys env rq st = some st') : SameFiles st st' := by
  unfold ensureChunkKeys at h
  split at h
  · exact ensureTdeKeys_sameFiles h
  · cases h
    exact ⟨rfl, rfl⟩

/-- What a step on a file does to it. -/
def fileStep (env : RewindEnv) (server : Server) (path : List UInt8) (file : Option (List UInt8)) :
    RewindStep → Option (Option (List UInt8))
  | .openTarget _ => some (some [])
  | .chunk rq => (fetchData env.libpq rq 1 (env.sourceFile path)).map fun data =>
    data.bind fun data => writeTargetRange 0 file rq.offset data
  | .ensureTdeKeys _ => some file
  | .ensureWalSeg _ => ensureTdeWalSeg env server path file
  | .truncate _ newsize => truncateTargetFile 0 newsize file
  | .remove _ => removeTargetFile file

theorem change_eq {path : RewindPath} {onFile onRel} (h : st.change path onFile onRel = some st') :
    st'.tmpSource = st.tmpSource ∧
      (∀ name, path = .file name → onFile (st.file name) = some (st'.file name)) ∧
      ∀ name, path ≠ .file name → st'.file name = st.file name := by
  cases path with
  | file path =>
      obtain ⟨f, hf, rfl⟩ := Option.map_eq_some_iff.1 h
      refine ⟨rfl, fun name hname => ?_, fun name hname => ?_⟩
      · cases hname
        rw [RewindState.putFile_self, hf]
      · exact RewindState.putFile_other _ _ fun h => hname (congrArg _ h.symm)
  | rel rlocator fork segNo =>
      obtain ⟨f, hf, rfl⟩ := Option.map_eq_some_iff.1 h
      exact ⟨rfl, fun _ hname => (nomatch hname), fun _ _ => rfl⟩

theorem fetchChunk_eq {rq : FetchRangeRequest} (h : fetchChunk env rq st = some st') :
    st'.tmpSource.server = st.tmpSource.server ∧
      (∀ name, rq.path = .file name →
        fileStep env st.tmpSource.server name (st.file name) (.chunk rq) = some (st'.file name)) ∧
      ∀ name, rq.path ≠ .file name → st'.file name = st.file name := by
  unfold fetchChunk at h
  split at h
  · rename_i path hpath
    obtain ⟨data, hdata, h⟩ := Option.bind_eq_some_iff.1 h
    have hother : ∀ name, rq.path ≠ .file name → name ≠ path :=
      fun name hname heq => hname (heq ▸ hpath)
    cases data with
    | none =>
        cases h
        refine ⟨rfl, fun name hname => ?_, fun name hname => ?_⟩
        · obtain rfl : path = name := by simpa [hpath] using hname
          simp [fileStep, hdata]
        · exact RewindState.putFile_other _ _ (hother name hname)
    | some data =>
        obtain ⟨st₁, h₁, h⟩ := Option.bind_eq_some_iff.1 h
        have hsame := ensureChunkKeys_sameFiles h₁
        cases h
        refine ⟨hsame.server, fun name hname => ?_, fun name hname => ?_⟩
        · obtain rfl : path = name := by simpa [hpath] using hname
          simp [fileStep, hdata, hsame.file]
        · rw [RewindState.putFile_other _ _ (hother name hname), hsame.file]
  · rename_i rlocator fork segNo hpath
    obtain ⟨data, hdata, h⟩ := Option.bind_eq_some_iff.1 h
    cases data with
    | none =>
        cases h
        exact ⟨rfl, fun name hname => by simp [hpath] at hname, fun _ _ => rfl⟩
    | some data =>
        obtain ⟨st₁, h₁, h⟩ := Option.bind_eq_some_iff.1 h
        have hsame := ensureChunkKeys_sameFiles h₁
        cases h
        exact ⟨hsame.server, fun name hname => by simp [hpath] at hname, fun name _ =>
          congrFun hsame.file name⟩

/-- A step changes the file that it is about, in the way that `fileStep` says. -/
theorem performStep_eq {step : RewindStep} (h : performStep env st step = some st') :
    st'.tmpSource.server = st.tmpSource.server ∧
      (∀ name, step.path = .file name →
        fileStep env st.tmpSource.server name (st.file name) step = some (st'.file name)) ∧
      ∀ name, step.path ≠ .file name → st'.file name = st.file name := by
  cases step with
  | openTarget path =>
      rw [performStep] at h
      obtain ⟨htmp, hself, hother⟩ := change_eq h
      exact ⟨congrArg _ htmp, hself, hother⟩
  | chunk rq => exact fetchChunk_eq h
  | ensureTdeKeys path =>
      have hsame := ensureTdeKeys_sameFiles h
      exact ⟨hsame.server, fun name _ => by simp [fileStep, hsame.file], fun name _ => by
        rw [hsame.file]⟩
  | ensureWalSeg path =>
      cases path with
      | file path =>
          rw [performStep] at h
          obtain ⟨htmp, hself, hother⟩ := change_eq h
          refine ⟨congrArg _ htmp, fun name hname => ?_, hother⟩
          cases hname
          exact hself path rfl
      | rel => cases h
  | truncate path newsize =>
      rw [performStep] at h
      obtain ⟨htmp, hself, hother⟩ := change_eq h
      exact ⟨congrArg _ htmp, hself, hother⟩
  | remove path =>
      rw [performStep] at h
      obtain ⟨htmp, hself, hother⟩ := change_eq h
      exact ⟨congrArg _ htmp, hself, hother⟩

/-- What the steps on a file make of it. -/
theorem performSteps_file {steps : List RewindStep} (path : List UInt8)
    (h : steps.foldlM (performStep env) st = some st') :
    st'.tmpSource.server = st.tmpSource.server ∧
      (onPath (.file path) steps).foldlM (fileStep env st.tmpSource.server path) (st.file path) =
        some (st'.file path) := by
  have hkeep : ∀ {st₁ : RewindState} {step st₂},
      st₁.tmpSource.server = st.tmpSource.server → performStep env st₁ step = some st₂ →
        st₂.tmpSource.server = st.tmpSource.server :=
    fun hserver hstep => (performStep_eq hstep).1.trans hserver
  refine ⟨Lib.Schedule.foldlM_invariant (fun st₁ => st₁.tmpSource.server = st.tmpSource.server)
    hkeep rfl h, ?_⟩
  refine Lib.Schedule.foldlM_component (fun st₁ => st₁.tmpSource.server = st.tmpSource.server)
    (fun st₁ : RewindState => st₁.file path) hkeep ?_ ?_ rfl h
  · intro st₁ step st₂ hserver hstep hon
    rw [← hserver]
    exact (performStep_eq hstep).2.1 path (by simpa using hon)
  · intro st₁ step st₂ hserver hstep hon
    exact (performStep_eq hstep).2.2 path (by simpa using hon)

end File

end OpenPgTde
