import OpenPgTde.Keyring.Options
import OpenPgTde.Smgr.Relation

/-!
What `pg_rewind` does to which file, and in which order (`pg_rewind/filemap.c`, `perform_rewind` of
`pg_rewind/pg_rewind.c`, `pg_rewind/local_source.c`, `pg_rewind/libpq_source.c`).

The files of source and target are compared and every file gets an action. The actions are then
carried out in the order of the file map. A local source is read at once; requests to a server are
queued in chunks, and the queue is worked off when it is full and at the end. What is done and in which
order does not depend on what is in the files, so it is computed first (`scheduleEntries`), as a list of
steps. The steps that concern one file are those of its own entry, in their order, wherever the queue
was worked off (`onPath_schedule`).
-/

namespace OpenPgTde

/-! ### Files and actions -/

/-- `RELSEG_SIZE`. -/
def relSegSize : ℕ := 131072

/-- A file of a data directory, relative to it: a segment of a fork of a relation, or any other. -/
inductive RewindPath
  | file (path : List UInt8)
  | rel (rlocator : RelFileLocator) (fork : ForkNumber) (segNo : ℕ)
  deriving DecidableEq

/-- `file_action_t`, once it is decided. -/
inductive FileAction
  | create
  | copy
  | copyTail
  | none
  | truncate
  | remove
  | ensureTdeKey
  | ensureWalSeg
  deriving DecidableEq, Repr

/-- `file_entry_t` of a regular file: the sizes where it exists, and the blocks to overwrite. -/
structure FileEntry where
  path : RewindPath
  targetSize : Option ℕ
  sourceSize : Option ℕ
  targetPagesToOverwrite : List ℕ
  action : FileAction

/-- `excludeDirContents`. -/
def excludeDirContents : List (List UInt8) :=
  [ascii "pg_stat_tmp", ascii "pg_replslot", ascii "pg_dynshmem", ascii "pg_notify",
    ascii "pg_serial", ascii "pg_snapshots", ascii "pg_subtrans"]

/-- `excludeFiles`: the name, and whether a longer name that starts with it is meant too. -/
def excludeFiles : List (List UInt8 × Bool) :=
  [(ascii "postgresql.auto.conf.tmp", false), (ascii "current_logfiles.tmp", false),
    (ascii "pg_internal.init", true), (ascii "backup_label", false),
    (ascii "tablespace_map", false), (ascii "backup_manifest", false),
    (ascii "postmaster.pid", false), (ascii "postmaster.opts", false)]

/-- What follows the last `/`. -/
def lastComponent (path : List UInt8) : List UInt8 :=
  (path.reverse.takeWhile fun c => c ≠ 47).reverse

/-- Whether `strstr` finds the second text in the first one. -/
def strstr (text needle : List UInt8) : Bool := text.tails.any needle.isPrefixOf

/-- `check_file_excluded`. -/
def checkFileExcluded (path : List UInt8) : Bool :=
  strstr path (ascii "/pgsql_tmp") ||
    excludeFiles.any (fun item =>
      if item.2 then item.1.isPrefixOf (lastComponent path) else item.1 = lastComponent path) ||
    excludeDirContents.any fun dir => (dir ++ ascii "/").isPrefixOf path

/-- `keepwal_entry_exists`. -/
def keepwalEntryExists (keepwal : List (List UInt8)) (path : List UInt8) : Bool :=
  keepwal.contains path

/-- `decide_file_action`, for regular files with these sizes. -/
def decideFileAction (keepwal : List (List UInt8)) (path : RewindPath)
    (targetSize sourceSize : Option ℕ) : FileAction :=
  match path with
  | .file path =>
    if path = ascii "global/pg_control" then .none
    else if strstr path (ascii ".DS_Store") then .none
    else if (ascii "open_pg").isPrefixOf path then .none
    else if checkFileExcluded path then
      if targetSize.isSome then .remove else .none
    else
      match targetSize, sourceSize with
      | none, some _ => .copy
      | some _, none => if keepwalEntryExists keepwal path then .ensureWalSeg else .remove
      | none, none => .none
      | some _, some _ => if (ascii "PG_VERSION").isSuffixOf path then .none else .copy
  | .rel _ fork _ =>
    match targetSize, sourceSize with
    | none, some _ => .copy
    | some _, none => .remove
    | none, none => .none
    | some target, some source =>
      if fork ≠ .main then .copy
      else if target < source then .copyTail
      else if source < target then .truncate
      else .ensureTdeKey

/-! ### Steps -/

structure FetchRangeRequest where
  path : RewindPath
  offset : ℕ
  length : ℕ
  encrypt : Bool
  deriving DecidableEq

/-- What is done to a file. A step `chunk` writes what the source has there. -/
inductive RewindStep
  | openTarget (path : RewindPath)
  | chunk (rq : FetchRangeRequest)
  | ensureTdeKeys (path : RewindPath)
  | ensureWalSeg (path : RewindPath)
  | truncate (path : RewindPath) (newsize : ℕ)
  | remove (path : RewindPath)
  deriving DecidableEq

def RewindStep.path : RewindStep → RewindPath
  | openTarget path => path
  | chunk rq => rq.path
  | ensureTdeKeys path => path
  | ensureWalSeg path => path
  | truncate path _ => path
  | remove path => path

/-! ### The sources -/

/-- `MAX_CHUNK_SIZE`. -/
def maxChunkSize : ℕ := 1024 * 1024

/-- `MAX_CHUNKS_PER_QUERY`. -/
def maxChunksPerQuery : ℕ := 1000

/-- What has been done, and what has been requested and not been fetched. -/
structure Schedule where
  done : List RewindStep
  requestQueue : List FetchRangeRequest

def Schedule.perform (s : Schedule) (steps : List RewindStep) : Schedule :=
  { s with done := s.done ++ steps }

/-- `process_queued_fetch_requests`. -/
def Schedule.processQueued (s : Schedule) : Schedule :=
  ⟨s.done ++ s.requestQueue.map .chunk, []⟩

/-- The loop of `libpq_queue_process_fetch_range`, for at most so many pieces. -/
def queuePieces (path : RewindPath) (encrypt : Bool) : ℕ → ℕ → ℕ → Schedule → Schedule
  | 0, _, _, s => s
  | pieces + 1, off, len, s =>
    if len = 0 then s
    else
      let s := if s.requestQueue.length = maxChunksPerQuery then s.processQueued else s
      let thislen := min len maxChunkSize
      queuePieces path encrypt pieces (off + thislen) (len - thislen)
        { s with requestQueue := s.requestQueue ++ [⟨path, off, thislen, encrypt⟩] }

/-- `libpq_queue_process_fetch_range`. -/
def libpqQueueProcessFetchRange (path : RewindPath) (encrypt : Bool) (off len : ℕ)
    (s : Schedule) : Schedule :=
  match s.requestQueue.getLast? with
  | some prev =>
    if prev.offset + prev.length = off ∧ prev.length < maxChunkSize ∧ prev.path = path then
      let thislen := min len (maxChunkSize - prev.length)
      let prev := { prev with length := prev.length + thislen }
      queuePieces path encrypt (len / maxChunkSize + 1) (off + thislen) (len - thislen)
        { s with requestQueue := s.requestQueue.dropLast ++ [prev] }
    else queuePieces path encrypt (len / maxChunkSize + 1) off len s
  | none => queuePieces path encrypt (len / maxChunkSize + 1) off len s

/-- `queue_fetch_file` of the source, which is a server or a local directory. -/
def queueFetchFile (libpq : Bool) (path : RewindPath) (len : ℕ) (s : Schedule) : Schedule :=
  let s := s.perform [.openTarget path]
  if libpq then libpqQueueProcessFetchRange path false 0 (max len maxChunkSize) s
  else s.perform [.chunk ⟨path, 0, len, false⟩]

/-- `queue_fetch_range` of the source. -/
def queueFetchRange (libpq : Bool) (path : RewindPath) (off len : ℕ) (s : Schedule) : Schedule :=
  if libpq then libpqQueueProcessFetchRange path true off len s
  else s.perform [.chunk ⟨path, off, len, true⟩]

/-! ### The loop of `perform_rewind` -/

def scheduleEntry (libpq : Bool) (s : Schedule) (e : FileEntry) : Schedule :=
  let s := e.targetPagesToOverwrite.foldl
    (fun s blkno => queueFetchRange libpq e.path (blkno * blckSz) blckSz s) s
  match e.action with
  | .create => s
  | .none => s
  | .ensureTdeKey =>
    if e.targetPagesToOverwrite = [] then s.perform [.ensureTdeKeys e.path] else s
  | .ensureWalSeg => s.perform [.ensureWalSeg e.path]
  | .copy => queueFetchFile libpq e.path (e.sourceSize.getD 0) s
  | .truncate =>
    let s := s.perform [.truncate e.path (e.sourceSize.getD 0)]
    if e.targetPagesToOverwrite = [] then s.perform [.ensureTdeKeys e.path] else s
  | .copyTail =>
    queueFetchRange libpq e.path (e.targetSize.getD 0)
      (e.sourceSize.getD 0 - e.targetSize.getD 0) s
  | .remove => s.perform [.remove e.path]

/-- All steps up to `finish_fetch`. -/
def scheduleEntries (libpq : Bool) (entries : List FileEntry) : List RewindStep :=
  (entries.foldl (scheduleEntry libpq) ⟨[], []⟩).processQueued.done

/-! ### The steps of one file -/

/-- The steps on a path. -/
def onPath (path : RewindPath) (steps : List RewindStep) : List RewindStep :=
  steps.filter fun step => step.path = path

@[simp] theorem onPath_append (path : RewindPath) (steps steps' : List RewindStep) :
    onPath path (steps ++ steps') = onPath path steps ++ onPath path steps' :=
  List.filter_append ..

theorem onPath_eq_nil {path : RewindPath} {steps : List RewindStep}
    (h : ∀ step ∈ steps, step.path ≠ path) : onPath path steps = [] := by
  rw [onPath, List.filter_eq_nil_iff]
  simpa using h

/-- The steps on a path that were done or are in the queue. -/
def Schedule.on (s : Schedule) (path : RewindPath) : List RewindStep :=
  onPath path (s.processQueued.done)

section Queue

variable {s : Schedule} {path path' : RewindPath} {encrypt : Bool}

theorem Schedule.on_processQueued : s.processQueued.on path = s.on path := by
  simp [Schedule.on, Schedule.processQueued]

theorem Schedule.on_of_empty (h : s.requestQueue = []) : s.on path = onPath path s.done := by
  simp [Schedule.on, Schedule.processQueued, h]

/-- A step on a path of which nothing is in the queue comes behind the others on this path. -/
theorem Schedule.on_perform {steps : List RewindStep}
    (h : ∀ rq ∈ s.requestQueue, rq.path ≠ path ∨ ∀ step ∈ steps, step.path ≠ path) :
    (s.perform steps).on path = s.on path ++ onPath path steps := by
  simp only [Schedule.on, Schedule.processQueued, Schedule.perform, onPath_append]
  by_cases hsteps : ∀ step ∈ steps, step.path ≠ path
  · simp [onPath_eq_nil hsteps]
  · have hqueue : onPath path (s.requestQueue.map .chunk) = [] := by
      rw [onPath, List.filter_eq_nil_iff]
      simp only [List.mem_map, forall_exists_index, and_imp, forall_apply_eq_imp_iff₂,
        decide_eq_true_eq]
      exact fun rq hrq => (h rq hrq).resolve_right hsteps
    simp [hqueue]

/-- A request at the end of the queue. -/
theorem Schedule.on_push (rq : FetchRangeRequest) :
    ({ s with requestQueue := s.requestQueue ++ [rq] } : Schedule).on path =
      s.on path ++ onPath path [.chunk rq] := by
  simp [Schedule.on, Schedule.processQueued]

/-- A request that grows is still on its path. -/
theorem Schedule.on_grow {prev rq : FetchRangeRequest} (h : s.requestQueue.getLast? = some prev)
    (hprev : prev.path ≠ path) (hrq : rq.path ≠ path) :
    ({ s with requestQueue := s.requestQueue.dropLast ++ [rq] } : Schedule).on path = s.on path := by
  obtain ⟨init, hinit⟩ := List.getLast?_eq_some_iff.1 h
  simp [Schedule.on, Schedule.processQueued, hinit, onPath, RewindStep.path, hprev, hrq]

/-- The pieces of a request. -/
def requestPieces (path : RewindPath) (encrypt : Bool) : ℕ → ℕ → ℕ → List FetchRangeRequest
  | 0, _, _ => []
  | pieces + 1, off, len =>
    if len = 0 then []
    else
      ⟨path, off, min len maxChunkSize, encrypt⟩ ::
        requestPieces path encrypt pieces (off + min len maxChunkSize) (len - min len maxChunkSize)

theorem requestPieces_path {pieces off len : ℕ} :
    ∀ rq ∈ requestPieces path encrypt pieces off len, rq.path = path := by
  induction pieces generalizing off len with
  | zero => simp [requestPieces]
  | succ pieces ih =>
      intro rq hrq
      unfold requestPieces at hrq
      split at hrq
      · simp at hrq
      · obtain rfl | hrq := List.mem_cons.1 hrq
        · rfl
        · exact ih rq hrq

theorem queuePieces_on {pieces off len : ℕ} :
    (queuePieces path encrypt pieces off len s).on path' =
      s.on path' ++ onPath path' ((requestPieces path encrypt pieces off len).map .chunk) := by
  induction pieces generalizing off len s with
  | zero => simp [queuePieces, requestPieces, onPath]
  | succ pieces ih =>
      unfold queuePieces requestPieces
      split
      · simp [onPath]
      · have hcons : ∀ (step : RewindStep) (steps : List RewindStep),
            onPath path' (step :: steps) = onPath path' [step] ++ onPath path' steps :=
          fun step steps => onPath_append path' [step] steps
        conv_rhs => rw [List.map_cons, hcons]
        rw [ih, Schedule.on_push, List.append_assoc]
        congr 1
        split
        · exact Schedule.on_processQueued
        · rfl

theorem mem_queuePieces {pieces off len : ℕ} {rq : FetchRangeRequest}
    (h : rq ∈ (queuePieces path encrypt pieces off len s).requestQueue) :
    rq ∈ s.requestQueue ∨ rq.path = path := by
  induction pieces generalizing off len s with
  | zero => exact .inl h
  | succ pieces ih =>
      unfold queuePieces at h
      split at h
      · exact .inl h
      · obtain h | h := ih h
        · obtain h | h := List.mem_append.1 h
          · split at h
            · simp [Schedule.processQueued] at h
            · exact .inl h
          · rw [List.mem_singleton.1 h]
            exact .inr rfl
        · exact .inr h

/-- A request does not concern other paths. -/
theorem libpqQueueProcessFetchRange_other {off len : ℕ} (h : path ≠ path') :
    (libpqQueueProcessFetchRange path encrypt off len s).on path' = s.on path' := by
  have hpieces : ∀ {s : Schedule} {pieces off len}, (queuePieces path encrypt pieces off len s).on
      path' = s.on path' := by
    intro s pieces off len
    rw [queuePieces_on]
    have hnil : onPath path' ((requestPieces path encrypt pieces off len).map .chunk) = [] := by
      rw [onPath, List.filter_eq_nil_iff]
      simp only [List.mem_map, forall_exists_index, and_imp, forall_apply_eq_imp_iff₂,
        decide_eq_true_eq]
      intro rq hrq heq
      exact h ((requestPieces_path rq hrq).symm.trans heq)
    rw [hnil, List.append_nil]
  unfold libpqQueueProcessFetchRange
  split
  · rename_i prev hprev
    split
    · rename_i hmerge
      have hne : prev.path ≠ path' := hmerge.2.2 ▸ h
      exact hpieces.trans (Schedule.on_grow hprev hne (by exact hne))
    · exact hpieces
  · exact hpieces

theorem libpqQueueProcessFetchRange_self {off len : ℕ} (h : ∀ rq ∈ s.requestQueue, rq.path ≠ path) :
    (libpqQueueProcessFetchRange path encrypt off len s).on path =
      s.on path ++ (requestPieces path encrypt (len / maxChunkSize + 1) off len).map .chunk := by
  have hall : onPath path ((requestPieces path encrypt (len / maxChunkSize + 1) off len).map .chunk) =
      (requestPieces path encrypt (len / maxChunkSize + 1) off len).map .chunk := by
    rw [onPath, List.filter_eq_self]
    simp only [List.mem_map, forall_exists_index, and_imp, forall_apply_eq_imp_iff₂,
      decide_eq_true_eq]
    exact requestPieces_path
  unfold libpqQueueProcessFetchRange
  split
  · rename_i prev hprev
    rw [if_neg fun hmerge => h prev (List.mem_of_getLast? hprev) hmerge.2.2, queuePieces_on, hall]
  · rw [queuePieces_on, hall]

theorem mem_libpqQueueProcessFetchRange {off len : ℕ} {rq : FetchRangeRequest}
    (h : rq ∈ (libpqQueueProcessFetchRange path encrypt off len s).requestQueue) :
    rq ∈ s.requestQueue ∨ rq.path = path := by
  unfold libpqQueueProcessFetchRange at h
  split at h
  · rename_i prev hprev
    split at h
    · rename_i hmerge
      obtain h | h := mem_queuePieces h
      · obtain h | h := List.mem_append.1 h
        · exact .inl (List.mem_of_mem_dropLast h)
        · rw [List.mem_singleton.1 h]
          exact .inr hmerge.2.2
      · exact .inr h
    · exact mem_queuePieces h
  · exact mem_queuePieces h

theorem queueFetchRange_other {libpq : Bool} {off len : ℕ} (h : path ≠ path') :
    (queueFetchRange libpq path off len s).on path' = s.on path' := by
  unfold queueFetchRange
  split
  · exact libpqQueueProcessFetchRange_other h
  · have hstep : ∀ step ∈ [RewindStep.chunk ⟨path, off, len, true⟩], step.path ≠ path' := by
      simpa [RewindStep.path] using h
    rw [Schedule.on_perform fun _ _ => .inr hstep, onPath_eq_nil hstep, List.append_nil]

theorem mem_queueFetchRange {libpq : Bool} {off len : ℕ} {rq : FetchRangeRequest}
    (h : rq ∈ (queueFetchRange libpq path off len s).requestQueue) :
    rq ∈ s.requestQueue ∨ rq.path = path := by
  unfold queueFetchRange at h
  split at h
  · exact mem_libpqQueueProcessFetchRange h
  · exact .inl h

end Queue

/-! ### The steps of an entry -/

/-- How a whole file is fetched. -/
def fetchFileSteps (libpq : Bool) (path : RewindPath) (len : ℕ) : List RewindStep :=
  .openTarget path ::
    if libpq then
      (requestPieces path false (max len maxChunkSize / maxChunkSize + 1) 0
        (max len maxChunkSize)).map .chunk
    else [.chunk ⟨path, 0, len, false⟩]

section Entries

variable {libpq : Bool} {s : Schedule} {e : FileEntry} {path : RewindPath}

theorem queueFetchFile_other {len : ℕ} {path' : RewindPath} (h : path ≠ path') :
    (queueFetchFile libpq path len s).on path' = s.on path' := by
  have hopen : ∀ step ∈ [RewindStep.openTarget path], step.path ≠ path' := by
    simpa [RewindStep.path] using h
  have hchunk : ∀ step ∈ [RewindStep.chunk ⟨path, 0, len, false⟩], step.path ≠ path' := by
    simpa [RewindStep.path] using h
  unfold queueFetchFile
  dsimp only
  split
  · rw [libpqQueueProcessFetchRange_other h, Schedule.on_perform fun _ _ => .inr hopen,
      onPath_eq_nil hopen, List.append_nil]
  · rw [Schedule.on_perform fun _ _ => .inr hchunk, Schedule.on_perform fun _ _ => .inr hopen,
      onPath_eq_nil hopen, onPath_eq_nil hchunk, List.append_nil, List.append_nil]

theorem queueFetchFile_self {len : ℕ} (h : ∀ rq ∈ s.requestQueue, rq.path ≠ path) :
    (queueFetchFile libpq path len s).on path = s.on path ++ fetchFileSteps libpq path len := by
  have hopen : (s.perform [.openTarget path]).on path = s.on path ++ [.openTarget path] := by
    rw [Schedule.on_perform fun rq hrq => .inl (h rq hrq)]
    simp [onPath, RewindStep.path]
  unfold queueFetchFile fetchFileSteps
  cases libpq with
  | true =>
      rw [if_pos rfl, if_pos rfl, libpqQueueProcessFetchRange_self (s := s.perform _) h, hopen,
        List.append_assoc]
      rfl
  | false =>
      rw [if_neg Bool.false_ne_true, if_neg Bool.false_ne_true,
        Schedule.on_perform (s := s.perform _) fun rq hrq => .inl (h rq hrq), hopen,
        List.append_assoc]
      simp [onPath, RewindStep.path]

theorem mem_queueFetchFile {len : ℕ} {rq : FetchRangeRequest}
    (h : rq ∈ (queueFetchFile libpq path len s).requestQueue) :
    rq ∈ s.requestQueue ∨ rq.path = path := by
  unfold queueFetchFile at h
  dsimp only at h
  split at h
  · exact mem_libpqQueueProcessFetchRange (s := s.perform _) h
  · exact .inl h

/-- The steps of an entry without blocks to overwrite. -/
def entrySteps (libpq : Bool) (e : FileEntry) : List RewindStep :=
  match e.action with
  | .create => []
  | .none => []
  | .ensureTdeKey => [.ensureTdeKeys e.path]
  | .ensureWalSeg => [.ensureWalSeg e.path]
  | .copy => fetchFileSteps libpq e.path (e.sourceSize.getD 0)
  | .truncate => [.truncate e.path (e.sourceSize.getD 0), .ensureTdeKeys e.path]
  | .copyTail =>
    let len := e.sourceSize.getD 0 - e.targetSize.getD 0
    if libpq then
      (requestPieces e.path true (len / maxChunkSize + 1) (e.targetSize.getD 0) len).map .chunk
    else [.chunk ⟨e.path, e.targetSize.getD 0, len, true⟩]
  | .remove => [.remove e.path]

theorem Schedule.on_perform_other {steps : List RewindStep} (h : ∀ step ∈ steps, step.path ≠ path) :
    (s.perform steps).on path = s.on path := by
  rw [Schedule.on_perform fun _ _ => .inr h, onPath_eq_nil h, List.append_nil]

theorem Schedule.on_perform_self {steps : List RewindStep}
    (hq : ∀ rq ∈ s.requestQueue, rq.path ≠ path) (h : ∀ step ∈ steps, step.path = path) :
    (s.perform steps).on path = s.on path ++ steps := by
  rw [Schedule.on_perform fun rq hrq => .inl (hq rq hrq), onPath, List.filter_eq_self.2]
  simpa using h

theorem fetchPages_other (pages : List ℕ) (h : e.path ≠ path) :
    (pages.foldl (fun s blkno => queueFetchRange libpq e.path (blkno * blckSz) blckSz s) s).on
      path = s.on path := by
  induction pages generalizing s with
  | nil => rfl
  | cons blkno pages ih => exact ih.trans (queueFetchRange_other h)

theorem mem_fetchPages (pages : List ℕ) {rq : FetchRangeRequest}
    (h : rq ∈ (pages.foldl (fun s blkno => queueFetchRange libpq e.path (blkno * blckSz) blckSz s)
      s).requestQueue) :
    rq ∈ s.requestQueue ∨ rq.path = e.path := by
  induction pages generalizing s with
  | nil => exact .inl h
  | cons blkno pages ih =>
      obtain h | h := ih h
      · exact mem_queueFetchRange h
      · exact .inr h

/-- An entry concerns its own file. -/
theorem scheduleEntry_other (h : e.path ≠ path) : (scheduleEntry libpq s e).on path = s.on path := by
  have hstep : ∀ step, step.path = e.path → ∀ step' ∈ [step], RewindStep.path step' ≠ path := by
    intro step hpath step' hstep'
    rw [List.mem_singleton.1 hstep', hpath]
    exact h
  have hpages := @fetchPages_other libpq s e path e.targetPagesToOverwrite h
  refine Eq.trans ?_ hpages
  unfold scheduleEntry
  dsimp only
  split
  · rfl
  · rfl
  · split
    · exact Schedule.on_perform_other (hstep _ rfl)
    · rfl
  · exact Schedule.on_perform_other (hstep _ rfl)
  · exact queueFetchFile_other h
  · split
    · exact (Schedule.on_perform_other (hstep _ rfl)).trans (Schedule.on_perform_other (hstep _ rfl))
    · exact Schedule.on_perform_other (hstep _ rfl)
  · exact queueFetchRange_other h
  · exact Schedule.on_perform_other (hstep _ rfl)

theorem mem_scheduleEntry {rq : FetchRangeRequest} (h : rq ∈ (scheduleEntry libpq s e).requestQueue) :
    rq ∈ s.requestQueue ∨ rq.path = e.path := by
  have hpages := @mem_fetchPages libpq s e e.targetPagesToOverwrite rq
  unfold scheduleEntry at h
  dsimp only at h
  split at h
  · exact hpages h
  · exact hpages h
  · split at h
    · exact hpages h
    · exact hpages h
  · exact hpages h
  · exact (mem_queueFetchFile h).elim hpages .inr
  · split at h
    · exact hpages h
    · exact hpages h
  · exact (mem_queueFetchRange h).elim hpages .inr
  · exact hpages h

theorem scheduleEntry_self (hpages : e.targetPagesToOverwrite = [])
    (hq : ∀ rq ∈ s.requestQueue, rq.path ≠ e.path) :
    (scheduleEntry libpq s e).on e.path = s.on e.path ++ entrySteps libpq e := by
  unfold scheduleEntry entrySteps
  rw [hpages]
  dsimp only [List.foldl_nil]
  split
  · exact (List.append_nil _).symm
  · exact (List.append_nil _).symm
  · rw [if_pos rfl]
    exact Schedule.on_perform_self hq (by simp [RewindStep.path])
  · exact Schedule.on_perform_self hq (by simp [RewindStep.path])
  · exact queueFetchFile_self hq
  · rw [if_pos rfl, Schedule.on_perform_self (s := s.perform _) hq (by simp [RewindStep.path]),
      Schedule.on_perform_self hq (by simp [RewindStep.path]), List.append_assoc]
    rfl
  · unfold queueFetchRange
    split
    · exact libpqQueueProcessFetchRange_self hq
    · exact Schedule.on_perform_self hq (by simp [RewindStep.path])
  · exact Schedule.on_perform_self hq (by simp [RewindStep.path])

end Entries

/-! ### The steps of all entries -/

section AllEntries

variable {libpq : Bool} {path : RewindPath} {entries : List FileEntry} {s : Schedule}

/-- Entries of other paths leave the steps on a path as they are. -/
theorem foldl_scheduleEntry_other (h : ∀ e ∈ entries, e.path ≠ path) :
    (entries.foldl (scheduleEntry libpq) s).on path = s.on path := by
  induction entries generalizing s with
  | nil => rfl
  | cons e entries ih =>
      exact (ih fun e' he' => h e' (List.mem_cons_of_mem e he')).trans
        (scheduleEntry_other (h e List.mem_cons_self))

/-- They do not put requests of this path into the queue either. -/
theorem foldl_scheduleEntry_queue (h : ∀ e ∈ entries, e.path ≠ path)
    (hq : ∀ rq ∈ s.requestQueue, rq.path ≠ path) :
    ∀ rq ∈ (entries.foldl (scheduleEntry libpq) s).requestQueue, rq.path ≠ path := by
  induction entries generalizing s with
  | nil => exact hq
  | cons e entries ih =>
      refine ih (fun e' he' => h e' (List.mem_cons_of_mem e he')) fun rq hrq => ?_
      obtain hrq | hrq := mem_scheduleEntry hrq
      · exact hq rq hrq
      · rw [hrq]
        exact h e List.mem_cons_self

end AllEntries

theorem onPath_scheduleEntries_eq (libpq : Bool) (entries : List FileEntry) (path : RewindPath) :
    onPath path (scheduleEntries libpq entries) =
      (entries.foldl (scheduleEntry libpq) ⟨[], []⟩).on path := rfl

/-- Nothing is done to a file without an entry. -/
theorem onPath_schedule_nil {libpq : Bool} {entries : List FileEntry} {path : RewindPath}
    (h : ∀ e ∈ entries, e.path ≠ path) : onPath path (scheduleEntries libpq entries) = [] := by
  rw [onPath_scheduleEntries_eq, foldl_scheduleEntry_other h]
  rfl

/-- What is done to a file is what its entry says. -/
theorem onPath_schedule {libpq : Bool} {entries : List FileEntry} {e : FileEntry}
    (hnodup : (entries.map (·.path)).Nodup) (he : e ∈ entries)
    (hpages : e.targetPagesToOverwrite = []) :
    onPath e.path (scheduleEntries libpq entries) = entrySteps libpq e := by
  obtain ⟨before, after, rfl⟩ := List.append_of_mem he
  have hnodup' := hnodup
  rw [List.map_append, List.map_cons, List.nodup_append] at hnodup'
  obtain ⟨-, hafter, hbefore⟩ := hnodup'
  have hne : ∀ e' ∈ before, e'.path ≠ e.path := fun e' he' =>
    hbefore e'.path (List.mem_map_of_mem he') e.path List.mem_cons_self
  have hne' : ∀ e' ∈ after, e'.path ≠ e.path := by
    intro e' he' heq
    exact (List.nodup_cons.1 hafter).1 (heq ▸ List.mem_map_of_mem he')
  have hqueue := @foldl_scheduleEntry_queue libpq e.path before ⟨[], []⟩ hne (by simp)
  rw [onPath_scheduleEntries_eq, List.foldl_append, List.foldl_cons,
    foldl_scheduleEntry_other hne', scheduleEntry_self hpages hqueue, foldl_scheduleEntry_other hne]
  rfl

end OpenPgTde
