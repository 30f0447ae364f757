import OpenPgTde.Frontend.Archive
import OpenPgTde.Lib.Schedule

/-!
How `pg_rewind` reads the WAL of the target (`pg_rewind/parsexlog.c`).

The WAL reader asks for pages, and which ones depends on what it finds in them. Here a record is the
list of the pages that were asked for to read it, and all that follows holds for all such lists. A
segment that is missing is restored from the archive, and its name is noted. When the last common
checkpoint is searched, the segment of the last page of every record is noted as one to keep.

`Scanned` says what is known of these notes: a segment is restored only where there was no file, and
never twice, and a segment to keep is there.
-/

namespace OpenPgTde

/-! ### Names of segments -/

/-- `%X` of a digit. -/
def hexChar (digit : ℕ) : UInt8 := UInt8.ofNat (if digit < 10 then 48 + digit else 55 + digit)

/-- `%08X`. -/
def hexDigits (n : ℕ) : List UInt8 := (List.range 8).reverse.map fun i => hexChar (n / 16 ^ i % 16)

/-- `XLogFileName`. -/
def xLogFileName (sz : WalSegSz) (tli segno : ℕ) : List UInt8 :=
  hexDigits tli ++ hexDigits (segno / (2 ^ 32 / sz.size)) ++ hexDigits (segno % (2 ^ 32 / sz.size))

/-- A segment relative to the data directory: the name behind `XLOGDIR "/"`. -/
def walPath (sz : WalSegSz) (tli segno : ℕ) : List UInt8 :=
  [112, 103, 95, 119, 97, 108, 47] ++ xLogFileName sz tli segno

/-! ### Reading pages -/

structure TimeLineHistoryEntry where
  tli : ℕ
  begin_ : ℕ
  end_ : ℕ

/-- What a scan is given: the history of the target, and what a command that restores files from the
archive makes of a name, if there is such a command. -/
structure ScanEnv where
  sz : WalSegSz
  targetHistory : List TimeLineHistoryEntry
  restoreCommand : Option (List UInt8 → Option (List UInt8))

def ScanEnv.history (env : ScanEnv) (tliIndex : ℕ) : TimeLineHistoryEntry :=
  env.targetHistory.getD tliIndex ⟨0, 0, 0⟩

/-- The files of the target, the segment that is open, the segment of the last page that was read, and
the segments that were restored. -/
structure ScanState where
  file : List UInt8 → Option (List UInt8)
  tliIndex : ℕ
  xlogreadsegno : Option ℕ
  seg : ℕ × ℕ
  archiveWalSegments : List (List UInt8)

/-- A file is restored from the archive: `archive_wal_segments_add_entry`. -/
def ScanState.restore (st : ScanState) (path segment : List UInt8) : ScanState :=
  { st with
    file := Function.update st.file path (some segment)
    archiveWalSegments := st.archiveWalSegments ++ [path] }

@[simp] theorem ScanState.restore_self (st : ScanState) (path segment : List UInt8) :
    (st.restore path segment).file path = some segment := Function.update_self ..

theorem ScanState.restore_other (st : ScanState) {path path' : List UInt8} (segment : List UInt8)
    (h : path' ≠ path) : (st.restore path segment).file path' = st.file path' :=
  Function.update_of_ne h ..

/-- The loop of `SimpleXLogPageRead` that goes to later timelines, for at most so many turns. -/
def laterTimeline (env : ScanEnv) (targetSegEnd : ℕ) : ℕ → ℕ → ℕ
  | 0, tliIndex => tliIndex
  | turns + 1, tliIndex =>
    if tliIndex < env.targetHistory.length - 1 ∧ (env.history tliIndex).end_ < targetSegEnd then
      laterTimeline env targetSegEnd turns (tliIndex + 1)
    else tliIndex

/-- The loop that goes to earlier timelines. -/
def earlierTimeline (env : ScanEnv) (targetSegEnd : ℕ) : ℕ → ℕ
  | 0 => 0
  | tliIndex + 1 =>
    if targetSegEnd ≤ (env.history (tliIndex + 1)).begin_ then
      earlierTimeline env targetSegEnd tliIndex
    else tliIndex + 1

/-- The part of `SimpleXLogPageRead` that opens the segment. -/
def openSegment (env : ScanEnv) (targetSegNo : ℕ) (st : ScanState) : Option ScanState :=
  let targetSegEnd := (targetSegNo + 1) * env.sz.size
  let tliIndex := earlierTimeline env targetSegEnd
    (laterTimeline env targetSegEnd env.targetHistory.length st.tliIndex)
  let st := { st with tliIndex := tliIndex, xlogreadsegno := some targetSegNo }
  let path := walPath env.sz (env.history tliIndex).tli targetSegNo
  match st.file path with
  | some _ => some st
  | none =>
    match env.restoreCommand with
    | none => none
    | some restore =>
      match restore (xLogFileName env.sz (env.history tliIndex).tli targetSegNo) with
      | none => none
      | some segment => some (st.restore path segment)

/-- The segment that is open already is not opened again. -/
def switchSegment (env : ScanEnv) (targetSegNo : ℕ) (st : ScanState) : Option ScanState :=
  if st.xlogreadsegno = some targetSegNo then some st else openSegment env targetSegNo st

/-- `SimpleXLogPageRead`, and what the WAL reader notes of the page; `none` is the end of the program. -/
def simpleXLogPageRead (env : ScanEnv) (st : ScanState) (targetPagePtr : ℕ) : Option ScanState := do
  let targetSegNo := targetPagePtr / env.sz.size
  let st ← switchSegment env targetSegNo st
  let tli := (env.history st.tliIndex).tli
  let segment ← st.file (walPath env.sz tli targetSegNo)
  if (Lib.Splice.slice segment (targetPagePtr % env.sz.size) xlogBlcksz).length ≠ xlogBlcksz then none
  else some { st with seg := (tli, targetSegNo) }

/-- A record, by the pages that are read for it. -/
abbrev RecordPages := List ℕ

def readRecord (env : ScanEnv) (st : ScanState) (pages : RecordPages) : Option ScanState :=
  pages.foldlM (simpleXLogPageRead env) st

/-! ### The scans -/

/-- A new WAL reader. -/
def ScanState.beginScan (st : ScanState) (tliIndex : ℕ) : ScanState :=
  { st with tliIndex := tliIndex, xlogreadsegno := none, seg := (0, 0) }

/-- `readOneRecord`. -/
def readOneRecord (env : ScanEnv) (tliIndex : ℕ) (record : RecordPages) (st : ScanState) :
    Option ScanState :=
  readRecord env (st.beginScan tliIndex) record

/-- `extractPageMap`, as far as it reads the WAL. -/
def extractPageMap (env : ScanEnv) (tliIndex : ℕ) (records : List RecordPages) (st : ScanState) :
    Option ScanState :=
  records.foldlM (readRecord env) (st.beginScan tliIndex)

/-- What `findLastCheckpoint` works with. -/
structure FindState where
  scan : ScanState
  current : ℕ × ℕ
  keepwal : List (List UInt8)

/-- A turn of its loop. -/
def findRecord (env : ScanEnv) (st : FindState) (record : RecordPages) : Option FindState := do
  let scan ← readRecord env st.scan record
  if scan.seg = st.current then some { st with scan := scan }
  else some ⟨scan, scan.seg, walPath env.sz scan.seg.1 scan.seg.2 :: st.keepwal⟩

/-- `findLastCheckpoint`: the records from the fork back to the checkpoint. -/
def findLastCheckpoint (env : ScanEnv) (tliIndex : ℕ) (records : List RecordPages) (st : ScanState) :
    Option FindState :=
  records.foldlM (findRecord env) ⟨st.beginScan tliIndex, (0, 0), []⟩

/-- The records of the three scans. -/
structure ScanRecords where
  endOfWal : RecordPages
  backward : List RecordPages
  forward : List RecordPages

/-- What the scans leave for the rewind. The files of the target are listed before the last scan. -/
structure ScanResult where
  keepwal : List (List UInt8)
  listed : List UInt8 → Option (List UInt8)
  file : List UInt8 → Option (List UInt8)
  archiveWalSegments : List (List UInt8)

/-- The scans of `main`. -/
def scanTarget (env : ScanEnv) (lastcommontliIndex : ℕ) (records : ScanRecords)
    (file : List UInt8 → Option (List UInt8)) : Option ScanResult := do
  let st ← readOneRecord env (env.targetHistory.length - 1) records.endOfWal
    ⟨file, 0, none, (0, 0), []⟩
  let found ← findLastCheckpoint env lastcommontliIndex records.backward st
  let st ← extractPageMap env lastcommontliIndex records.forward found.scan
  some ⟨found.keepwal, found.scan.file, st.file, st.archiveWalSegments⟩

/-! ### What the scans keep -/

/-- The files are those of before and the ones that were restored. -/
structure Scanned (file : List UInt8 → Option (List UInt8)) (st : ScanState) : Prop where
  kept : ∀ path, file path ≠ none → st.file path = file path
  absent : ∀ path ∈ st.archiveWalSegments, file path = none
  restored : ∀ path ∈ st.archiveWalSegments, st.file path ≠ none
  new : ∀ path, st.file path ≠ none → file path ≠ none ∨ path ∈ st.archiveWalSegments
  nodup : st.archiveWalSegments.Nodup

theorem Scanned.start (file : List UInt8 → Option (List UInt8)) (tliIndex : ℕ)
    (segno : Option ℕ) (seg : ℕ × ℕ) : Scanned file ⟨file, tliIndex, segno, seg, []⟩ where
  kept _ _ := rfl
  absent _ h := nomatch h
  restored _ h := nomatch h
  new _ h := .inl h
  nodup := List.nodup_nil

section Scan

variable {env : ScanEnv} {st st' : ScanState} {file : List UInt8 → Option (List UInt8)}

theorem Scanned.congr (h : Scanned file st) (hfile : st'.file = st.file)
    (harchive : st'.archiveWalSegments = st.archiveWalSegments) : Scanned file st' := by
  obtain ⟨hkept, habsent, hrestored, hnew, hnodup⟩ := h
  rw [← hfile] at hkept hrestored hnew
  rw [← harchive] at habsent hrestored hnew hnodup
  exact ⟨hkept, habsent, hrestored, hnew, hnodup⟩

theorem Scanned.restore (h : Scanned file st) {path : List UInt8} (hpath : st.file path = none)
    (segment : List UInt8) : Scanned file (st.restore path segment) where
  kept path' hpath' := by
    have hne : path' ≠ path := by
      rintro rfl
      exact hpath' ((h.kept path' hpath').symm.trans hpath)
    rw [ScanState.restore_other st segment hne, h.kept path' hpath']
  absent path' hmem := by
    obtain hmem | hmem := List.mem_append.1 hmem
    · exact h.absent path' hmem
    · rw [List.mem_singleton.1 hmem]
      by_contra hfile
      exact hfile ((h.kept path hfile).symm.trans hpath)
  restored path' hmem := by
    by_cases hne : path' = path
    · simp [hne]
    · rw [ScanState.restore_other st segment hne]
      obtain hmem | hmem := List.mem_append.1 hmem
      · exact h.restored path' hmem
      · exact absurd (List.mem_singleton.1 hmem) hne
  new path' hfile := by
    by_cases hne : path' = path
    · exact .inr (List.mem_append_right _ (by simp [hne]))
    · rw [ScanState.restore_other st segment hne] at hfile
      obtain hold | hmem := h.new path' hfile
      · exact .inl hold
      · exact .inr (List.mem_append_left _ hmem)
  nodup := by
    refine List.nodup_append.2 ⟨h.nodup, List.nodup_singleton _, fun a ha b hb => ?_⟩
    rintro rfl
    rw [List.mem_singleton.1 hb] at ha
    exact h.restored path ha hpath

/-- A file that is there stays as it is. -/
def Stays (file file' : List UInt8 → Option (List UInt8)) : Prop :=
  ∀ path, file path ≠ none → file' path = file path

theorem Stays.refl (file : List UInt8 → Option (List UInt8)) : Stays file file := fun _ _ => rfl

theorem Stays.trans {file₁ file₂ file₃ : List UInt8 → Option (List UInt8)} (h : Stays file₁ file₂)
    (h' : Stays file₂ file₃) : Stays file₁ file₃ := by
  intro path hpath
  have heq := h path hpath
  rw [h' path (by rwa [heq]), heq]

theorem openSegment_scanned {segno : ℕ} (h : Scanned file st)
    (hopen : openSegment env segno st = some st') : Scanned file st' ∧ Stays st.file st'.file := by
  unfold openSegment at hopen
  dsimp only at hopen
  split at hopen
  · cases hopen
    exact ⟨h.congr rfl rfl, Stays.refl _⟩
  · next hnone =>
      split at hopen
      · cases hopen
      · split at hopen
        · cases hopen
        · cases hopen
          have hsame : ∀ tliIndex, Scanned file { st with
              tliIndex := tliIndex, xlogreadsegno := some segno } := fun _ => h.congr rfl rfl
          refine ⟨(hsame _).restore hnone _, fun path hpath => ?_⟩
          refine ScanState.restore_other _ _ ?_
          rintro rfl
          exact hpath hnone

/-- The segment of the last page that was read is there. -/
def LastRead (env : ScanEnv) (st : ScanState) : Prop :=
  st.file (walPath env.sz st.seg.1 st.seg.2) ≠ none

theorem simpleXLogPageRead_scanned {ptr : ℕ} (h : Scanned file st)
    (hread : simpleXLogPageRead env st ptr = some st') :
    Scanned file st' ∧ Stays st.file st'.file ∧ LastRead env st' := by
  unfold simpleXLogPageRead at hread
  obtain ⟨st₁, hopen, hread⟩ := Option.bind_eq_some_iff.1 hread
  have hst₁ : Scanned file st₁ ∧ Stays st.file st₁.file := by
    unfold switchSegment at hopen
    split at hopen
    · cases hopen
      exact ⟨h, Stays.refl _⟩
    · exact openSegment_scanned h hopen
  obtain ⟨segment, hsegment, hread⟩ := Option.bind_eq_some_iff.1 hread
  split at hread
  · cases hread
  · cases hread
    refine ⟨hst₁.1.congr rfl rfl, hst₁.2, ?_⟩
    show st₁.file _ ≠ none
    rw [hsegment]
    simp

/-- Reading a record. If no page was read for it, the last page is the one it was. -/
theorem readRecord_scanned {record : RecordPages} (h : Scanned file st)
    (hread : readRecord env st record = some st') :
    Scanned file st' ∧ Stays st.file st'.file ∧ (st'.seg = st.seg ∨ LastRead env st') := by
  unfold readRecord at hread
  induction record generalizing st with
  | nil =>
      cases hread
      exact ⟨h, Stays.refl _, .inl rfl⟩
  | cons ptr record ih =>
      rw [List.foldlM_cons] at hread
      obtain ⟨st₁, hpage, hread⟩ := Option.bind_eq_some_iff.1 hread
      obtain ⟨h₁, hstays₁, hlast₁⟩ := simpleXLogPageRead_scanned h hpage
      obtain ⟨h', hstays, hlast⟩ := ih h₁ hread
      refine ⟨h', hstays₁.trans hstays, .inr ?_⟩
      obtain hseg | hlast := hlast
      · rw [LastRead, hseg, hstays _ hlast₁]
        exact hlast₁
      · exact hlast

theorem extractRecords_scanned {records : List RecordPages} (h : Scanned file st)
    (hread : records.foldlM (readRecord env) st = some st') :
    Scanned file st' ∧ Stays st.file st'.file := by
  induction records generalizing st with
  | nil =>
      cases hread
      exact ⟨h, Stays.refl _⟩
  | cons record records ih =>
      rw [List.foldlM_cons] at hread
      obtain ⟨st₁, hrecord, hread⟩ := Option.bind_eq_some_iff.1 hread
      obtain ⟨h₁, hstays₁, -⟩ := readRecord_scanned h hrecord
      obtain ⟨h', hstays⟩ := ih h₁ hread
      exact ⟨h', hstays₁.trans hstays⟩

/-- The segments to keep are there, and so is the last one that was read. -/
structure Found (env : ScanEnv) (file : List UInt8 → Option (List UInt8)) (st : FindState) : Prop where
  scanned : Scanned file st.scan
  keepwal : ∀ path ∈ st.keepwal, st.scan.file path ≠ none
  last : st.scan.seg = st.current ∨ LastRead env st.scan

theorem findRecord_found {st st' : FindState} {record : RecordPages} (h : Found env file st)
    (hread : findRecord env st record = some st') : Found env file st' := by
  unfold findRecord at hread
  obtain ⟨scan, hrecord, hread⟩ := Option.bind_eq_some_iff.1 hread
  obtain ⟨hscan, hstays, hlast⟩ := readRecord_scanned h.scanned hrecord
  have hkeep : ∀ path ∈ st.keepwal, scan.file path ≠ none := by
    intro path hpath
    rw [hstays path (h.keepwal path hpath)]
    exact h.keepwal path hpath
  split at hread
  · next hseg =>
      cases hread
      exact ⟨hscan, hkeep, .inl hseg⟩
  · next hseg =>
      cases hread
      refine ⟨hscan, fun path hpath => ?_, .inl rfl⟩
      obtain rfl | hpath := List.mem_cons.1 hpath
      · obtain heq | hlast := hlast
        · obtain hcurrent | hread := h.last
          · exact absurd (heq.trans hcurrent) hseg
          · rw [heq, hstays _ hread]
            exact hread
        · exact hlast
      · exact hkeep path hpath

/-- The segments of the WAL that the scans leave: what was there and what was restored, each once. What
is to be kept was there when the files were listed, and so was everything that was not restored. -/
structure ScanResult.Ok (file : List UInt8 → Option (List UInt8)) (r : ScanResult) : Prop where
  stays : Stays file r.file
  listed : Stays r.listed r.file
  nodup : r.archiveWalSegments.Nodup
  restored : ∀ path ∈ r.archiveWalSegments, file path = none ∧ r.file path ≠ none
  new : ∀ path, r.file path ≠ none → r.listed path = none → path ∈ r.archiveWalSegments
  keepwal : ∀ path ∈ r.keepwal, r.listed path ≠ none

theorem scanTarget_ok {lastcommontliIndex : ℕ} {records : ScanRecords} {r : ScanResult}
    (h : scanTarget env lastcommontliIndex records file = some r) : r.Ok file := by
  unfold scanTarget at h
  obtain ⟨st₁, hfirst, h⟩ := Option.bind_eq_some_iff.1 h
  obtain ⟨found, hfind, h⟩ := Option.bind_eq_some_iff.1 h
  obtain ⟨st₂, hextract, h⟩ := Option.bind_eq_some_iff.1 h
  cases h
  have h₁ : Scanned file st₁ := (readRecord_scanned (Scanned.start file _ _ _) hfirst).1
  have hfound : Found env file found := by
    refine Lib.Schedule.foldlM_invariant (Found env file) (fun hs hstep => findRecord_found hs hstep)
      ?_ hfind
    exact ⟨h₁.congr rfl rfl, fun _ hpath => (nomatch hpath), .inl rfl⟩
  obtain ⟨h₂, hstays⟩ := extractRecords_scanned
    (hfound.scanned.congr rfl rfl : Scanned file (found.scan.beginScan lastcommontliIndex)) hextract
  refine ⟨h₂.kept, hstays, h₂.nodup, fun path hpath => ⟨h₂.absent path hpath, h₂.restored path hpath⟩,
    fun path hpath hlisted => ?_, hfound.keepwal⟩
  obtain hold | hmem := h₂.new path hpath
  · have hkept := hfound.scanned.kept path hold
    exact absurd (hkept.symm.trans hlisted) hold
  · exact hmem

end Scan

end OpenPgTde
