import OpenPgTde.Rewind.FileMap
import OpenPgTde.Rewind.Scan
import OpenPgTde.Rewind.Wal

/-!
The segments of the WAL after a rewind.

A segment that the source has is copied. Of those that only the target has, the ones to keep are
re-encrypted, and the others removed. At the end the segments from the archive are re-encrypted that are
not to be kept, whatever has become of them.

So a segment is re-encrypted once, unless it was restored, is not to be kept, and was then overwritten
with that of the source: it is re-encrypted as if it came from the target. And where the source knows
nothing of encryption there are no keys to re-encrypt with, and what is left of the re-encryption is that
the segment is decrypted, while the keys of the target stay. `rewind_segment_readable_iff` says for each
segment when it is readable.
-/

namespace OpenPgTde

open Lib.Effect Lib.Splice

/-! ### A directory without keys -/

section Empty

variable {w : World} {d : Server}

theorem scopeInfo_emptyKeyDir (scope : Oid) : scopeInfo (emptyKeyDir d) scope = none := by
  unfold scopeInfo emptyKeyDir
  split
  · rfl
  · rfl

theorem walRanges_emptyKeyDir : walRanges w (emptyKeyDir d) = [] := walRanges_of_nil rfl

theorem emptyKeyDir_ok (hd : KeyDir w d) : KeyDir w (emptyKeyDir d) := by
  have hkey : ∀ scope, principalKeyOf w (emptyKeyDir d) scope = none := fun scope => by
    rw [principalKeyOf, scopeInfo_emptyKeyDir, Option.bind_none]
  refine ⟨⟨⟨fun scope => ⟨?_, ?_, ?_, ?_, ?_, ?_⟩, ⟨fun _ => List.nodup_nil, ?_, ?_⟩,
    hd.fileOk.consistent.databases⟩, ?_, ?_, ?_⟩, ?_, hd.answers.1, ?_⟩
  · intro info hi
    rw [scopeInfo_emptyKeyDir] at hi
    cases hi
  · intro _ info entries k hf
    cases hf
  · intro k hk
    cases hk
  · intro _ info entries hf
    cases hf
  · intro _ f hf
    cases hf
  · intro _ f hf
    cases hf
  · intro r hr
    cases hr
  · intro oid _ r hr
    cases hr
  · intro k hk
    rw [hkey] at hk
    cases hk
  · intro e he
    cases he
  · intro e he
    cases he
  · rw [walRanges_emptyKeyDir]
    exact List.Pairwise.nil
  · intro info hi
    rw [scopeInfo_emptyKeyDir] at hi
    cases hi

/-- It leaves segments as they are. -/
theorem cryptSegment_emptyKeyDir {env : RewindEnv} {relpath file : List UInt8} :
    cryptSegment env (emptyKeyDir d) relpath file = file := by
  have hmask : ∀ a n i, dirMask env (emptyKeyDir d) a n i = 0 := fun a n i => by
    rw [dirMask, walRanges_emptyKeyDir]
    rfl
  apply List.ext_getElem?
  intro i
  simp only [cryptSegment, List.getElem?_mapIdx, pagesMask, hmask, UInt8.xor_zero]
  exact Option.map_id'

end Empty

/-! ### What the steps make of a file -/

section Steps

variable {env : RewindEnv} {server : Server} {path src : List UInt8}

/-- The pieces of a file that is fetched from a server are put one behind the other. -/
theorem requestPieces_file (hlibpq : env.libpq = true) (hsrc : env.sourceFile path = some src)
    {pieces off len : ℕ} (hpieces : len ≤ pieces * maxChunkSize) :
    ((requestPieces (.file path) false pieces off len).map RewindStep.chunk).foldlM
      (fileStep env server path) (some (src.take off)) = some (some (src.take (off + len))) := by
  induction pieces generalizing off len with
  | zero =>
      obtain rfl : len = 0 := by omega
      rfl
  | succ pieces ih =>
      unfold requestPieces
      split
      · next hlen =>
          subst hlen
          rfl
      · rw [Nat.succ_mul] at hpieces
        have hchunk : fileStep env server path (some (src.take off))
            (.chunk ⟨.file path, off, min len maxChunkSize, false⟩) =
              some (some (src.take (off + min len maxChunkSize))) := by
          simp only [fileStep, fetchData, hsrc, hlibpq, Bool.true_eq_false, false_and, if_false,
            Option.map_some, Option.bind_some, Nat.div_one, writeTargetRange, Option.getD_some]
          refine congrArg (fun file => some (some file)) ?_
          split
          · next hnil =>
              have hshort : src.length ≤ off := by
                have hlen := congrArg List.length hnil
                rw [length_slice] at hlen
                have hpos : 0 < maxChunkSize := by decide
                simp only [List.length_nil] at hlen
                omega
              rw [List.take_of_length_le hshort,
                List.take_of_length_le (show src.length ≤ off + min len maxChunkSize by omega)]
          · next hne =>
              have hlong : off ≤ src.length := by
                by_contra hshort
                exact hne (by rw [slice, List.drop_eq_nil_of_le (by omega), List.take_nil])
              have hold : (src.take off).length = off := by
                rw [List.length_take, Nat.min_eq_left hlong]
              have hrest : (src.take off).drop
                  (off + (slice src off (min len maxChunkSize)).length) = [] :=
                List.drop_eq_nil_of_le (by omega)
              rw [hold, Nat.sub_self, List.replicate_zero, List.append_nil, overwrite, hrest,
                List.append_nil, List.take_of_length_le hold.le, slice, ← List.take_add]
        rw [List.map_cons, List.foldlM_cons, hchunk]
        show (List.map _ _).foldlM _ _ = _
        rw [ih (by omega), Nat.add_assoc, Nat.add_sub_cancel' (Nat.min_le_left ..)]

/-- A file that is fetched is the file of the source, whatever was there before. -/
theorem fetchFileSteps_file (hsrc : env.sourceFile path = some src) (old : Option (List UInt8)) :
    (fetchFileSteps env.libpq (.file path) src.length).foldlM (fileStep env server path) old =
      some (some src) := by
  rw [fetchFileSteps, List.foldlM_cons]
  show (ite _ _ _ : List RewindStep).foldlM _ (some []) = _
  cases hlibpq : env.libpq with
  | true =>
      have hpieces := @requestPieces_file env server path src hlibpq hsrc
        (max src.length maxChunkSize / maxChunkSize + 1) 0 (max src.length maxChunkSize) (by
          have hpos : 0 < maxChunkSize := by decide
          have hmod := Nat.div_add_mod (max src.length maxChunkSize) maxChunkSize
          have hlt := Nat.mod_lt (max src.length maxChunkSize) hpos
          rw [Nat.succ_mul, Nat.mul_comm]
          omega)
      rw [if_pos rfl]
      rwa [List.take_zero, Nat.zero_add, List.take_of_length_le (le_max_left ..)] at hpieces
  | false =>
      rw [if_neg Bool.false_ne_true]
      have hwhole : slice src 0 src.length = src := by
        rw [slice, List.drop_zero, List.take_length]
      have hchunk : fileStep env server path (some [])
          (.chunk ⟨.file path, 0, src.length, false⟩) = some (some src) := by
        simp only [fileStep, fetchData, hsrc, hlibpq, Nat.div_one, hwhole,
          Bool.false_eq_true, if_false, ne_eq, not_true, and_false, Option.map_some,
          Option.bind_some, writeTargetRange, Option.getD_some]
        split
        · next hnil => rw [hnil]
        · simp [overwrite]
      rw [List.foldlM_cons, hchunk]
      rfl

end Steps

/-! ### What the rewind makes of a file -/

section Perform

variable {env : RewindEnv} {keepwal archiveWalSegments : List (List UInt8)}
  {entries : List FileEntry} {st st' : RewindState} {dir : TdeDir}

/-- What becomes of a segment from the archive. -/
def archiveFile (env : RewindEnv) (keepwal : List (List UInt8)) (server : Server) (path : List UInt8)
    (file : Option (List UInt8)) : Option (Option (List UInt8)) :=
  if keepwalEntryExists keepwal path then some file else ensureTdeWalSeg env server path file

theorem ensureTdeArchiveSeg_eq {path : List UInt8} (h : ensureTdeArchiveSeg env keepwal st path = some st') :
    st'.tmpSource.server = st.tmpSource.server ∧
      archiveFile env keepwal st.tmpSource.server path (st.file path) = some (st'.file path) ∧
      ∀ path', path' ≠ path → st'.file path' = st.file path' := by
  unfold ensureTdeArchiveSeg at h
  split at h
  · next hkept =>
      cases h
      exact ⟨rfl, by rw [archiveFile, if_pos hkept], fun _ _ => rfl⟩
  · next hkept =>
      obtain ⟨file, hfile, h⟩ := Option.bind_eq_some_iff.1 h
      cases h
      refine ⟨rfl, ?_, fun path' hne => RewindState.putFile_other _ _ hne⟩
      rw [archiveFile, if_neg hkept, hfile, RewindState.putFile_self]

/-- The steps on a file, and then the re-encryption of the segments from the archive. -/
theorem performRewind_file (hnodup : archiveWalSegments.Nodup)
    (h : performRewind env keepwal archiveWalSegments entries st = some (st', dir))
    (path : List UInt8) :
    dir.server = (if env.sourceHasTde then st.tmpSource.server else env.targetTde.server) ∧
      ∃ file, (onPath (.file path) (scheduleEntries env.libpq entries)).foldlM
          (fileStep env st.tmpSource.server path) (st.file path) = some file ∧
        (if path ∈ archiveWalSegments then archiveFile env keepwal st.tmpSource.server path file
          else some file) = some (st'.file path) := by
  unfold performRewind at h
  obtain ⟨st₁, hsteps, h⟩ := Option.bind_eq_some_iff.1 h
  obtain ⟨st₂, harchive, h⟩ := Option.bind_eq_some_iff.1 h
  obtain ⟨rfl, rfl⟩ : st₂ = st' ∧ _ = dir := by
    simpa using h
  obtain ⟨hserver, hfile⟩ := performSteps_file path hsteps
  have hflush := flushCurrentTdeRelKey_sameFiles (c := env.c) st₁
  have hserver₁ : (flushCurrentTdeRelKey env.c st₁).tmpSource.server = st.tmpSource.server :=
    hflush.server.trans hserver
  have hkeep : ∀ {x : RewindState} {seg y},
      x.tmpSource.server = st.tmpSource.server → ensureTdeArchiveSeg env keepwal x seg = some y →
        y.tmpSource.server = st.tmpSource.server :=
    fun hx hstep => (ensureTdeArchiveSeg_eq hstep).1.trans hx
  have hself : ∀ {x y : RewindState}, x.tmpSource.server = st.tmpSource.server →
      ensureTdeArchiveSeg env keepwal x path = some y →
        archiveFile env keepwal st.tmpSource.server path (x.file path) = some (y.file path) := by
    intro x y hx hstep
    rw [← hx]
    exact (ensureTdeArchiveSeg_eq hstep).2.1
  have honce := Lib.Schedule.foldlM_once (fun x => x.tmpSource.server = st.tmpSource.server)
    (fun x : RewindState => x.file path) hkeep hself
    (fun _ hstep hne => (ensureTdeArchiveSeg_eq hstep).2.2 path (Ne.symm hne)) hnodup hserver₁ harchive
  have hlast : st₂.tmpSource.server = st.tmpSource.server :=
    Lib.Schedule.foldlM_invariant (fun x => x.tmpSource.server = st.tmpSource.server) hkeep hserver₁
      harchive
  refine ⟨?_, st₁.file path, hfile, ?_⟩
  · cases env.sourceHasTde with
    | true => exact hlast
    | false => rfl
  · have hsame : (flushCurrentTdeRelKey env.c st₁).file path = st₁.file path :=
      congrFun hflush.file path
    rw [hsame] at honce
    split
    · next hmem => rwa [if_pos hmem] at honce
    · next hmem => rwa [if_neg hmem] at honce

theorem ensureTdeArchiveSeg_some (keepwal : List (List UInt8)) (path : List UInt8)
    (ht : KeyDir env.w env.targetTde.server) (hd : KeyDir env.w st.tmpSource.server) :
    ∃ st', ensureTdeArchiveSeg env keepwal st path = some st' := by
  unfold ensureTdeArchiveSeg
  split
  · exact ⟨st, rfl⟩
  · cases st.file path with
    | none => exact ⟨_, rfl⟩
    | some file =>
        rw [ensureTdeWalSeg_eq ht hd]
        exact ⟨_, rfl⟩

end Perform

/-! ### What is decided about a segment -/

section Decide

variable {sz : WalSegSz} {tli segno : ℕ}

/-- The digits of the name of a segment. -/
def IsHex (c : UInt8) : Prop := 48 ≤ c ∧ c ≤ 57 ∨ 65 ≤ c ∧ c ≤ 70

theorem isHex_hexChar {digit : ℕ} (h : digit < 16) : IsHex (hexChar digit) := by
  have hall : ∀ digit < 16, 48 ≤ hexChar digit ∧ hexChar digit ≤ 57 ∨
      65 ≤ hexChar digit ∧ hexChar digit ≤ 70 := by decide
  exact hall digit h

theorem isHex_of_mem_xLogFileName {c : UInt8} (h : c ∈ xLogFileName sz tli segno) : IsHex c := by
  have hdigits : ∀ {n}, c ∈ hexDigits n → IsHex c := by
    intro n hc
    obtain ⟨i, -, rfl⟩ := List.mem_map.1 hc
    exact isHex_hexChar (Nat.mod_lt _ (by decide))
  obtain h | h := List.mem_append.1 h
  · obtain h | h := List.mem_append.1 h
    · exact hdigits h
    · exact hdigits h
  · exact hdigits h

theorem lastComponent_walPath : lastComponent (walPath sz tli segno) = xLogFileName sz tli segno := by
  have hslash : ∀ c ∈ (xLogFileName sz tli segno).reverse, (fun c : UInt8 => decide (c ≠ 47)) c := by
    intro c hc
    have hhex := isHex_of_mem_xLogFileName (List.mem_reverse.1 hc)
    rw [decide_eq_true_eq]
    rintro rfl
    revert hhex
    unfold IsHex
    decide
  unfold lastComponent walPath
  rw [List.reverse_append, List.takeWhile_append_of_pos hslash]
  simp

/-- What is found in a text consists of its bytes. -/
theorem mem_of_strstr {text needle : List UInt8} (h : strstr text needle = true) {c : UInt8}
    (hc : c ∈ needle) : c ∈ text := by
  obtain ⟨tail, htail, hprefix⟩ := List.any_eq_true.1 h
  have hsuffix := (List.mem_tails _ _).1 htail
  exact hsuffix.subset ((List.isPrefixOf_iff_prefix.1 hprefix).subset hc)

/-- Names of segments are none of the special ones. -/
theorem decideFileAction_walPath (keepwal : List (List UInt8)) (n : ℕ) :
    (∀ targetSize, decideFileAction keepwal (.file (walPath sz tli segno)) targetSize (some n) = .copy) ∧
      decideFileAction keepwal (.file (walPath sz tli segno)) (some n) none =
        if keepwalEntryExists keepwal (walPath sz tli segno) then .ensureWalSeg else .remove := by
  have hbytes : ∀ c ∈ walPath sz tli segno,
      c ∈ ([112, 103, 95, 119, 97, 108, 47] : List UInt8) ∨ IsHex c := by
    intro c hc
    exact (List.mem_append.1 hc).imp id isHex_of_mem_xLogFileName
  -- a byte that a segment does not have in its name
  have hfree : ∀ {c : UInt8}, (c ∉ ([112, 103, 95, 119, 97, 108, 47] : List UInt8) ∧
      ¬ (48 ≤ c ∧ c ≤ 57 ∨ 65 ≤ c ∧ c ≤ 70)) → ∀ {needle : List UInt8}, c ∈ needle →
        strstr (walPath sz tli segno) needle = false := by
    intro c hc needle hmem
    rw [Bool.eq_false_iff]
    intro hfound
    exact (hbytes c (mem_of_strstr hfound hmem)).elim hc.1 hc.2
  have hcontrol : walPath sz tli segno ≠ ascii "global/pg_control" := by
    intro heq
    have hhead : some (112 : UInt8) = some 103 := congrArg List.head? heq
    exact absurd hhead (by decide)
  have hkeys : (ascii "open_pg").isPrefixOf (walPath sz tli segno) = false := rfl
  have hversion : (ascii "PG_VERSION").isSuffixOf (walPath sz tli segno) = false := by
    rw [Bool.eq_false_iff]
    intro hsuffix
    have hmem := (List.isSuffixOf_iff_suffix.1 hsuffix).subset
      (by decide : (80 : UInt8) ∈ ascii "PG_VERSION")
    exact (hbytes 80 hmem).elim (by decide) (by unfold IsHex; decide)
  have hexcluded : checkFileExcluded (walPath sz tli segno) = false := by
    have htmp : strstr (walPath sz tli segno) (ascii "/pgsql_tmp") = false :=
      hfree (c := 115) (by decide) (by decide)
    have hdirs : excludeDirContents.any (fun dir =>
        (dir ++ ascii "/").isPrefixOf (walPath sz tli segno)) = false := rfl
    have hfiles : excludeFiles.any (fun item =>
        if item.2 then item.1.isPrefixOf (xLogFileName sz tli segno)
        else item.1 = xLogFileName sz tli segno) = false := by
      -- each of these names has a lower case letter
      have hlower : ∀ item ∈ excludeFiles, ∃ c ∈ item.1,
          ¬ (48 ≤ c ∧ c ≤ 57 ∨ 65 ≤ c ∧ c ≤ 70) := by decide
      rw [List.any_eq_false]
      intro item hitem
      obtain ⟨c, hc, hno⟩ := hlower item hitem
      split
      · intro hprefix
        exact hno (isHex_of_mem_xLogFileName ((List.isPrefixOf_iff_prefix.1 hprefix).subset hc))
      · rw [decide_eq_true_eq]
        intro heq
        exact hno (isHex_of_mem_xLogFileName (heq ▸ hc))
    rw [checkFileExcluded, lastComponent_walPath, htmp, hfiles, hdirs]
    rfl
  have hstore := @hfree 46 (by decide) _ (by decide : (46 : UInt8) ∈ ascii ".DS_Store")
  refine ⟨fun targetSize => ?_, ?_⟩
  · unfold decideFileAction
    dsimp only
    rw [if_neg hcontrol, hstore, hkeys, hexcluded, hversion]
    cases targetSize <;> rfl
  · unfold decideFileAction
    dsimp only
    rw [if_neg hcontrol, hstore, hkeys, hexcluded]
    rfl

end Decide

/-! ### The segments after a rewind -/

/-- What a rewind starts from, apart from the source and the keys. -/
structure RewindTarget where
  targetHistory : List TimeLineHistoryEntry
  restoreCommand : Option (List UInt8 → Option (List UInt8))
  lastcommontliIndex : ℕ
  records : ScanRecords
  changes : List (RelFileLocator × ForkNumber × ℕ)
  file : List UInt8 → Option (List UInt8)
  rel : RelFileLocator → ForkNumber → ℕ → Option (List Page)

def RewindTarget.scanEnv (target : RewindTarget) (sz : WalSegSz) : ScanEnv :=
  ⟨sz, target.targetHistory, target.restoreCommand⟩

/-- The sizes of files, as a directory lists them. -/
def fileSizes (file : List UInt8 → Option (List UInt8))
    (rel : RelFileLocator → ForkNumber → ℕ → Option (List Page)) : RewindPath → Option ℕ
  | .file path => (file path).map List.length
  | .rel rlocator fork segNo => (rel rlocator fork segNo).map fun pages => pages.length * blckSz

/-- What `main` does from the scans to the end of `perform_rewind`, up to the order in which the
directories are listed and the entries are sorted. -/
structure Rewound (env : RewindEnv) (target : RewindTarget) (r : ScanResult) (st : RewindState)
    (dir : TdeDir) : Prop where
  scan : scanTarget (target.scanEnv env.sz) target.lastcommontliIndex target.records target.file = some r
  perform : ∃ sources targets entries entries',
    Listing (fileSizes env.sourceFile env.sourceRel) sources ∧
    Listing (fileSizes r.listed target.rel) targets ∧
    fileMap r.keepwal sources targets target.changes = some entries ∧ entries'.Perm entries ∧
    performRewind env r.keepwal r.archiveWalSegments entries'
      ⟨r.file, target.rel, env.tmpSource, none⟩ = some (st, dir)

/-- The segment has the plaintext that it had where it came from: in the source if that has it, else in
the target or its archive. -/
def SegmentReadable (env : RewindEnv) (r : ScanResult) (dir : TdeDir) (path file : List UInt8) : Prop :=
  match env.sourceFile path with
  | some src => ∃ plain, readWalSegment env env.tmpSource.server path src = some plain ∧
      readWalSegment env dir.server path file = some plain
  | none => ∃ old plain, r.file path = some old ∧
      readWalSegment env env.targetTde.server path old = some plain ∧
      readWalSegment env dir.server path file = some plain

/-- The keys of the target do not matter where they are used, or stay, wrongly: on a segment of the source
that is taken for one of the archive, and on what is not encrypted any more, or never was, with a source
that knows nothing of encryption. -/
def SegmentSpared (env : RewindEnv) (r : ScanResult) (path : List UInt8) : Prop :=
  match env.sourceFile path, env.sourceHasTde with
  | some src, true => path ∈ r.archiveWalSegments → path ∉ r.keepwal →
      readWalSegment env env.targetTde.server path src =
        readWalSegment env env.tmpSource.server path src
  | none, true => True
  | some src, false => ¬(path ∈ r.archiveWalSegments ∧ path ∉ r.keepwal) →
      readWalSegment env env.targetTde.server path src = some src
  | none, false => ∀ old, r.file path = some old →
      readWalSegment env env.targetTde.server path old = some old

section Rewound

variable {env : RewindEnv} {target : RewindTarget} {r : ScanResult} {st : RewindState} {dir : TdeDir}

theorem keepwalEntryExists_iff {keepwal : List (List UInt8)} {path : List UInt8} :
    keepwalEntryExists keepwal path = true ↔ path ∈ keepwal := List.contains_iff_mem

/-- The key directory at the end. -/
theorem Rewound.keyDir (h : Rewound env target r st dir) :
    dir.server = if env.sourceHasTde then env.tmpSource.server else env.targetTde.server := by
  obtain ⟨_, _, _, _, -, -, -, -, hrun⟩ := h.perform
  exact (performRewind_file (scanTarget_ok h.scan).nodup hrun []).1

/-- What becomes of a segment: one of the source is copied, and may be re-encrypted then; any other one
that is there at the end was re-encrypted. -/
theorem Rewound.segment (h : Rewound env target r st dir) (tli segno : ℕ) :
    let path := walPath env.sz tli segno
    (∀ src, env.sourceFile path = some src →
      if path ∈ r.archiveWalSegments ∧ path ∉ r.keepwal then
        ensureTdeWalSeg env env.tmpSource.server path (some src) = some (st.file path)
      else st.file path = some src) ∧
    (env.sourceFile path = none → ∀ file, st.file path = some file → ∃ old, r.file path = some old ∧
      ensureTdeWalSeg env env.tmpSource.server path (some old) = some (some file)) := by
  intro path
  obtain ⟨sources, targets, entries, entries', hsources, htargets, hmap, hperm, hrun⟩ := h.perform
  have hok := scanTarget_ok h.scan
  have hfm := (fileMap_ok hsources htargets hmap).perm hperm
  obtain ⟨-, file₁, hsteps, harchive⟩ := performRewind_file hok.nodup hrun path
  dsimp only at hsteps harchive
  -- the steps of the entry
  have hentry : ∀ e ∈ entries', e.path = .file path →
      onPath (.file path) (scheduleEntries env.libpq entries') = entrySteps env.libpq e ∧
      e.action = decideFileAction r.keepwal (.file path) ((r.listed path).map List.length)
        ((env.sourceFile path).map List.length) ∧
      e.sourceSize = (env.sourceFile path).map List.length := by
    intro e he hpath
    have hsize := hfm.sourceSize e he
    have hsteps := @onPath_schedule env.libpq entries' e hfm.nodup he (hfm.pages e he path hpath)
    rw [hpath] at hsteps hsize
    refine ⟨hsteps, ?_, hsize⟩
    rw [hfm.action e he, hfm.targetSize e he, hsize, hpath]
    rfl
  have hlisted : ∀ n, fileSizes env.sourceFile env.sourceRel (.file path) = some n ∨
      fileSizes r.listed target.rel (.file path) = some n → ∃ e ∈ entries', e.path = .file path := by
    intro n hn
    have hmem : RewindPath.file path ∈ entries'.map (·.path) := by
      rw [hfm.mem]
      exact hn.imp (fun h => by rw [h]; exact Option.some_ne_none _)
        fun h => by rw [h]; exact Option.some_ne_none _
    exact List.mem_map.1 hmem
  refine ⟨fun src hsrc => ?_, fun hsrc file hfile => ?_⟩
  · obtain ⟨e, he, hpath⟩ := hlisted src.length (.inl (by rw [fileSizes, hsrc]; rfl))
    obtain ⟨hon, haction, hsize⟩ := hentry e he hpath
    have hcopy : e.action = .copy := by
      rw [haction, hsrc]
      exact (decideFileAction_walPath r.keepwal src.length).1 _
    rw [hon, entrySteps, hcopy, hsize, hsrc, hpath] at hsteps
    dsimp only [Option.map_some, Option.getD_some] at hsteps
    rw [fetchFileSteps_file hsrc] at hsteps
    cases hsteps
    split
    · next hagain =>
        rw [if_pos hagain.1, archiveFile, if_neg (by rw [keepwalEntryExists_iff]; exact hagain.2)]
          at harchive
        exact harchive
    · next honce =>
        rw [not_and_or, not_not] at honce
        by_cases hmem : path ∈ r.archiveWalSegments
        · rw [if_pos hmem, archiveFile, if_pos (keepwalEntryExists_iff.2
            (honce.resolve_left (not_not_intro hmem)))] at harchive
          exact (Option.some.inj harchive).symm
        · rw [if_neg hmem] at harchive
          exact (Option.some.inj harchive).symm
  · cases hlist : r.listed path with
    | some old =>
        obtain ⟨e, he, hpath⟩ := hlisted old.length (.inr (by rw [fileSizes, hlist]; rfl))
        obtain ⟨hon, haction, -⟩ := hentry e he hpath
        have hold : r.file path = some old := by
          rw [hok.listed path (by rw [hlist]; exact Option.some_ne_none _), hlist]
        rw [hon] at hsteps
        rw [hsrc, hlist, Option.map_some, Option.map_none,
          (decideFileAction_walPath r.keepwal old.length).2] at haction
        by_cases hkept : path ∈ r.keepwal
        · rw [if_pos (keepwalEntryExists_iff.2 hkept)] at haction
          rw [entrySteps, haction, hpath, List.foldlM_cons] at hsteps
          obtain ⟨file', hwal, hnil⟩ := Option.bind_eq_some_iff.1 hsteps
          cases hnil
          have hsame : st.file path = file₁ := by
            split at harchive
            · rw [archiveFile, if_pos (keepwalEntryExists_iff.2 hkept)] at harchive
              exact (Option.some.inj harchive).symm
            · exact (Option.some.inj harchive).symm
          refine ⟨old, hold, ?_⟩
          rw [← hfile, hsame, ← hold]
          exact hwal
        · -- it is removed, and then there is nothing to re-encrypt
          have hnot : ¬ keepwalEntryExists r.keepwal path = true :=
            fun h => hkept (keepwalEntryExists_iff.1 h)
          rw [if_neg hnot] at haction
          rw [entrySteps, haction, hpath] at hsteps
          dsimp only at hsteps
          rw [hold] at hsteps
          cases hsteps
          split at harchive
          · rw [archiveFile, if_neg hnot, hfile] at harchive
            cases harchive
          · rw [hfile] at harchive
            cases harchive
    | none =>
        have hnone : ∀ e ∈ entries', e.path ≠ .file path := by
          intro e he hpath
          have hmem := (hfm.mem (.file path)).1 (List.mem_map.2 ⟨e, he, hpath⟩)
          rw [fileSizes, fileSizes, hsrc, hlist] at hmem
          exact hmem.elim (· rfl) (· rfl)
        rw [onPath_schedule_nil hnone] at hsteps
        cases hsteps
        split at harchive
        · have hkept : ¬ keepwalEntryExists r.keepwal path = true :=
            fun h => hok.keepwal path (keepwalEntryExists_iff.1 h) hlist
          rw [archiveFile, if_neg hkept, hfile] at harchive
          cases hold : r.file path with
          | some old =>
              rw [hold] at harchive
              exact ⟨old, rfl, harchive⟩
          | none =>
              rw [hold] at harchive
              cases harchive
        · next hnot =>
            rw [hfile] at harchive
            have hold : r.file path = some file := Option.some.inj harchive
            exact absurd (hok.new path (by rw [hold]; exact Option.some_ne_none _) hlist) hnot

/-- When a segment can be read at the end of a rewind. -/
theorem rewind_segment_readable_iff (ht : KeyDir env.w env.targetTde.server)
    (hs : ∀ d, env.sourceTde = some d → KeyDir env.w d.server) (h : Rewound env target r st dir)
    {tli segno : ℕ} {file : List UInt8} (hfile : st.file (walPath env.sz tli segno) = some file) :
    SegmentReadable env r dir (walPath env.sz tli segno) file ↔
      SegmentSpared env r (walPath env.sz tli segno) := by
  have htmp : KeyDir env.w env.tmpSource.server := by
    unfold RewindEnv.tmpSource
    cases hsource : env.sourceTde with
    | none => exact emptyKeyDir_ok ht
    | some d => exact hs d hsource
  have hempty : env.sourceHasTde = false → ∀ path f,
      cryptSegment env env.tmpSource.server path f = f := by
    intro hno path f
    have hnone : env.sourceTde = none := by
      simpa [RewindEnv.sourceHasTde] using hno
    rw [RewindEnv.tmpSource, hnone]
    exact cryptSegment_emptyKeyDir
  obtain ⟨hcopied, hkept⟩ := h.segment tli segno
  generalize walPath env.sz tli segno = path at *
  have hdir := h.keyDir
  have hd : KeyDir env.w dir.server := by
    rw [hdir]
    split
    · exact htmp
    · exact ht
  unfold SegmentReadable SegmentSpared
  simp only [readWalSegment_eq ht, readWalSegment_eq htmp, readWalSegment_eq hd, Option.some.injEq,
    exists_eq_left']
  cases hsrc : env.sourceFile path with
  | some src =>
      have hlast := hcopied src hsrc
      rw [ensureTdeWalSeg_eq ht htmp, hfile] at hlast
      cases htde : env.sourceHasTde with
      | true =>
          rw [hdir, htde, if_pos rfl]
          dsimp only
          split at hlast
          · next hagain =>
              obtain rfl := Option.some.inj (Option.some.inj hlast)
              rw [cryptSegment_cryptSegment]
              exact ⟨fun heq _ _ => heq, fun hsame => hsame hagain.1 hagain.2⟩
          · next honce =>
              obtain rfl := Option.some.inj hlast
              exact ⟨fun _ hmem hkeep => absurd ⟨hmem, hkeep⟩ honce, fun _ => rfl⟩
      | false =>
          rw [hdir, htde, if_neg Bool.false_ne_true]
          dsimp only
          rw [hempty htde]
          split at hlast
          · next hagain =>
              obtain rfl := Option.some.inj (Option.some.inj hlast)
              rw [hempty htde, cryptSegment_cryptSegment]
              exact ⟨fun _ honce => absurd hagain honce, fun _ => rfl⟩
          · next honce =>
              obtain rfl := Option.some.inj hlast
              exact ⟨fun heq _ => heq, fun hsame => hsame honce⟩
  | none =>
      obtain ⟨old, hold, hlast⟩ := hkept hsrc file hfile
      rw [ensureTdeWalSeg_eq ht htmp] at hlast
      obtain rfl := Option.some.inj (Option.some.inj hlast)
      cases htde : env.sourceHasTde with
      | true =>
          rw [hdir, htde, if_pos rfl]
          exact ⟨fun _ => trivial, fun _ => ⟨old, _, hold, rfl, cryptSegment_cryptSegment⟩⟩
      | false =>
          rw [hdir, htde, if_neg Bool.false_ne_true]
          dsimp only
          rw [hempty htde, cryptSegment_cryptSegment]
          constructor
          · rintro ⟨old', plain, hold', rfl, heq⟩ old'' hold''
            obtain rfl : old = old' := Option.some.inj (hold.symm.trans hold')
            obtain rfl : old = old'' := Option.some.inj (hold.symm.trans hold'')
            exact heq.symm
          · intro hsame
            exact ⟨old, _, hold, hsame old hold, rfl⟩

end Rewound

/-! ### A rewind that re-encrypts a segment of the source -/

section Pages

variable {env : ScanEnv} {st : ScanState} {ptr segno : ℕ} {h : TimeLineHistoryEntry}
  {segment : List UInt8}

/-- With one timeline there is no other one to go to. -/
theorem earlierTimeline_zero (hone : env.targetHistory = [h]) (targetSegEnd : ℕ) :
    earlierTimeline env targetSegEnd (laterTimeline env targetSegEnd env.targetHistory.length 0) = 0 := by
  have hlen : env.targetHistory.length = 0 + 1 := by rw [hone, List.length_singleton]
  rw [hlen, laterTimeline, if_neg (by omega)]
  rfl

/-- A page of a segment that is there. -/
theorem simpleXLogPageRead_present (hone : env.targetHistory = [h]) (hzero : st.tliIndex = 0)
    (hptr : ptr / env.sz.size = segno)
    (hfile : st.file (walPath env.sz h.tli segno) = some segment)
    (hlen : ptr % env.sz.size + xlogBlcksz ≤ segment.length) :
    simpleXLogPageRead env st ptr =
      some { st with xlogreadsegno := some segno, seg := (h.tli, segno) } := by
  have hhist : env.history 0 = h := by rw [ScanEnv.history, hone, List.getD_cons_zero]
  have hswitch : switchSegment env segno st = some { st with xlogreadsegno := some segno } := by
    unfold switchSegment
    split
    · next hopen => rw [← hopen]
    · unfold openSegment
      dsimp only
      rw [hzero, earlierTimeline_zero hone, hhist, hfile, ← hzero]
  have hpage : (slice segment (ptr % env.sz.size) xlogBlcksz).length = xlogBlcksz := by
    rw [length_slice]
    omega
  unfold simpleXLogPageRead
  dsimp only
  rw [hptr, hswitch]
  simp only [Option.bind_eq_bind, Option.bind_some, hzero, hhist, hfile, hpage, ne_eq, not_true,
    if_false]

/-- A page of a segment that must be restored first. -/
theorem simpleXLogPageRead_restored (hone : env.targetHistory = [h]) (hzero : st.tliIndex = 0)
    {restore : List UInt8 → Option (List UInt8)} (hrestore : env.restoreCommand = some restore)
    (hptr : ptr / env.sz.size = segno) (hnone : st.file (walPath env.sz h.tli segno) = none)
    (hclosed : st.xlogreadsegno ≠ some segno)
    (harchive : restore (xLogFileName env.sz h.tli segno) = some segment)
    (hlen : ptr % env.sz.size + xlogBlcksz ≤ segment.length) :
    simpleXLogPageRead env st ptr =
      some { st.restore (walPath env.sz h.tli segno) segment with
        xlogreadsegno := some segno
        seg := (h.tli, segno) } := by
  have hhist : env.history 0 = h := by rw [ScanEnv.history, hone, List.getD_cons_zero]
  have hswitch : switchSegment env segno st =
      some { st.restore (walPath env.sz h.tli segno) segment with xlogreadsegno := some segno } := by
    unfold switchSegment openSegment
    rw [if_neg hclosed]
    dsimp only
    rw [hzero, earlierTimeline_zero hone, hhist, hnone, hrestore]
    dsimp only
    rw [harchive]
    simp only [ScanState.restore, hzero]
  have hpage : (slice segment (ptr % env.sz.size) xlogBlcksz).length = xlogBlcksz := by
    rw [length_slice]
    omega
  unfold simpleXLogPageRead
  dsimp only
  rw [hptr, hswitch]
  simp only [Option.bind_eq_bind, Option.bind_some, ScanState.restore, hzero, hhist,
    Function.update_self, hpage, ne_eq, not_true, if_false]

end Pages

/-- The source knows encryption and has not encrypted its WAL; the target has. Both are in the third
segment, and the source has the second one as well. -/
def sampleRewindEnv (src : List UInt8) : RewindEnv where
  w := sampleWorld
  aes := fun _ _ _ => 1
  c := fun _ _ _ => 1
  sz := sampleSegSz
  libpq := false
  sourceFile path :=
    if path = walPath sampleSegSz 1 2 ∨ path = walPath sampleSegSz 1 3 then some src else none
  sourceRel _ _ _ := none
  sourceTde := some ⟨emptyKeyDir sampleKeyDir, fun _ => none⟩
  targetTde := ⟨sampleKeyDir, fun _ => none⟩

/-- The last common checkpoint starts at the end of the second segment, which the target has in its
archive only. -/
def sampleRewindTarget (segment : List UInt8) : RewindTarget where
  targetHistory := [⟨1, 0, 0⟩]
  restoreCommand := some fun name =>
    if name = xLogFileName sampleSegSz 1 2 then some segment else none
  lastcommontliIndex := 0
  records := ⟨[3145728], [[3145728], [2097152, 3137536, 3145728]], [[2097152, 3137536, 3145728]]⟩
  changes := []
  file path := if path = walPath sampleSegSz 1 3 then some segment else none
  rel _ _ _ := none

/-- The second segment is restored, and the third one is to be kept. -/
def sampleScanResult (segment : List UInt8) : ScanResult :=
  let file := Function.update (sampleRewindTarget segment).file (walPath sampleSegSz 1 2) (some segment)
  ⟨[walPath sampleSegSz 1 3], file, file, [walPath sampleSegSz 1 2]⟩

theorem sampleSegment_ne : walPath sampleSegSz 1 3 ≠ walPath sampleSegSz 1 2 := by decide

section SampleScan

variable {st : ScanState} {segment : List UInt8}

theorem sampleRewindTarget_third (segment : List UInt8) :
    (sampleRewindTarget segment).file (walPath sampleSegSz 1 3) = some segment := by
  dsimp only [sampleRewindTarget]
  rw [if_pos rfl]

theorem sampleRewindTarget_second (segment : List UInt8) :
    (sampleRewindTarget segment).file (walPath sampleSegSz 1 2) = none := by
  dsimp only [sampleRewindTarget]
  rw [if_neg sampleSegment_ne.symm]

theorem sampleScanResult_third (segment : List UInt8) :
    (sampleScanResult segment).file (walPath sampleSegSz 1 3) = some segment := by
  dsimp only [sampleScanResult]
  rw [Function.update_of_ne sampleSegment_ne, sampleRewindTarget_third]

theorem sampleScanResult_second (segment : List UInt8) :
    (sampleScanResult segment).file (walPath sampleSegSz 1 2) = some segment := by
  dsimp only [sampleScanResult]
  rw [Function.update_self]

/-- Where a page is in its segment. -/
theorem sampleScanEnv_page {ptr segno off : ℕ} (hptr : ptr / sampleSegSz.size = segno)
    (hoff : ptr % sampleSegSz.size = off) (hin : off + xlogBlcksz ≤ 2 ^ 20)
    (hlen : segment.length = 2 ^ 20) :
    ptr / ((sampleRewindTarget segment).scanEnv sampleSegSz).sz.size = segno ∧
      ptr % ((sampleRewindTarget segment).scanEnv sampleSegSz).sz.size + xlogBlcksz ≤
        segment.length := by
  refine ⟨hptr, ?_⟩
  show ptr % sampleSegSz.size + xlogBlcksz ≤ _
  rw [hoff, hlen]
  exact hin

/-- Reading a record in the third segment. -/
theorem readRecord_third (hlen : segment.length = 2 ^ 20) (hzero : st.tliIndex = 0)
    (hthird : st.file (walPath sampleSegSz 1 3) = some segment) :
    readRecord ((sampleRewindTarget segment).scanEnv sampleSegSz) st [3145728] =
      some { st with xlogreadsegno := some 3, seg := (1, 3) } := by
  obtain ⟨hptr, hin⟩ := sampleScanEnv_page (by decide : 3145728 / sampleSegSz.size = 3)
    (by decide : 3145728 % sampleSegSz.size = 0) (by decide) hlen
  have hpage := @simpleXLogPageRead_present ((sampleRewindTarget segment).scanEnv sampleSegSz) st
    3145728 3 ⟨1, 0, 0⟩ segment rfl hzero hptr hthird hin
  rw [readRecord, List.foldlM_cons, hpage]
  rfl

/-- Reading the record that starts at the end of the second one, which is open. -/
theorem readRecord_rest (hlen : segment.length = 2 ^ 20) (hzero : st.tliIndex = 0)
    (hsecond : st.file (walPath sampleSegSz 1 2) = some segment)
    (hthird : st.file (walPath sampleSegSz 1 3) = some segment) :
    readRecord ((sampleRewindTarget segment).scanEnv sampleSegSz) st [3137536, 3145728] =
      some { st with xlogreadsegno := some 3, seg := (1, 3) } := by
  obtain ⟨hptr, hin⟩ := sampleScanEnv_page (by decide : 3137536 / sampleSegSz.size = 2)
    (by decide : 3137536 % sampleSegSz.size = 1040384) (by decide) hlen
  have hpage := @simpleXLogPageRead_present ((sampleRewindTarget segment).scanEnv sampleSegSz) st
    3137536 2 ⟨1, 0, 0⟩ segment rfl hzero hptr hsecond hin
  have hrest := @readRecord_third { st with xlogreadsegno := some 2, seg := (1, 2) } segment hlen hzero
    hthird
  rw [readRecord, List.foldlM_cons, hpage]
  exact hrest

theorem readRecord_crossing (hlen : segment.length = 2 ^ 20) (hzero : st.tliIndex = 0)
    (hsecond : st.file (walPath sampleSegSz 1 2) = some segment)
    (hthird : st.file (walPath sampleSegSz 1 3) = some segment) :
    readRecord ((sampleRewindTarget segment).scanEnv sampleSegSz) st [2097152, 3137536, 3145728] =
      some { st with xlogreadsegno := some 3, seg := (1, 3) } := by
  obtain ⟨hptr, hin⟩ := sampleScanEnv_page (by decide : 2097152 / sampleSegSz.size = 2)
    (by decide : 2097152 % sampleSegSz.size = 0) (by decide) hlen
  have hpage := @simpleXLogPageRead_present ((sampleRewindTarget segment).scanEnv sampleSegSz) st
    2097152 2 ⟨1, 0, 0⟩ segment rfl hzero hptr hsecond hin
  have hrest := @readRecord_rest { st with xlogreadsegno := some 2, seg := (1, 2) } segment hlen hzero
    hsecond hthird
  rw [readRecord, List.foldlM_cons, hpage]
  exact hrest

/-- The same, when the second segment is not there. -/
theorem readRecord_crossing_restored (hlen : segment.length = 2 ^ 20) (hzero : st.tliIndex = 0)
    (hsecond : st.file (walPath sampleSegSz 1 2) = none) (hclosed : st.xlogreadsegno = some 3)
    (hthird : st.file (walPath sampleSegSz 1 3) = some segment) :
    readRecord ((sampleRewindTarget segment).scanEnv sampleSegSz) st [2097152, 3137536, 3145728] =
      some { st.restore (walPath sampleSegSz 1 2) segment with
        xlogreadsegno := some 3
        seg := (1, 3) } := by
  have hrestore : (fun name => if name = xLogFileName sampleSegSz 1 2 then some segment else none)
      (xLogFileName sampleSegSz 1 2) = some segment := if_pos rfl
  obtain ⟨hptr, hin⟩ := sampleScanEnv_page (by decide : 2097152 / sampleSegSz.size = 2)
    (by decide : 2097152 % sampleSegSz.size = 0) (by decide) hlen
  have hpage := @simpleXLogPageRead_restored ((sampleRewindTarget segment).scanEnv sampleSegSz) st
    2097152 2 ⟨1, 0, 0⟩ segment rfl hzero _ rfl hptr hsecond (by rw [hclosed]; decide) hrestore hin
  have hrest := @readRecord_rest
    { st.restore (walPath sampleSegSz 1 2) segment with xlogreadsegno := some 2, seg := (1, 2) }
    segment hlen hzero (st.restore_self (walPath sampleSegSz 1 2) segment)
    ((st.restore_other segment sampleSegment_ne).trans hthird)
  rw [readRecord, List.foldlM_cons, hpage]
  exact hrest

theorem findLastCheckpoint_sample (hlen : segment.length = 2 ^ 20) :
    findLastCheckpoint ((sampleRewindTarget segment).scanEnv sampleSegSz) 0
      [[3145728], [2097152, 3137536, 3145728]]
      ⟨(sampleRewindTarget segment).file, 0, some 3, (1, 3), []⟩ =
        some ⟨⟨(sampleScanResult segment).file, 0, some 3, (1, 3), [walPath sampleSegSz 1 2]⟩, (1, 3),
          [walPath sampleSegSz 1 3]⟩ := by
  have hfork := @readRecord_third ⟨(sampleRewindTarget segment).file, 0, none, (0, 0), []⟩ segment hlen
    rfl (sampleRewindTarget_third segment)
  have hcheckpoint := @readRecord_crossing_restored
    ⟨(sampleRewindTarget segment).file, 0, some 3, (1, 3), []⟩ segment hlen rfl
    (sampleRewindTarget_second segment) rfl (sampleRewindTarget_third segment)
  have hfirst : findRecord ((sampleRewindTarget segment).scanEnv sampleSegSz)
      ⟨⟨(sampleRewindTarget segment).file, 0, none, (0, 0), []⟩, (0, 0), []⟩ [3145728] =
        some ⟨⟨(sampleRewindTarget segment).file, 0, some 3, (1, 3), []⟩, (1, 3),
          [walPath sampleSegSz 1 3]⟩ := by
    rw [findRecord, hfork]
    rfl
  have hlast : findRecord ((sampleRewindTarget segment).scanEnv sampleSegSz)
      ⟨⟨(sampleRewindTarget segment).file, 0, some 3, (1, 3), []⟩, (1, 3), [walPath sampleSegSz 1 3]⟩
      [2097152, 3137536, 3145728] =
        some ⟨⟨(sampleScanResult segment).file, 0, some 3, (1, 3), [walPath sampleSegSz 1 2]⟩, (1, 3),
          [walPath sampleSegSz 1 3]⟩ := by
    rw [findRecord, hcheckpoint]
    rfl
  rw [findLastCheckpoint, List.foldlM_cons, ScanState.beginScan, hfirst, Option.bind_eq_bind,
    Option.bind_some, List.foldlM_cons, hlast, Option.bind_eq_bind, Option.bind_some, List.foldlM_nil]
  rfl

theorem extractPageMap_sample (hlen : segment.length = 2 ^ 20) :
    extractPageMap ((sampleRewindTarget segment).scanEnv sampleSegSz) 0 [[2097152, 3137536, 3145728]]
      ⟨(sampleScanResult segment).file, 0, some 3, (1, 3), [walPath sampleSegSz 1 2]⟩ =
        some ⟨(sampleScanResult segment).file, 0, some 3, (1, 3), [walPath sampleSegSz 1 2]⟩ := by
  have hforward := @readRecord_crossing
    ⟨(sampleScanResult segment).file, 0, none, (0, 0), [walPath sampleSegSz 1 2]⟩ segment hlen rfl
    (sampleScanResult_second segment) (sampleScanResult_third segment)
  rw [extractPageMap, List.foldlM_cons, ScanState.beginScan, hforward, Option.bind_eq_bind,
    Option.bind_some, List.foldlM_nil]
  rfl

theorem scanTarget_sample (hlen : segment.length = 2 ^ 20) :
    scanTarget ((sampleRewindTarget segment).scanEnv sampleSegSz) 0
      (sampleRewindTarget segment).records (sampleRewindTarget segment).file =
        some (sampleScanResult segment) := by
  have hend : readOneRecord ((sampleRewindTarget segment).scanEnv sampleSegSz)
      (((sampleRewindTarget segment).scanEnv sampleSegSz).targetHistory.length - 1)
      (sampleRewindTarget segment).records.endOfWal
      ⟨(sampleRewindTarget segment).file, 0, none, (0, 0), []⟩ =
        some ⟨(sampleRewindTarget segment).file, 0, some 3, (1, 3), []⟩ :=
    @readRecord_third ⟨(sampleRewindTarget segment).file, 0, none, (0, 0), []⟩ segment hlen rfl
      (sampleRewindTarget_third segment)
  have hfind := findLastCheckpoint_sample hlen
  have hmap := extractPageMap_sample hlen
  have hbackward : (sampleRewindTarget segment).records.backward =
      [[3145728], [2097152, 3137536, 3145728]] := rfl
  have hforward : (sampleRewindTarget segment).records.forward = [[2097152, 3137536, 3145728]] := rfl
  unfold scanTarget
  rw [hend, hbackward, hforward]
  simp only [Option.bind_eq_bind, Option.bind_some, hfind, hmap]
  rfl

end SampleScan

/-! ### What becomes of the two segments -/

/-- Both directories have them. -/
def sampleListing : List (RewindPath × ℕ) :=
  [(.file (walPath sampleSegSz 1 2), 2 ^ 20), (.file (walPath sampleSegSz 1 3), 2 ^ 20)]

theorem sampleListing_of {file : List UInt8 → Option (List UInt8)}
    {rel : RelFileLocator → ForkNumber → ℕ → Option (List Page)}
    (hsecond : (file (walPath sampleSegSz 1 2)).map List.length = some (2 ^ 20))
    (hthird : (file (walPath sampleSegSz 1 3)).map List.length = some (2 ^ 20))
    (hfile : ∀ path, path ≠ walPath sampleSegSz 1 2 → path ≠ walPath sampleSegSz 1 3 → file path = none)
    (hrel : ∀ rlocator fork segNo, rel rlocator fork segNo = none) :
    Listing (fileSizes file rel) sampleListing := by
  refine ⟨?_, fun path n => ?_⟩
  · show [RewindPath.file _, RewindPath.file _].Nodup
    rw [List.nodup_cons, List.mem_singleton, RewindPath.file.injEq]
    exact ⟨sampleSegment_ne.symm, List.nodup_singleton _⟩
  · unfold sampleListing
    rw [List.mem_cons, List.mem_singleton, Prod.mk.injEq, Prod.mk.injEq]
    cases path with
    | rel rlocator fork segNo => simp [fileSizes, hrel]
    | file path =>
        rw [RewindPath.file.injEq, RewindPath.file.injEq, fileSizes]
        by_cases h2 : path = walPath sampleSegSz 1 2
        · rw [h2, hsecond]
          simp only [sampleSegment_ne.symm, true_and, false_and, or_false, Option.some.injEq]
          exact eq_comm
        · by_cases h3 : path = walPath sampleSegSz 1 3
          · rw [h3, hthird]
            simp only [sampleSegment_ne, true_and, false_and, false_or, Option.some.injEq]
            exact eq_comm
          · simp [h2, h3, hfile path h2 h3]

def sampleEntries : List FileEntry :=
  [⟨.file (walPath sampleSegSz 1 2), some (2 ^ 20), some (2 ^ 20), [], .copy⟩,
    ⟨.file (walPath sampleSegSz 1 3), some (2 ^ 20), some (2 ^ 20), [], .copy⟩]

theorem fileMap_sample :
    fileMap [walPath sampleSegSz 1 3] sampleListing sampleListing [] = some sampleEntries := rfl

section SampleRun

variable {src segment : List UInt8}

theorem sampleRewindEnv_source (src : List UInt8) {path : List UInt8}
    (h : path = walPath sampleSegSz 1 2 ∨ path = walPath sampleSegSz 1 3) :
    (sampleRewindEnv src).sourceFile path = some src := by
  dsimp only [sampleRewindEnv]
  rw [if_pos h]

theorem sampleKeyDirs_ok (src : List UInt8) :
    KeyDir (sampleRewindEnv src).w (sampleRewindEnv src).targetTde.server ∧
      KeyDir (sampleRewindEnv src).w (sampleRewindEnv src).tmpSource.server :=
  ⟨sampleKeyDir_ok, emptyKeyDir_ok sampleKeyDir_ok⟩

theorem performChunk_sample (hsrc : src.length = 2 ^ 20) {path : List UInt8}
    (h : path = walPath sampleSegSz 1 2 ∨ path = walPath sampleSegSz 1 3) (st : RewindState) :
    ∃ st', performStep (sampleRewindEnv src) st (.chunk ⟨.file path, 0, 2 ^ 20, false⟩) = some st' := by
  have hdata : fetchData (sampleRewindEnv src).libpq ⟨.file path, 0, 2 ^ 20, false⟩ 1 (some src) =
      some (some (slice src 0 (2 ^ 20))) := by
    show fetchData false _ _ _ = _
    simp only [fetchData, Bool.false_eq_true, if_false, hsrc, Nat.div_one, ne_eq, not_true,
      and_false]
  refine ⟨st.putFile path (writeTargetRange 0 (st.file path) 0 (slice src 0 (2 ^ 20))), ?_⟩
  rw [performStep, fetchChunk]
  dsimp only
  rw [sampleRewindEnv_source src h, hdata]
  rfl

theorem performRewind_sample (hsrc : src.length = 2 ^ 20) (st : RewindState)
    (htmp : st.tmpSource = (sampleRewindEnv src).tmpSource) :
    ∃ st' dir, performRewind (sampleRewindEnv src) [walPath sampleSegSz 1 3]
      [walPath sampleSegSz 1 2] sampleEntries st = some (st', dir) := by
  have hsteps : scheduleEntries (sampleRewindEnv src).libpq sampleEntries =
      [.openTarget (.file (walPath sampleSegSz 1 2)),
        .chunk ⟨.file (walPath sampleSegSz 1 2), 0, 2 ^ 20, false⟩,
        .openTarget (.file (walPath sampleSegSz 1 3)),
        .chunk ⟨.file (walPath sampleSegSz 1 3), 0, 2 ^ 20, false⟩] := by
    show scheduleEntries false sampleEntries = _
    rfl
  have hopen : ∀ (st : RewindState) path, performStep (sampleRewindEnv src) st
      (.openTarget (.file path)) = some (st.putFile path (some [])) := fun _ _ => rfl
  obtain ⟨st₁, h₁⟩ := performChunk_sample hsrc (.inl rfl)
    (st.putFile (walPath sampleSegSz 1 2) (some []))
  obtain ⟨st₂, h₂⟩ := performChunk_sample hsrc (.inr rfl)
    (st₁.putFile (walPath sampleSegSz 1 3) (some []))
  have hrun : (scheduleEntries (sampleRewindEnv src).libpq sampleEntries).foldlM
      (performStep (sampleRewindEnv src)) st = some st₂ := by
    rw [hsteps]
    simp only [List.foldlM_cons, List.foldlM_nil, Option.bind_eq_bind, Option.bind_some, hopen, h₁, h₂,
      Option.pure_def]
  have hserver : (flushCurrentTdeRelKey (sampleRewindEnv src).c st₂).tmpSource.server =
      (sampleRewindEnv src).tmpSource.server := by
    rw [(flushCurrentTdeRelKey_sameFiles st₂).server, (performSteps_file [] hrun).1, htmp]
  obtain ⟨st₃, h₃⟩ := @ensureTdeArchiveSeg_some (sampleRewindEnv src)
    (flushCurrentTdeRelKey (sampleRewindEnv src).c st₂) [walPath sampleSegSz 1 3]
    (walPath sampleSegSz 1 2) (sampleKeyDirs_ok src).1 (hserver.symm ▸ (sampleKeyDirs_ok src).2)
  unfold performRewind
  rw [hrun]
  simp only [Option.bind_eq_bind, Option.bind_some, List.foldlM_cons, List.foldlM_nil, h₃,
    Option.pure_def]
  exact ⟨_, _, rfl⟩

theorem rewound_sample (hsrc : src.length = 2 ^ 20) (hlen : segment.length = 2 ^ 20) :
    ∃ st dir, Rewound (sampleRewindEnv src) (sampleRewindTarget segment) (sampleScanResult segment)
      st dir := by
  obtain ⟨st, dir, hrun⟩ := @performRewind_sample src hsrc
    ⟨(sampleScanResult segment).file, (sampleRewindTarget segment).rel, (sampleRewindEnv src).tmpSource,
      none⟩ rfl
  have hsources : Listing (fileSizes (sampleRewindEnv src).sourceFile (sampleRewindEnv src).sourceRel)
      sampleListing := by
    refine sampleListing_of ?_ ?_ (fun path h2 h3 => ?_) fun _ _ _ => rfl
    · rw [sampleRewindEnv_source src (.inl rfl), Option.map_some, hsrc]
    · rw [sampleRewindEnv_source src (.inr rfl), Option.map_some, hsrc]
    · dsimp only [sampleRewindEnv]
      rw [if_neg (by simp [h2, h3])]
  have htargets : Listing (fileSizes (sampleScanResult segment).listed (sampleRewindTarget segment).rel)
      sampleListing := by
    refine sampleListing_of ?_ ?_ (fun path h2 h3 => ?_) fun _ _ _ => rfl
    · show ((sampleScanResult segment).file _).map List.length = _
      rw [sampleScanResult_second, Option.map_some, hlen]
    · show ((sampleScanResult segment).file _).map List.length = _
      rw [sampleScanResult_third, Option.map_some, hlen]
    · dsimp only [sampleScanResult, sampleRewindTarget]
      rw [Function.update_of_ne h2, if_neg h3]
  exact ⟨st, dir, scanTarget_sample hlen, sampleListing, sampleListing, sampleEntries, sampleEntries,
    hsources, htargets, fileMap_sample, .refl _, hrun⟩

/-- The keys of the target change the second segment of the source. -/
theorem cryptSegment_sample (hsrc : src.length = 2 ^ 20) :
    cryptSegment (sampleRewindEnv src) sampleKeyDir (walPath sampleSegSz 1 2) src ≠ src := by
  intro hsame
  have hstart : segmentStart sampleSegSz (lastComponent (walPath sampleSegSz 1 2)) = ⟨1, 2, 0⟩ := by
    decide
  have hpage : (src.take xlogBlcksz).length = xlogBlcksz := by
    rw [List.length_take, hsrc]
    rfl
  have hin : InSegment sampleSegSz ⟨1, 2, 0⟩ (src.take xlogBlcksz).length := by
    rw [hpage]
    exact ⟨by decide, by decide, by decide⟩
  have hkeys := @cryptKeys_sampleKeyDir sampleSegSz ⟨1, 2, 0⟩ (src.take xlogBlcksz) hin rfl (by decide)
  have hmask := cryptWith_addsMask (sampleRewindEnv src) sampleKeyDir ⟨1, 2, 0⟩ (src.take xlogBlcksz)
  obtain ⟨b, hb⟩ : ∃ b, src[0]? = some b := ⟨src[0], List.getElem?_eq_getElem (by omega)⟩
  have hb' : (src.take xlogBlcksz)[0]? = some b := by
    rw [List.getElem?_take_of_lt (by decide), hb]
  -- the first byte, with the mask and with the sample cipher
  have hone : b ^^^ dirMask (sampleRewindEnv src) sampleKeyDir ⟨1, 2, 0⟩ xlogBlcksz 0 = b ^^^ 1 := by
    have hfirst := congrArg (fun l : List UInt8 => l[0]?) (hmask.symm.trans hkeys)
    simp only [List.getElem?_mapIdx, List.getElem?_map, hb', Option.map_some, hpage,
      Option.some.injEq] at hfirst
    exact hfirst
  have hzero : b ^^^ dirMask (sampleRewindEnv src) sampleKeyDir ⟨1, 2, 0⟩ xlogBlcksz 0 = b := by
    have hfirst := congrArg (fun l : List UInt8 => l[0]?) hsame
    have hmin : min xlogBlcksz src.length = xlogBlcksz := by
      rw [hsrc]
      rfl
    have hstart' : segmentStart (sampleRewindEnv src).sz (lastComponent (walPath sampleSegSz 1 2)) =
        ⟨1, 2, 0⟩ := hstart
    simp only [cryptSegment, hstart', List.getElem?_mapIdx, hb, Option.map_some, Option.some.injEq] at hfirst
    rw [pagesMask_first (by decide), hmin] at hfirst
    exact hfirst
  have hcontra := congrArg (b ^^^ ·) (hone.symm.trans hzero)
  rw [← UInt8.xor_assoc, UInt8.xor_self, UInt8.zero_xor] at hcontra
  exact absurd hcontra (by decide)

end SampleRun

/-- A segment as the target writes it. -/
def sampleTargetSegment : List UInt8 := sampleSegment.map (· ^^^ 1)

theorem length_sampleTargetSegment : sampleTargetSegment.length = 2 ^ 20 := by
  rw [sampleTargetSegment, List.length_map, length_sampleSegment]

/-- The second segment of the source is in the archive of the target as well, and is not to be kept. -/
theorem rewind_corrupts_source_segment :
    KeyDir (sampleRewindEnv sampleSegment).w (sampleRewindEnv sampleSegment).targetTde.server ∧
      (∀ d, (sampleRewindEnv sampleSegment).sourceTde = some d →
        KeyDir (sampleRewindEnv sampleSegment).w d.server) ∧
      ∃ st dir file, Rewound (sampleRewindEnv sampleSegment) (sampleRewindTarget sampleTargetSegment)
        (sampleScanResult sampleTargetSegment) st dir ∧
        st.file (walPath sampleSegSz 1 2) = some file ∧
        ¬ SegmentReadable (sampleRewindEnv sampleSegment) (sampleScanResult sampleTargetSegment) dir
          (walPath sampleSegSz 1 2) file := by
  obtain ⟨ht, hs⟩ := sampleKeyDirs_ok sampleSegment
  obtain ⟨st, dir, hrun⟩ := rewound_sample length_sampleSegment length_sampleTargetSegment
  have hsource := sampleRewindEnv_source sampleSegment (.inl rfl)
  have hagain : walPath sampleSegSz 1 2 ∈ (sampleScanResult sampleTargetSegment).archiveWalSegments ∧
      walPath sampleSegSz 1 2 ∉ (sampleScanResult sampleTargetSegment).keepwal :=
    ⟨List.mem_singleton_self _, by
      rw [sampleScanResult, List.mem_singleton]
      exact sampleSegment_ne.symm⟩
  have hfile := (hrun.segment 1 2).1 sampleSegment hsource
  rw [show (sampleRewindEnv sampleSegment).sz = sampleSegSz from rfl, if_pos hagain,
    ensureTdeWalSeg_eq ht hs] at hfile
  have htmp : ∀ path f, cryptSegment (sampleRewindEnv sampleSegment)
      (sampleRewindEnv sampleSegment).tmpSource.server path f = f :=
    fun _ _ => cryptSegment_emptyKeyDir
  have hdir : dir.server = (sampleRewindEnv sampleSegment).tmpSource.server := hrun.keyDir
  refine ⟨ht, fun d hd => ?_, st, dir, _, hrun, (Option.some.inj hfile).symm, ?_⟩
  · cases hd
    exact hs
  · unfold SegmentReadable
    rw [hsource, hdir]
    simp only [readWalSegment_eq hs, htmp, Option.some.injEq, exists_eq_left']
    exact cryptSegment_sample length_sampleSegment

/-- The third one is kept. -/
theorem rewind_segment_readable_sample :
    ∃ st dir file, Rewound (sampleRewindEnv sampleSegment) (sampleRewindTarget sampleTargetSegment)
      (sampleScanResult sampleTargetSegment) st dir ∧
      st.file (walPath sampleSegSz 1 3) = some file ∧
      (SegmentReadable (sampleRewindEnv sampleSegment) (sampleScanResult sampleTargetSegment) dir
          (walPath sampleSegSz 1 3) file ↔
        SegmentSpared (sampleRewindEnv sampleSegment) (sampleScanResult sampleTargetSegment)
          (walPath sampleSegSz 1 3)) := by
  obtain ⟨ht, hs⟩ := sampleKeyDirs_ok sampleSegment
  obtain ⟨st, dir, hrun⟩ := rewound_sample length_sampleSegment length_sampleTargetSegment
  have hsource := sampleRewindEnv_source sampleSegment (.inr rfl)
  have hfile : st.file (walPath sampleSegSz 1 3) = some sampleSegment := by
    have hcopied := (hrun.segment 1 3).1 sampleSegment hsource
    rwa [if_neg] at hcopied
    rintro ⟨-, hkept⟩
    exact hkept (List.mem_singleton_self _)
  exact ⟨st, dir, sampleSegment, hrun, hfile,
    rewind_segment_readable_iff ht (fun d hd => by cases hd; exact hs) hrun hfile⟩

end OpenPgTde
