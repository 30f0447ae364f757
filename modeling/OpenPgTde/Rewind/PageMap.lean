import OpenPgTde.Lib.Bitmap
import OpenPgTde.Rewind.FileMap

/-!
The page maps of `pg_rewind` (`pg_rewind/datapagemap.c`, `extractPageInfo` of `pg_rewind/parsexlog.c`).

The blocks of a file that were changed in the target are noted in a bitmap, that grows as it is needed. The
bitmap is read with an iterator, whose position is a block number and so 32 bits wide. A segment has too few
blocks for that to wrap around, and `perform_rewind` does with the bitmaps what it would do with lists of
blocks in ascending order.
-/

namespace OpenPgTde

open Lib.Bitmap

/-! ### The bitmap -/

/-- `datapagemap_t`; `bitmapsize` is the length of the bitmap. -/
structure Datapagemap where
  bitmap : List UInt8

/-- The bitmap that has a byte at `offset`. A new one has ten more bytes than are needed. -/
def Datapagemap.enlarge (map : Datapagemap) (offset : ℕ) : List UInt8 :=
  if map.bitmap.length ≤ offset then
    let newsize := offset + 1 + 10
    map.bitmap ++ List.replicate (newsize - map.bitmap.length) 0
  else map.bitmap

/-- `datapagemap_add`. -/
def Datapagemap.add (map : Datapagemap) (blkno : ℕ) : Datapagemap :=
  ⟨setBit (map.enlarge (blkno / 8)) blkno⟩

/-- `datapagemap_next`: the block that is found, and the number where the iterator is then. -/
def Datapagemap.next (map : Datapagemap) : ℕ → ℕ → Option (Option ℕ × ℕ)
  | 0, _ => none
  | fuel + 1, blk =>
    if map.bitmap.length ≤ blk / 8 then some (none, blk)
    else
      -- the iterator is moved on in either case
      let nextblkno := (blk + 1) % 2 ^ 32
      if bit map.bitmap blk then some (some blk, nextblkno) else map.next fuel nextblkno

/-- The blocks that a loop over an iterator gets. -/
def Datapagemap.iterate (map : Datapagemap) : ℕ → ℕ → Option (List ℕ)
  | 0, _ => none
  | fuel + 1, nextblkno =>
    match map.next fuel nextblkno with
    | none => none
    | some (none, _) => some []
    | some (some blk, nextblkno) => (map.iterate fuel nextblkno).map (blk :: ·)

section Bitmap

variable {map : Datapagemap} {blkno m n fuel : ℕ}

theorem length_enlarge (offset : ℕ) : offset < (map.enlarge offset).length ∧
    (map.enlarge offset).length ≤ max map.bitmap.length (offset + 11) := by
  rw [Datapagemap.enlarge]
  split
  · rw [List.length_append, List.length_replicate]
    omega
  · omega

theorem bit_enlarge (offset : ℕ) : bit (map.enlarge offset) n = bit map.bitmap n := by
  rw [Datapagemap.enlarge]
  split
  · exact bit_append_zeros _
  · rfl

theorem length_add : blkno / 8 < (map.add blkno).bitmap.length ∧
    (map.add blkno).bitmap.length ≤ max map.bitmap.length (blkno / 8 + 11) := by
  have hlength : (map.add blkno).bitmap.length = (map.enlarge (blkno / 8)).length := List.length_set
  rw [hlength]
  exact length_enlarge _

theorem bit_add : bit (map.add blkno).bitmap m = (decide (blkno = m) || bit map.bitmap m) := by
  rw [Datapagemap.add, bit_setBit (length_enlarge _).1, bit_enlarge]

/-- The iterator finds the next block, if it does not wrap around before. -/
theorem next_eq (hsize : 8 * map.bitmap.length < 2 ^ 32) (hn : n ≤ 8 * map.bitmap.length)
    (hfuel : 8 * map.bitmap.length < fuel + n) :
    (rest map.bitmap n = [] ∧ ∃ m, map.next fuel n = some (none, m)) ∨
      ∃ blk, n ≤ blk ∧ blk < 8 * map.bitmap.length ∧
        rest map.bitmap n = blk :: rest map.bitmap (blk + 1) ∧
        map.next fuel n = some (some blk, blk + 1) := by
  induction fuel generalizing n with
  | zero => omega
  | succ fuel ih =>
      rw [Datapagemap.next]
      by_cases hend : map.bitmap.length ≤ n / 8
      · rw [if_pos hend]
        exact .inl ⟨rest_of_le (by omega), n, rfl⟩
      · have hmod : (n + 1) % 2 ^ 32 = n + 1 := Nat.mod_eq_of_lt (by omega)
        rw [if_neg hend, hmod, rest_eq (by omega)]
        by_cases hbit : bit map.bitmap n = true
        · rw [if_pos hbit, if_pos hbit]
          exact .inr ⟨n, le_rfl, lt_of_bit hbit, rfl, rfl⟩
        · rw [if_neg hbit, if_neg hbit]
          rcases @ih (n + 1) (by omega) (by omega) with hnone | ⟨blk, hle, hfound⟩
          · exact .inl hnone
          · exact .inr ⟨blk, by omega, hfound⟩

theorem iterate_eq (hsize : 8 * map.bitmap.length < 2 ^ 32) (hn : n ≤ 8 * map.bitmap.length)
    (hfuel : 8 * map.bitmap.length + 1 < fuel + n) :
    map.iterate fuel n = some (rest map.bitmap n) := by
  induction fuel generalizing n with
  | zero => omega
  | succ fuel ih =>
      rw [Datapagemap.iterate]
      rcases @next_eq map n fuel hsize hn (by omega) with
        ⟨hrest, m, hnext⟩ | ⟨blk, hle, hlt, hrest, hnext⟩
      · rw [hnext, hrest]
      · rw [hnext, hrest]
        have hiterate := @ih (blk + 1) (by omega) (by omega)
        exact congrArg (Option.map (blk :: ·)) hiterate

theorem datapagemapAdd_pairwise {pages : List ℕ} (h : pages.Pairwise (· < ·)) :
    (datapagemapAdd pages blkno).Pairwise (· < ·) := by
  rw [datapagemapAdd]
  split
  · exact h
  · next hnew =>
      have hle : (pages.orderedInsert (· ≤ ·) blkno).Pairwise (· ≤ ·) :=
        List.Pairwise.orderedInsert blkno pages (h.imp Nat.le_of_lt)
      have hnodup : (pages.orderedInsert (· ≤ ·) blkno).Nodup :=
        (List.perm_orderedInsert (· ≤ ·) blkno pages).nodup_iff.2
          (List.nodup_cons.2 ⟨hnew, h.imp Nat.ne_of_lt⟩)
      exact List.Pairwise.imp₂ (fun _ _ => Nat.lt_of_le_of_ne) hle hnodup

/-- A block is added to the list of the blocks. -/
theorem rest_add : rest (map.add blkno).bitmap 0 = datapagemapAdd (rest map.bitmap 0) blkno := by
  apply rest_eq_of_mem (datapagemapAdd_pairwise rest_pairwise)
  intro m
  rw [mem_datapagemapAdd, mem_rest, bit_add]
  simp [or_comm]

end Bitmap

/-! ### The blocks that the records change -/

/-- `RM_XACT_ID`, `RM_SMGR_ID` and `RM_DBASE_ID`. -/
def rmXactId : ℕ := 1

def rmSmgrId : ℕ := 2

def rmDbaseId : ℕ := 4

/-- What is read of a record: its resource manager, its information byte, and what
`XLogRecGetBlockTagExtended` says of each of its blocks. -/
structure DecodedRecord where
  rmid : ℕ
  info : UInt8
  blocks : List (Option (RelFileLocator × ForkNumber × ℕ))

/-- The special record types that are known: databases that are created or dropped, relation files that are
created or truncated, and the ends of transactions. -/
def DecodedRecord.recognized (r : DecodedRecord) : Bool :=
  let rminfo := r.info &&& 0xF0
  (r.rmid = rmDbaseId && (rminfo = 0x00 || rminfo = 0x10 || rminfo = 0x20)) ||
    (r.rmid = rmSmgrId && (rminfo = 0x10 || rminfo = 0x20)) ||
    (r.rmid = rmXactId && (rminfo &&& 0x70 = 0x00 || rminfo &&& 0x70 = 0x30 ||
      rminfo &&& 0x70 = 0x20 || rminfo &&& 0x70 = 0x40))

/-- `XLR_SPECIAL_REL_UPDATE`. -/
def DecodedRecord.specialRelUpdate (r : DecodedRecord) : Bool := r.info &&& 0x01 ≠ 0

/-- `file_entry_t` of a regular file. -/
structure MappedEntry where
  path : RewindPath
  targetSize : Option ℕ
  sourceSize : Option ℕ
  targetPagesToOverwrite : Datapagemap
  action : FileAction

/-- `process_target_wal_block_change`; the offset is computed from a block number and so 32 bits wide. -/
def noteBlockChange (hash : List MappedEntry) (change : RelFileLocator × ForkNumber × ℕ) :
    List MappedEntry :=
  let (rlocator, fork, blkno) := change
  let blknoInseg := blkno % relSegSize
  let endOffset := (blknoInseg + 1) * blckSz % 2 ^ 32
  hash.map fun e =>
    if e.path = .rel rlocator fork (blkno / relSegSize) ∧
        (e.targetSize.any fun size => endOffset ≤ size) ∧ e.sourceSize.any fun size => endOffset ≤ size then
      { e with targetPagesToOverwrite := e.targetPagesToOverwrite.add blknoInseg }
    else e

def extractBlock (hash : List MappedEntry) : Option (RelFileLocator × ForkNumber × ℕ) → List MappedEntry
  | none => hash
  | some change => if change.2.1 = .main then noteBlockChange hash change else hash

/-- `extractPageInfo`. -/
def extractPageInfo (hash : List MappedEntry) (r : DecodedRecord) : Option (List MappedEntry) :=
  if !r.recognized && r.specialRelUpdate then none else some (r.blocks.foldl extractBlock hash)

/-! ### The files with their page maps -/

def decideMappedActions (keepwal : List (List UInt8)) (hash : List MappedEntry) : List MappedEntry :=
  hash.map fun e => { e with action := decideFileAction keepwal e.path e.targetSize e.sourceSize }

/-- The blocks that `perform_rewind` goes through. -/
def MappedEntry.pages (fuel : ℕ) (e : MappedEntry) : Option (List ℕ) :=
  if 0 < e.targetPagesToOverwrite.bitmap.length then e.targetPagesToOverwrite.iterate fuel 0 else some []

/-- One round of the loop of `perform_rewind`. -/
def performEntry (libpq : Bool) (fuel : ℕ) (s : Schedule) (e : MappedEntry) : Option Schedule :=
  (e.pages fuel).map fun pages =>
    let s := pages.foldl
      (fun s blkno => queueFetchRange libpq e.path (blkno * blckSz % 2 ^ 32) blckSz s) s
    match e.action with
    | .create => s
    | .none => s
    | .ensureTdeKey =>
      if e.targetPagesToOverwrite.bitmap.length = 0 then s.perform [.ensureTdeKeys e.path] else s
    | .ensureWalSeg => s.perform [.ensureWalSeg e.path]
    | .copy => queueFetchFile libpq e.path (e.sourceSize.getD 0) s
    | .truncate =>
      let s := s.perform [.truncate e.path (e.sourceSize.getD 0)]
      if e.targetPagesToOverwrite.bitmap.length = 0 then s.perform [.ensureTdeKeys e.path] else s
    | .copyTail =>
      queueFetchRange libpq e.path (e.targetSize.getD 0)
        (e.sourceSize.getD 0 - e.targetSize.getD 0) s
    | .remove => s.perform [.remove e.path]

/-- The loop of `perform_rewind`, up to `finish_fetch`. -/
def performEntries (libpq : Bool) (fuel : ℕ) (entries : List MappedEntry) : Option (List RewindStep) :=
  (entries.foldlM (performEntry libpq fuel) ⟨[], []⟩).map fun s => s.processQueued.done

/-! ### The page maps as lists of blocks -/

/-- A page map of the blocks of a segment. There is a bitmap only where a block is noted. -/
structure Datapagemap.OfSegment (map : Datapagemap) : Prop where
  length : map.bitmap.length ≤ relSegSize / 8 + 10
  noted : map.bitmap ≠ [] → rest map.bitmap 0 ≠ []
  lt : ∀ b ∈ rest map.bitmap 0, b < relSegSize

/-- The entry with its blocks in a list. -/
def MappedEntry.toEntry (e : MappedEntry) : FileEntry :=
  ⟨e.path, e.targetSize, e.sourceSize, rest e.targetPagesToOverwrite.bitmap 0, e.action⟩

/-- The blocks of the main fork that a record changes. -/
def DecodedRecord.changes (r : DecodedRecord) : List (RelFileLocator × ForkNumber × ℕ) :=
  r.blocks.filterMap fun block => block.filter fun change => change.2.1 = .main

section Refinement

variable {map : Datapagemap} {hash hash' : List MappedEntry} {blkno fuel : ℕ}

theorem Datapagemap.ofSegment_nil (h : map.bitmap = []) : map.OfSegment := by
  refine ⟨by rw [h]; exact Nat.zero_le _, fun hne => absurd h hne, fun b hb => ?_⟩
  rw [h] at hb
  cases hb

theorem Datapagemap.OfSegment.add (h : map.OfSegment) (hlt : blkno < relSegSize) :
    (map.add blkno).OfSegment := by
  have hadd : blkno ∈ rest (map.add blkno).bitmap 0 := by
    rw [rest_add, mem_datapagemapAdd]
    exact .inr rfl
  refine ⟨?_, fun _ => List.ne_nil_of_mem hadd, fun b hb => ?_⟩
  · have hlength := (@length_add map blkno).2
    have hold := h.length
    simp only [relSegSize] at hlt hold ⊢
    omega
  · rw [rest_add, mem_datapagemapAdd] at hb
    obtain hb | rfl := hb
    · exact h.lt b hb
    · exact hlt

theorem mod_relSegSize_lt : blkno % relSegSize < relSegSize := Nat.mod_lt _ (by decide)

/-- The offsets in a segment are no larger than 32 bits can hold. -/
theorem offset_mod (h : blkno ≤ relSegSize) : blkno * blckSz % 2 ^ 32 = blkno * blckSz := by
  apply Nat.mod_eq_of_lt
  simp only [relSegSize, blckSz] at h ⊢
  omega

theorem noteBlockChange_ofSegment {change : RelFileLocator × ForkNumber × ℕ}
    (h : ∀ e ∈ hash, e.targetPagesToOverwrite.OfSegment) :
    ∀ e ∈ noteBlockChange hash change, e.targetPagesToOverwrite.OfSegment := by
  intro e he
  obtain ⟨e, hmem, rfl⟩ := List.mem_map.1 he
  split
  · exact (h e hmem).add mod_relSegSize_lt
  · exact h e hmem

theorem noteBlockChange_toEntry (change : RelFileLocator × ForkNumber × ℕ) :
    (noteBlockChange hash change).map MappedEntry.toEntry =
      processTargetWalBlockChange (hash.map MappedEntry.toEntry) change := by
  rw [noteBlockChange, processTargetWalBlockChange, List.map_map, List.map_map]
  apply List.map_congr_left
  intro e _
  simp only [Function.comp_apply, offset_mod (Nat.succ_le_of_lt mod_relSegSize_lt)]
  by_cases hin : e.path = .rel change.1 change.2.1 (change.2.2 / relSegSize) ∧
      (e.targetSize.any fun size => (change.2.2 % relSegSize + 1) * blckSz ≤ size) ∧
      e.sourceSize.any fun size => (change.2.2 % relSegSize + 1) * blckSz ≤ size
  · rw [if_pos hin]
    apply Eq.trans _ (if_pos hin).symm
    rw [MappedEntry.toEntry, rest_add]
    rfl
  · rw [if_neg hin]
    exact (if_neg hin).symm

theorem extractBlocks_toEntry {blocks : List (Option (RelFileLocator × ForkNumber × ℕ))}
    (h : ∀ e ∈ hash, e.targetPagesToOverwrite.OfSegment) :
    (∀ e ∈ blocks.foldl extractBlock hash, e.targetPagesToOverwrite.OfSegment) ∧
      (blocks.foldl extractBlock hash).map MappedEntry.toEntry =
        (blocks.filterMap fun block => block.filter fun change => change.2.1 = .main).foldl
          processTargetWalBlockChange (hash.map MappedEntry.toEntry) := by
  induction blocks generalizing hash with
  | nil => exact ⟨h, rfl⟩
  | cons block blocks ih =>
      rw [List.foldl_cons]
      rcases block with _ | change
      · exact ih h
      · rw [extractBlock, List.filterMap_cons, Option.filter_some]
        by_cases hmain : change.2.1 = .main
        · rw [if_pos hmain, if_pos (decide_eq_true hmain)]
          obtain ⟨hmaps, hentries⟩ := ih (noteBlockChange_ofSegment h)
          refine ⟨hmaps, ?_⟩
          rw [hentries, noteBlockChange_toEntry]
          rfl
        · rw [if_neg hmain, if_neg (by simp [hmain])]
          exact ih h

/-- The records note the same blocks in the bitmaps and in the lists. -/
theorem extractPageInfos_toEntry {records : List DecodedRecord}
    (h : ∀ e ∈ hash, e.targetPagesToOverwrite.OfSegment)
    (hrun : records.foldlM extractPageInfo hash = some hash') :
    (∀ e ∈ hash', e.targetPagesToOverwrite.OfSegment) ∧
      hash'.map MappedEntry.toEntry =
        (records.flatMap DecodedRecord.changes).foldl processTargetWalBlockChange
          (hash.map MappedEntry.toEntry) := by
  induction records generalizing hash with
  | nil =>
      cases hrun
      exact ⟨h, rfl⟩
  | cons r records ih =>
      rw [List.foldlM_cons] at hrun
      obtain ⟨hash₁, hrecord, hrun⟩ := Option.bind_eq_some_iff.1 hrun
      rw [extractPageInfo] at hrecord
      split at hrecord
      · cases hrecord
      · cases hrecord
        obtain ⟨hmaps, hentries⟩ := @extractBlocks_toEntry hash r.blocks h
        obtain ⟨hmaps', hentries'⟩ := ih hmaps hrun
        refine ⟨hmaps', ?_⟩
        rw [hentries', hentries, List.flatMap_cons, List.foldl_append]
        rfl

theorem extractPageInfo_eq_none {r : DecodedRecord} :
    extractPageInfo hash r = none ↔ r.specialRelUpdate = true ∧ r.recognized = false := by
  rw [extractPageInfo]
  cases r.recognized <;> cases r.specialRelUpdate <;> simp

theorem extractPageInfos_eq_none {records : List DecodedRecord} :
    records.foldlM extractPageInfo hash = none ↔
      ∃ r ∈ records, r.specialRelUpdate = true ∧ r.recognized = false := by
  induction records generalizing hash with
  | nil => simp
  | cons r records ih =>
      rw [List.foldlM_cons, List.exists_mem_cons_iff, ← @extractPageInfo_eq_none hash r]
      cases extractPageInfo hash r with
      | none => simp
      | some hash₁ => simp [ih]

theorem Datapagemap.OfSegment.iterate (h : map.OfSegment) (hfuel : relSegSize + 81 < fuel) :
    map.iterate fuel 0 = some (rest map.bitmap 0) := by
  have hlength := h.length
  simp only [relSegSize] at hlength hfuel
  exact iterate_eq (by omega) (Nat.zero_le _) (by omega)

theorem Datapagemap.OfSegment.length_eq_zero (h : map.OfSegment) :
    map.bitmap.length = 0 ↔ rest map.bitmap 0 = [] := by
  rw [List.length_eq_zero_iff]
  refine ⟨fun hnil => ?_, fun hnil => not_not.1 fun hne => h.noted hne hnil⟩
  rw [hnil]
  rfl

theorem Datapagemap.OfSegment.pages {e : MappedEntry} (h : e.targetPagesToOverwrite.OfSegment)
    (hfuel : relSegSize + 81 < fuel) :
    e.pages fuel = some (rest e.targetPagesToOverwrite.bitmap 0) := by
  rw [MappedEntry.pages]
  split
  · exact h.iterate hfuel
  · next hzero => rw [h.length_eq_zero.1 (by omega)]

/-- The offsets that are asked for do not wrap around. -/
theorem fetchPages_mod {libpq : Bool} {path : RewindPath} {pages : List ℕ}
    (h : ∀ b ∈ pages, b < relSegSize) (s : Schedule) :
    pages.foldl (fun s blkno => queueFetchRange libpq path (blkno * blckSz % 2 ^ 32) blckSz s) s =
      pages.foldl (fun s blkno => queueFetchRange libpq path (blkno * blckSz) blckSz s) s := by
  induction pages generalizing s with
  | nil => rfl
  | cons b pages ih =>
      rw [List.forall_mem_cons] at h
      rw [List.foldl_cons, List.foldl_cons, offset_mod h.1.le]
      exact ih h.2 _

theorem performEntry_eq {libpq : Bool} {s : Schedule} {e : MappedEntry}
    (h : e.targetPagesToOverwrite.OfSegment) (hfuel : relSegSize + 81 < fuel) :
    performEntry libpq fuel s e = some (scheduleEntry libpq s e.toEntry) := by
  rw [performEntry, h.pages hfuel, Option.map_some, scheduleEntry]
  simp only [fetchPages_mod h.lt, h.length_eq_zero]
  rfl

theorem performEntries_eq {libpq : Bool} {entries : List MappedEntry}
    (h : ∀ e ∈ entries, e.targetPagesToOverwrite.OfSegment) (hfuel : relSegSize + 81 < fuel) :
    performEntries libpq fuel entries = some (scheduleEntries libpq (entries.map MappedEntry.toEntry)) := by
  have hfold : ∀ s : Schedule, entries.foldlM (performEntry libpq fuel) s =
      some ((entries.map MappedEntry.toEntry).foldl (scheduleEntry libpq) s) := by
    induction entries with
    | nil => exact fun s => rfl
    | cons e entries ih =>
        intro s
        rw [List.forall_mem_cons] at h
        rw [List.foldlM_cons, performEntry_eq h.1 hfuel]
        exact ih h.2 _
  rw [performEntries, scheduleEntries, hfold, Option.map_some]

theorem overwrites_congr {e e' : FileEntry} {change : RelFileLocator × ForkNumber × ℕ} {b : ℕ}
    (hpath : e.path = e'.path) (htarget : e.targetSize = e'.targetSize)
    (hsource : e.sourceSize = e'.sourceSize) : e.Overwrites change b ↔ e'.Overwrites change b := by
  rw [FileEntry.Overwrites, FileEntry.Overwrites, hpath, htarget, hsource]

theorem new_ofSegment (h : ∀ e ∈ hash, e.targetPagesToOverwrite.bitmap = []) :
    ∀ e ∈ hash, e.targetPagesToOverwrite.OfSegment :=
  fun e he => Datapagemap.ofSegment_nil (h e he)

theorem mem_changes {records : List DecodedRecord} {change : RelFileLocator × ForkNumber × ℕ} :
    change ∈ records.flatMap DecodedRecord.changes ↔
      ∃ r ∈ records, some change ∈ r.blocks ∧ change.2.1 = .main := by
  simp only [List.mem_flatMap, DecodedRecord.changes, List.mem_filterMap, Option.filter_eq_some_iff,
    decide_eq_true_iff]
  apply exists_congr
  intro r
  apply and_congr_right
  intro _
  constructor
  · rintro ⟨block, hblock, rfl, hmain⟩
    exact ⟨hblock, hmain⟩
  · rintro ⟨hblock, hmain⟩
    exact ⟨some change, hblock, rfl, hmain⟩

end Refinement

/-! ### What the bitmaps hold -/

/-- The records are gone through to the end if none of them changes a relation in a way that is not known. Then
the loop over the page map of a file gets, in ascending order and each once, the blocks of the main fork that
some record changes and that both sides have. -/
theorem page_maps_of_records {hash : List MappedEntry} (records : List DecodedRecord) {fuel : ℕ}
    (hnew : ∀ e ∈ hash, e.targetPagesToOverwrite.bitmap = []) (hfuel : relSegSize + 81 < fuel) :
    (records.foldlM extractPageInfo hash = none ↔
        ∃ r ∈ records, r.specialRelUpdate = true ∧ r.recognized = false) ∧
      ∀ hash', records.foldlM extractPageInfo hash = some hash' →
        ∀ e ∈ hash', ∃ pages, e.pages fuel = some pages ∧ pages.Pairwise (· < ·) ∧
          ∀ b, b ∈ pages ↔ ∃ r ∈ records, ∃ change, some change ∈ r.blocks ∧ change.2.1 = .main ∧
            e.toEntry.Overwrites change b := by
  refine ⟨extractPageInfos_eq_none, fun hash' hrun e he => ?_⟩
  obtain ⟨hmaps, hentries⟩ := extractPageInfos_toEntry (new_ofSegment hnew) hrun
  have hmem : e.toEntry ∈ (records.flatMap DecodedRecord.changes).foldl processTargetWalBlockChange
      (hash.map MappedEntry.toEntry) := by
    rw [← hentries]
    exact List.mem_map_of_mem he
  obtain ⟨e₀, he₀, hpath, htarget, hsource, hpages⟩ := mem_processTargetWalBlockChanges hmem
  obtain ⟨m, hm, rfl⟩ := List.mem_map.1 he₀
  refine ⟨rest e.targetPagesToOverwrite.bitmap 0, (hmaps e he).pages hfuel, rest_pairwise, fun b => ?_⟩
  have hnone : b ∉ m.toEntry.targetPagesToOverwrite := by
    rw [MappedEntry.toEntry, hnew m hm]
    exact List.not_mem_nil
  apply (hpages b).trans
  rw [or_iff_right hnone]
  constructor
  · rintro ⟨change, hchange, hover⟩
    obtain ⟨r, hr, hblock, hmain⟩ := mem_changes.1 hchange
    exact ⟨r, hr, change, hblock, hmain, (overwrites_congr hpath htarget hsource).2 hover⟩
  · rintro ⟨r, hr, change, hblock, hmain, hover⟩
    exact ⟨change, mem_changes.2 ⟨r, hr, hblock, hmain⟩,
      (overwrites_congr hpath htarget hsource).1 hover⟩

/-- A relation with three blocks on both sides. -/
def sampleMapped (bitmap : List UInt8) : MappedEntry :=
  ⟨.rel ⟨1663, 5, 16384⟩ .main 0, some 24576, some 24576, ⟨bitmap⟩, .none⟩

/-- The page map after `sampleChanges`. -/
def sampleBitmap : List UInt8 := [5, 0, 0, 0, 0, 0, 0, 0, 0, 0, 0]

/-- Records that change the blocks 0, 2 and 7 of the main fork, and one of another fork. -/
def sampleChanges : List DecodedRecord :=
  [⟨10, 0x00, [some (⟨1663, 5, 16384⟩, .main, 2), none, some (⟨1663, 5, 16384⟩, .main, 7)]⟩,
    ⟨rmSmgrId, 0x21, []⟩,
    ⟨10, 0x00, [some (⟨1663, 5, 16384⟩, .fsm, 1), some (⟨1663, 5, 16384⟩, .main, 0)]⟩]

theorem sampleChanges_run :
    sampleChanges.foldlM extractPageInfo [sampleMapped []] = some [sampleMapped sampleBitmap] := by
  rfl

theorem page_maps_of_records_sample :
    ∃ pages, (sampleMapped sampleBitmap).pages (relSegSize + 82) = some pages ∧ pages.Pairwise (· < ·) ∧
      ∀ b, b ∈ pages ↔ ∃ r ∈ sampleChanges, ∃ change, some change ∈ r.blocks ∧ change.2.1 = .main ∧
        (sampleMapped sampleBitmap).toEntry.Overwrites change b :=
  (page_maps_of_records sampleChanges (by decide) (Nat.lt_succ_self _)).2 _ sampleChanges_run _
    (List.mem_singleton_self _)

/-- With the bitmaps the same is done, in the same order, as with the lists of blocks of the file map. -/
theorem page_maps_refine_file_map {keepwal : List (List UInt8)} {sources targets : List (RewindPath × ℕ)}
    {hash hash' entries : List MappedEntry} {records : List DecodedRecord} {libpq : Bool} {fuel : ℕ}
    (htable : (sources.foldlM processSourceFile []).bind (targets.foldlM processTargetFile) =
      some (hash.map MappedEntry.toEntry))
    (hnew : ∀ e ∈ hash, e.targetPagesToOverwrite.bitmap = [])
    (hrun : records.foldlM extractPageInfo hash = some hash')
    (hperm : entries.Perm (decideMappedActions keepwal hash')) (hfuel : relSegSize + 81 < fuel) :
    ∃ files, fileMap keepwal sources targets (records.flatMap DecodedRecord.changes) = some files ∧
      (entries.map MappedEntry.toEntry).Perm files ∧
      performEntries libpq fuel entries =
        some (scheduleEntries libpq (entries.map MappedEntry.toEntry)) := by
  obtain ⟨hmaps, hentries⟩ := extractPageInfos_toEntry (new_ofSegment hnew) hrun
  have hdecide : (decideMappedActions keepwal hash').map MappedEntry.toEntry =
      decideFileActions keepwal (hash'.map MappedEntry.toEntry) := by
    rw [decideMappedActions, decideFileActions, List.map_map, List.map_map]
    rfl
  refine ⟨decideFileActions keepwal (hash'.map MappedEntry.toEntry), ?_, ?_, ?_⟩
  · obtain ⟨hash₁, hsources, htargets⟩ := Option.bind_eq_some_iff.1 htable
    rw [fileMap, hsources, hentries]
    simp only [Option.bind_eq_bind, Option.bind_some, htargets]
  · rw [← hdecide]
    exact hperm.map _
  · apply performEntries_eq _ hfuel
    intro e he
    obtain ⟨e', he', rfl⟩ := List.mem_map.1 (hperm.mem_iff.1 he)
    exact hmaps e' he'

theorem page_maps_refine_file_map_sample :
    ∃ files, fileMap [] [((sampleMapped []).path, 24576)] [((sampleMapped []).path, 24576)]
        (sampleChanges.flatMap DecodedRecord.changes) = some files ∧
      ((decideMappedActions [] [sampleMapped sampleBitmap]).map MappedEntry.toEntry).Perm files ∧
      performEntries true (relSegSize + 82) (decideMappedActions [] [sampleMapped sampleBitmap]) =
        some (scheduleEntries true
          ((decideMappedActions [] [sampleMapped sampleBitmap]).map MappedEntry.toEntry)) :=
  page_maps_refine_file_map rfl (by decide) sampleChanges_run (.refl _) (Nat.lt_succ_self _)

end OpenPgTde
