import OpenPgTde.TempFile.Plain

/-!
When encrypted temporary files read like plain ones.

What a dump wrote is encrypted as one unit. It can be had back only by a load of the same bytes:
another length takes another permutation, and another position takes other bytes, and possibly the
number of another block. Nothing in a buffered file sees to that. A seek may go anywhere, and the
load after it takes what is from there on.

With and without encryption a file does the same transfers, as the lengths are the same. So the
question is whether in a run without encryption every load covers just the bytes that one dump wrote
and no other dump has touched since. If so, a run with encryption returns the same bytes.
-/

namespace OpenPgTde

open Lib.Splice

/-! ### Units -/

/-- The dump that wrote a byte last: its position and its length. The last transfer comes first. -/
def lastDump : List BufFileIo → ℕ → Option (ℕ × ℕ)
  | [], _ => none
  | .dump a n :: io, i => if a ≤ i ∧ i < a + n then some (a, n) else lastDump io i
  | .load _ _ :: io, i => lastDump io i

/-- Every load takes just what one dump wrote. -/
def WholeUnits : List BufFileIo → Prop
  | [] => True
  | .dump _ _ :: io => WholeUnits io
  | .load a n :: io => (∀ i < n, lastDump io (a + i) = some (a, n)) ∧ WholeUnits io

instance decidableWholeUnits : (io : List BufFileIo) → Decidable (WholeUnits io)
  | [] => isTrue trivial
  | .dump _ _ :: io => decidableWholeUnits io
  | .load a n :: io =>
      have := decidableWholeUnits io
      inferInstanceAs (Decidable ((∀ i < n, lastDump io (a + i) = some (a, n)) ∧ WholeUnits io))

theorem WholeUnits.of_suffix {io io' : List BufFileIo} (h : WholeUnits io') (hs : io <:+ io') :
    WholeUnits io := by
  obtain ⟨newer, rfl⟩ := hs
  induction newer with
  | nil => exact h
  | cons e newer ih =>
      cases e with
      | dump a n => exact ih h
      | load a n => exact ih h.2

/-- The files with and without encryption: where a unit is whole, the one has the encryption of the
other. -/
structure Stored (c : BufFileCodec) (disk cipher : List UInt8) (io : List BufFileIo) : Prop where
  length : cipher.length = disk.length
  units : ∀ a n, (∀ i < n, lastDump io (a + i) = some (a, n)) →
    slice cipher a n = c.encrypt (a / blckSz) (slice disk a n)

theorem BufFileCodec.encrypt_nil (c : BufFileCodec) (blocknum : ℕ) : c.encrypt blocknum [] = [] :=
  List.eq_nil_of_length_eq_zero (c.length_encrypt _ _)

theorem Stored.dump {c : BufFileCodec} {disk cipher : List UInt8} {io : List BufFileIo} {a : ℕ}
    (h : Stored c disk cipher io) (ha : a ≤ disk.length) (data : List UInt8) :
    Stored c (overwrite disk a data) (overwrite cipher a (c.encrypt (a / blckSz) data))
      (.dump a data.length :: io) := by
  have ha' : a ≤ cipher.length := by rw [h.length]; exact ha
  have hlen := c.length_encrypt (a / blckSz) data
  refine ⟨?_, fun a' n hwhole => ?_⟩
  · rw [length_overwrite ha, length_overwrite ha', hlen, h.length]
  · by_cases hsame : a = a' ∧ data.length = n
    · obtain ⟨rfl, rfl⟩ := hsame
      rw [slice_overwrite_self ha]
      have hself := slice_overwrite_self ha' (c.encrypt (a / blckSz) data)
      rwa [hlen] at hself
    · -- a unit that is whole and not this one has no byte of it
      have hapart : ∀ i < n, ¬(a ≤ a' + i ∧ a' + i < a + data.length) := by
        intro i hi hin
        have hdump := hwhole i hi
        rw [lastDump, if_pos hin] at hdump
        cases hdump
        exact hsame ⟨rfl, rfl⟩
      rw [slice_overwrite_of_disjoint ha _ hapart,
        slice_overwrite_of_disjoint ha' _ (by rw [hlen]; exact hapart)]
      refine h.units a' n fun i hi => ?_
      have hdump := hwhole i hi
      rwa [lastDump, if_neg (hapart i hi)] at hdump

namespace BufFile

/-! ### Files that differ on disk -/

variable {f g : BufFile} {s : PlainFile} {c : BufFileCodec}

def withDisk (f : BufFile) (disk : List UInt8) : BufFile := { f with disk }

/-- The file `g` is `f` with encryption. -/
structure Mirrors (c : BufFileCodec) (f g : BufFile) : Prop where
  same : g = f.withDisk g.disk
  stored : Stored c f.disk g.disk f.io

theorem advance_withDisk (f : BufFile) (disk : List UInt8) :
    (f.withDisk disk).advance = f.advance.withDisk disk := by
  unfold advance withDisk
  split <;> rfl

theorem extend_withDisk (f : BufFile) (disk : List UInt8) :
    (f.withDisk disk).extend = f.extend.withDisk disk := by
  unfold extend withDisk
  split <;> rfl

theorem rewind_withDisk (f : BufFile) (disk : List UInt8) (back : ℕ) :
    (f.withDisk disk).rewind back = (f.rewind back).withDisk disk := by
  unfold rewind withDisk
  split <;> rfl

theorem fileWrite_withDisk (f : BufFile) (disk data : List UInt8) {data' : List UInt8}
    (hlen : data'.length = data.length) :
    (f.withDisk disk).fileWrite data' =
      (f.fileWrite data).withDisk (overwrite disk f.offset data') := by
  unfold fileWrite withDisk
  rw [hlen]
  rfl

/-- Where a dump goes depends on the length of the bytes only. -/
theorem dumpLoop_withDisk (f : BufFile) (disk : List UInt8) {data data' : List UInt8}
    (hlen : data'.length = data.length) :
    (f.withDisk disk).dumpLoop data' =
      (f.dumpLoop data).withDisk ((f.withDisk disk).dumpLoop data').disk := by
  induction hn : data.length using Nat.strong_induction_on generalizing f disk data data' with
  | _ n ih =>
      rw [dumpLoop.eq_1 (f.withDisk disk) data', dumpLoop.eq_1 f data, hlen]
      split
      · rfl
      · rename_i hpos
        have hbytes : (f.withDisk disk).extend.bytestowrite data' = f.extend.bytestowrite data := by
          rw [extend_withDisk]
          unfold bytestowrite
          rw [hlen]
          rfl
        have hlt := f.extend_curOffset_lt
        have hsome : 0 < f.extend.bytestowrite data := by
          unfold bytestowrite
          omega
        rw [hbytes, extend_withDisk, fileWrite_withDisk f.extend disk
          (data.take (f.extend.bytestowrite data)) (by simp [hlen])]
        exact ih _ (by simp; omega) _ _ (by simp [hlen]) rfl

/-! ### One step with and without encryption -/

theorem Mirrors.placed (h : Mirrors c f g) (hf : f.Placed) : g.Placed := by
  have hlen := h.stored.length
  rw [h.same]
  refine ⟨?_, hf.file, hf.curOffset, ?_⟩
  · show g.disk.length ≤ _
    rw [hlen]
    exact hf.segments
  · show f.offset ≤ g.disk.length
    rw [hlen]
    exact hf.offset

/-- The same step with and without encryption, as far as it does not touch the disk. -/
theorem Mirrors.of_step {f' : BufFile} (h : Mirrors c f g) (hdisk : f'.disk = f.disk)
    (hio : f'.io = f.io) : Mirrors c f' (f'.withDisk g.disk) :=
  ⟨rfl, by rw [hdisk, hio]; exact h.stored⟩

theorem Mirrors.dumpBuffer (h : Mirrors c f g) (hf : f.Placed) :
    Mirrors c (f.dumpBuffer plainCodec) (g.dumpBuffer c) := by
  obtain ⟨hdisk, hio⟩ := dumpBuffer_disk hf plainCodec
  obtain ⟨hdisk', -⟩ := dumpBuffer_disk (h.placed hf) c
  have hoff : g.offset = f.offset := by
    rw [h.same]
    rfl
  have hblock : g.blocknum = f.offset / blckSz := by rw [blocknum_eq, hoff]
  have hbuf : g.buffer = f.buffer := by
    rw [h.same]
    rfl
  refine ⟨?_, ?_⟩
  · have hloop := dumpLoop_withDisk f g.disk (c.length_encrypt f.blocknum f.buffer)
    have hstep : (f.withDisk g.disk).dumpBuffer c = (f.dumpBuffer plainCodec).withDisk
        ((f.withDisk g.disk).dumpLoop (c.encrypt f.blocknum f.buffer)).disk := by
      show (((f.withDisk g.disk).dumpLoop (c.encrypt f.blocknum f.buffer)).rewind
        (f.nbytes - f.pos)).dumped f.offset f.nbytes = _
      rw [hloop, rewind_withDisk]
      rfl
    rw [← h.same] at hstep
    rw [hstep]
    rfl
  · rw [hdisk, hdisk', hio, hoff, hblock, hbuf]
    exact h.stored.dump hf.offset f.buffer

/-- A load of a whole unit. -/
theorem Mirrors.loadBuffer (h : Mirrors c f g) (hwhole : WholeUnits (f.loadBuffer plainCodec).io) :
    Mirrors c (f.loadBuffer plainCodec) (g.loadBuffer c) := by
  have hadvance : f.advance.disk = f.disk ∧ f.advance.io = f.io := by
    unfold BufFile.advance
    split <;> exact ⟨rfl, rfl⟩
  have hstored : Stored c f.advance.disk g.disk f.advance.io := by
    rw [hadvance.1, hadvance.2]
    exact h.stored
  have hunit := hstored.units f.advance.offset f.advance.fileRead.length hwhole.1
  have hread : (f.advance.withDisk g.disk).fileRead =
      c.encrypt f.advance.blocknum f.advance.fileRead := by
    have hlen : f.advance.fileRead.length =
        min (min blckSz (maxPhysicalFilesize - f.advance.curOffset))
          (f.advance.disk.length - f.advance.offset) := length_slice _ _ _
    rw [hlen, slice_min, ← hstored.length, slice_min, ← blocknum_eq] at hunit
    exact hunit
  have hstep : (f.withDisk g.disk).loadBuffer c = (f.loadBuffer plainCodec).withDisk g.disk := by
    show (f.withDisk g.disk).advance.loaded _ = _
    rw [advance_withDisk]
    show (f.advance.withDisk g.disk).loaded
      (c.decrypt f.advance.blocknum (f.advance.withDisk g.disk).fileRead) = _
    rw [hread, c.decrypt_encrypt]
    rfl
  rw [← h.same] at hstep
  rw [hstep]
  refine ⟨rfl, hstored.length, fun a n hall => hstored.units a n hall⟩

theorem Mirrors.fields (h : Mirrors c f g) :
    g.dirty = f.dirty ∧ g.pos = f.pos ∧ g.buffer = f.buffer ∧ g.curFile = f.curFile ∧
      g.curOffset = f.curOffset ∧ g.numFiles = f.numFiles := by
  rw [h.same]
  exact ⟨rfl, rfl, rfl, rfl, rfl, rfl⟩

theorem Mirrors.flush (h : Mirrors c f g) (hf : f.Placed) :
    Mirrors c (f.flush plainCodec) (g.flush c) := by
  unfold BufFile.flush
  rw [h.fields.1]
  split
  · exact h.dumpBuffer hf
  · exact h

theorem Mirrors.skip (h : Mirrors c f g) : Mirrors c f.skip g.skip := by
  rw [h.same]
  exact h.of_step rfl rfl

theorem Mirrors.fill (h : Mirrors c f g) (data : List UInt8) :
    Mirrors c (f.fill data) (g.fill data) := by
  rw [h.same]
  exact h.of_step rfl rfl

theorem Mirrors.setPos (h : Mirrors c f g) (pos : ℕ) :
    Mirrors c { f with pos } { g with pos } := by
  rw [h.same]
  exact h.of_step rfl rfl

theorem Mirrors.moveTo (h : Mirrors c f g) (target : Option (ℕ × ℕ)) :
    Mirrors c (f.moveTo target) (g.moveTo target) := by
  cases target with
  | none => exact h
  | some p =>
      rw [h.same]
      exact h.of_step rfl rfl

theorem Mirrors.refill (h : Mirrors c f g) (hwhole : WholeUnits (f.refill plainCodec).io) :
    Mirrors c (f.refill plainCodec) (g.refill c) := by
  obtain ⟨-, hpos, hbuf, -⟩ := h.fields
  unfold BufFile.refill BufFile.nbytes at *
  rw [hpos, hbuf]
  split
  · rename_i hend
    rw [if_pos hend] at hwhole
    exact h.skip.loadBuffer hwhole
  · exact h

theorem Mirrors.makeRoom (h : Mirrors c f g) (hf : f.Placed) :
    Mirrors c (f.makeRoom plainCodec) (g.makeRoom c) := by
  obtain ⟨hdirty, hpos, -⟩ := h.fields
  unfold BufFile.makeRoom
  rw [hpos, hdirty]
  split
  · split
    · exact h.dumpBuffer hf
    · exact h.skip
  · exact h

/-! ### The transfers of an operation -/

theorem suffix_flush (hf : f.Placed) : f.io <:+ (f.flush plainCodec).io := by
  unfold BufFile.flush
  split
  · rw [(dumpBuffer_disk hf plainCodec).2]
    exact List.suffix_cons _ _
  · exact List.suffix_rfl

theorem suffix_refill (f : BufFile) : f.io <:+ (f.refill plainCodec).io := by
  have hio : f.skip.advance.io = f.io := by
    unfold BufFile.advance
    split <;> rfl
  unfold BufFile.refill
  split
  · show f.io <:+ _ :: f.skip.advance.io
    rw [hio]
    exact List.suffix_cons _ _
  · exact List.suffix_rfl

theorem suffix_readLoop (f : BufFile) (size : ℕ) : f.io <:+ (f.readLoop plainCodec size).2.io := by
  induction size using Nat.strong_induction_on generalizing f with
  | _ size ih =>
      have hrefill := suffix_refill f
      unfold BufFile.readLoop
      split
      · exact List.suffix_rfl
      · split
        · exact hrefill
        · refine hrefill.trans (ih (size - min size ((f.refill plainCodec).nbytes -
            (f.refill plainCodec).pos)) ?_ { f.refill plainCodec with
              pos := (f.refill plainCodec).pos + min size ((f.refill plainCodec).nbytes -
                (f.refill plainCodec).pos) })
          omega

theorem suffix_makeRoom (hf : f.Placed) : f.io <:+ (f.makeRoom plainCodec).io := by
  unfold BufFile.makeRoom
  split
  · split
    · rw [(dumpBuffer_disk hf plainCodec).2]
      exact List.suffix_cons _ _
    · exact List.suffix_rfl
  · exact List.suffix_rfl

theorem suffix_write (hs : f.Shows s) (data : List UInt8) :
    f.io <:+ (f.write plainCodec data).io := by
  induction hn : data.length using Nat.strong_induction_on generalizing f s data with
  | _ n ih =>
      have hroom := suffix_makeRoom hs.placed
      have hshows := hs.makeRoom
      have hlt := f.makeRoom_pos_lt plainCodec
      unfold BufFile.write
      split
      · exact List.suffix_rfl
      · generalize f.makeRoom plainCodec = f' at *
        have hle : f'.room data ≤ blckSz - f'.pos := min_le_right _ _
        have hsome : 0 < f'.room data := by
          unfold BufFile.room
          omega
        have hfill : (f'.fill (data.take (f'.room data))).Shows _ :=
          hshows.fill (by simp; omega)
        exact hroom.trans (ih (data.drop (f'.room data)).length (by simp; omega) hfill _ rfl)

theorem suffix_seek (hf : f.Placed) (newFile newOffset : ℕ) :
    f.io <:+ (f.seek plainCodec newFile newOffset).io := by
  have hmove : ∀ (g : BufFile) target, (g.moveTo target).io = g.io := by
    intro g target
    cases target <;> rfl
  unfold BufFile.seek
  split
  · exact List.suffix_rfl
  · rw [hmove]
    exact suffix_flush hf

/-! ### Operations with and without encryption -/

theorem Mirrors.readLoop (h : Mirrors c f g) (size : ℕ)
    (hwhole : WholeUnits (f.readLoop plainCodec size).2.io) :
    (g.readLoop c size).1 = (f.readLoop plainCodec size).1 ∧
      Mirrors c (f.readLoop plainCodec size).2 (g.readLoop c size).2 := by
  induction size using Nat.strong_induction_on generalizing f g with
  | _ size ih =>
      rw [BufFile.readLoop.eq_1 c g, BufFile.readLoop.eq_1 plainCodec f]
      rw [BufFile.readLoop.eq_1 plainCodec f] at hwhole
      split
      · exact ⟨rfl, h⟩
      · rename_i hsize
        rw [if_neg hsize] at hwhole
        by_cases hend : (f.refill plainCodec).nbytes ≤ (f.refill plainCodec).pos
        · rw [if_pos hend] at hwhole ⊢
          have hrefill := h.refill hwhole
          obtain ⟨-, hpos, hbuf, -⟩ := hrefill.fields
          have hend' : (g.refill c).nbytes ≤ (g.refill c).pos := by
            unfold BufFile.nbytes at hend ⊢
            rw [hpos, hbuf]
            exact hend
          rw [if_pos hend']
          exact ⟨rfl, hrefill⟩
        · rw [if_neg hend] at hwhole ⊢
          have hrefill := h.refill (hwhole.of_suffix (suffix_readLoop { f.refill plainCodec with
            pos := (f.refill plainCodec).pos + min size ((f.refill plainCodec).nbytes -
              (f.refill plainCodec).pos) } _))
          obtain ⟨-, hpos, hbuf, -⟩ := hrefill.fields
          have hn : (g.refill c).nbytes = (f.refill plainCodec).nbytes := by
            unfold BufFile.nbytes
            rw [hbuf]
          rw [hn, hpos, if_neg hend, hbuf]
          have hrest := ih _ (by omega) (hrefill.setPos ((f.refill plainCodec).pos +
            min size ((f.refill plainCodec).nbytes - (f.refill plainCodec).pos))) hwhole
          exact ⟨congrArg (slice (f.refill plainCodec).buffer (f.refill plainCodec).pos (min size
            ((f.refill plainCodec).nbytes - (f.refill plainCodec).pos)) ++ ·) hrest.1, hrest.2⟩

theorem Mirrors.write (h : Mirrors c f g) (hs : f.Shows s) (data : List UInt8) :
    Mirrors c (f.write plainCodec data) (g.write c data) := by
  induction hn : data.length using Nat.strong_induction_on generalizing f g s data with
  | _ n ih =>
      rw [BufFile.write.eq_1 c g, BufFile.write.eq_1 plainCodec f]
      split
      · exact h
      · have hroom := h.makeRoom hs.placed
        have hshows := hs.makeRoom
        have hlt := f.makeRoom_pos_lt plainCodec
        have hsame : (g.makeRoom c).room data = (f.makeRoom plainCodec).room data := by
          unfold BufFile.room
          rw [hroom.fields.2.1]
        rw [hsame]
        generalize f.makeRoom plainCodec = f' at *
        have hle : f'.room data ≤ blckSz - f'.pos := min_le_right _ _
        have hsome : 0 < f'.room data := by
          unfold BufFile.room
          omega
        have hfill : (f'.fill (data.take (f'.room data))).Shows _ :=
          hshows.fill (by simp; omega)
        exact ih (data.drop (f'.room data)).length (by simp; omega) (hroom.fill _) hfill _ rfl

theorem Mirrors.seek (h : Mirrors c f g) (hf : f.Placed) (newFile newOffset : ℕ) :
    Mirrors c (f.seek plainCodec newFile newOffset) (g.seek c newFile newOffset) := by
  obtain ⟨-, -, hbuf, hfile, hoff, -⟩ := h.fields
  have hflush := h.flush hf
  have hnear : (newFile = g.curFile ∧ g.curOffset ≤ newOffset ∧ newOffset ≤ g.curOffset + g.nbytes) ↔
      newFile = f.curFile ∧ f.curOffset ≤ newOffset ∧ newOffset ≤ f.curOffset + f.nbytes := by
    unfold BufFile.nbytes
    rw [hbuf, hfile, hoff]
  unfold BufFile.seek
  rw [hflush.fields.2.2.2.2.2]
  split
  · rename_i hin
    rw [if_pos (hnear.mpr hin)]
    have hpos : newOffset - g.curOffset = newOffset - f.curOffset := by rw [hoff]
    rw [hpos]
    exact h.setPos _
  · rename_i hout
    rw [if_neg fun hin => hout (hnear.mp hin)]
    exact hflush.moveTo _

end BufFile

/-! ### Runs -/

theorem suffix_exec {f : BufFile} {s : PlainFile} (h : f.Shows s) (op : BufFileOp) :
    f.io <:+ (op.exec plainCodec f).2.io := by
  cases op with
  | write data => exact BufFile.suffix_write h data
  | seek fileno offset => exact BufFile.suffix_seek h.placed fileno offset
  | read size =>
      exact (BufFile.suffix_flush h.placed).trans (BufFile.suffix_readLoop _ size)

/-- The transfers of a run are those before it and further ones. -/
theorem suffix_bufFileRun {f : BufFile} {s : PlainFile} (hs : f.Shows s) (ops : List BufFileOp)
    (hin : s.Inside ops) : f.io <:+ (bufFileRun plainCodec f ops).2.io := by
  induction ops generalizing f s with
  | nil => exact List.suffix_rfl
  | cons op ops ih =>
      exact (suffix_exec hs op).trans (ih (BufFileOp.exec_shows hs hin.1).2 hin.2)

/-- The same run with and without encryption. -/
theorem bufFileRun_mirrors {c : BufFileCodec} {f g : BufFile} {s : PlainFile}
    (h : BufFile.Mirrors c f g) (hs : f.Shows s) (ops : List BufFileOp) (hin : s.Inside ops)
    (hwhole : WholeUnits (bufFileRun plainCodec f ops).2.io) :
    (bufFileRun c g ops).1 = (bufFileRun plainCodec f ops).1 := by
  induction ops generalizing f g s with
  | nil => rfl
  | cons op ops ih =>
      have hshows := (BufFileOp.exec_shows hs hin.1).2
      have hfirst : WholeUnits (op.exec plainCodec f).2.io :=
        hwhole.of_suffix (suffix_bufFileRun hshows ops hin.2)
      have hexec : (op.exec c g).1 = (op.exec plainCodec f).1 ∧
          BufFile.Mirrors c (op.exec plainCodec f).2 (op.exec c g).2 := by
        cases op with
        | write data => exact ⟨rfl, h.write hs data⟩
        | seek fileno offset => exact ⟨rfl, h.seek hs.placed fileno offset⟩
        | read size => exact (h.flush hs.placed).readLoop size hfirst
      show (op.exec c g).1 :: _ = (op.exec plainCodec f).1 :: _
      rw [hexec.1, ih hexec.2 hshows hin.2 hwhole]

/-- Any writes, reads, and seeks inside the file: if without encryption every load takes just what one
dump wrote, then with encryption every byte that is read is the one last written there. -/
theorem tempfile_transparent (c : TempCipher) (baseIv fileIvSalt : TempIv) (ops : List BufFileOp)
    (hin : PlainFile.Inside {} ops) (hwhole : WholeUnits (bufFileRun plainCodec {} ops).2.io) :
    (bufFileRun (tempfileCodec c baseIv fileIvSalt) {} ops).1 = PlainFile.run {} ops ∧
      (bufFileRun plainCodec {} ops).1 = PlainFile.run {} ops := by
  have hplain := bufFileRun_plain BufFile.Shows.init ops hin
  have hnothing : BufFile.Mirrors (tempfileCodec c baseIv fileIvSalt) {} {} := by
    refine ⟨rfl, rfl, fun a n _ => ?_⟩
    have hnil : slice ([] : List UInt8) a n = [] := by simp [slice]
    show slice [] a n = _
    rw [hnil, BufFileCodec.encrypt_nil]
  exact ⟨(bufFileRun_mirrors hnothing BufFile.Shows.init ops hin hwhole).trans hplain, hplain⟩

/-- A cipher that masks every byte with its position in the buffer and the bytes of the vector. -/
def sampleMask (iv : TempIv) (buf : List UInt8) : List UInt8 :=
  buf.mapIdx fun i b => b ^^^ (UInt8.ofNat i ^^^ (List.ofFn iv).foldl (· ^^^ ·) 0)

theorem sampleMask_sampleMask (iv : TempIv) (buf : List UInt8) :
    sampleMask iv (sampleMask iv buf) = buf := by
  apply List.ext_getElem?
  intro i
  simp only [sampleMask, List.getElem?_mapIdx, Option.map_map]
  cases buf[i]? with
  | none => rfl
  | some b => simp [UInt8.xor_assoc]

def sampleTempCipher : TempCipher where
  xtsEncrypt := sampleMask
  xtsDecrypt := sampleMask
  ctr := sampleMask
  length_xtsEncrypt _ _ := List.length_mapIdx
  length_xtsDecrypt _ _ := List.length_mapIdx
  length_ctr _ _ := List.length_mapIdx
  xtsDecrypt_xtsEncrypt := sampleMask_sampleMask
  xtsEncrypt_xtsDecrypt := sampleMask_sampleMask
  ctr_ctr := sampleMask_sampleMask

/-- Twenty bytes are written and read from the start. -/
theorem tempfile_transparent_rewound :
    (bufFileRun (tempfileCodec sampleTempCipher (fun _ => 0) fun _ => 0) {}
      [.write (List.replicate 20 7), .seek 0 0, .read 20]).1 = [[], [], List.replicate 20 7] := by
  have hin : PlainFile.Inside {} [.write (List.replicate 20 7), .seek 0 0, .read 20] :=
    ⟨trivial, Nat.zero_le _, trivial, trivial⟩
  have hwhole : WholeUnits (bufFileRun plainCodec {}
      [.write (List.replicate 20 7), .seek 0 0, .read 20]).2.io := by decide +kernel
  rw [(tempfile_transparent sampleTempCipher _ _ _ hin hwhole).1]
  decide +kernel

/-- The same bytes, read from the fifth on: the load takes a part of what was dumped. -/
theorem tempfile_not_transparent_inside :
    PlainFile.Inside {} [.write (List.replicate 20 7), .seek 0 4, .read 4] ∧
      PlainFile.run {} [.write (List.replicate 20 7), .seek 0 4, .read 4] = [[], [], [7, 7, 7, 7]] ∧
      (bufFileRun (tempfileCodec sampleTempCipher (fun _ => 0) fun _ => 0) {}
        [.write (List.replicate 20 7), .seek 0 4, .read 4]).1 = [[], [], [3, 3, 3, 3]] := by
  refine ⟨⟨trivial, ?_, trivial, trivial⟩, by decide +kernel, by decide +kernel⟩
  show maxPhysicalFilesize * 0 + 4 ≤ 20
  omega

end OpenPgTde
