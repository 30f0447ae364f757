import OpenPgTde.TempFile.BufFile

/-!
Buffered files without encryption.

A buffered file is a sequence of bytes with a position in it: what is written goes where the
position is, a seek moves the position, a read returns what is from there on. The buffer, the
segments and the order in which they are written out do not show.
-/

namespace OpenPgTde

open Lib.Splice

/-! ### What a file is -/

/-- A sequence of bytes with a position in it. -/
structure PlainFile where
  content : List UInt8 := []
  position : ℕ := 0
  deriving DecidableEq, Repr

/-- An operation, with the bytes that it returns. -/
def PlainFile.exec (s : PlainFile) : BufFileOp → List UInt8 × PlainFile
  | .write data => ([], ⟨overwrite s.content s.position data, s.position + data.length⟩)
  | .seek fileno offset => ([], { s with position := maxPhysicalFilesize * fileno + offset })
  | .read size =>
      (slice s.content s.position size,
        { s with position := s.position + (slice s.content s.position size).length })

/-- What the operations return, one after the other. -/
def PlainFile.run : PlainFile → List BufFileOp → List (List UInt8)
  | _, [] => []
  | s, op :: ops => (s.exec op).1 :: (s.exec op).2.run ops

/-- A seek stays inside the file. -/
def BufFileOp.InsideOf (s : PlainFile) : BufFileOp → Prop
  | .seek fileno offset => maxPhysicalFilesize * fileno + offset ≤ s.content.length
  | _ => True

/-- Every seek of a run does. -/
def PlainFile.Inside : PlainFile → List BufFileOp → Prop
  | _, [] => True
  | s, op :: ops => op.InsideOf s ∧ (s.exec op).2.Inside ops

namespace BufFile

/-! ### Positions -/

variable {f : BufFile} {s : PlainFile}

/-- The position is in a segment that there is, or at its end, and not beyond the end of the file. -/
structure Placed (f : BufFile) : Prop where
  segments : f.disk.length ≤ maxPhysicalFilesize * f.numFiles
  file : f.curFile < f.numFiles
  curOffset : f.curOffset ≤ maxPhysicalFilesize
  offset : f.offset ≤ f.disk.length

theorem blocknum_eq (f : BufFile) : f.blocknum = f.offset / blckSz := by
  unfold blocknum offset buffileSegSize maxPhysicalFilesize blckSz
  omega

theorem Placed.advance (h : f.Placed) : f.advance.Placed ∧ f.advance.offset = f.offset := by
  unfold BufFile.advance
  split
  · rename_i hend
    have hoff : maxPhysicalFilesize * (f.curFile + 1) + 0 = f.offset := by
      have := h.curOffset
      unfold BufFile.offset
      rw [Nat.mul_add]
      omega
    exact ⟨⟨h.segments, hend.2, Nat.zero_le _, le_of_eq_of_le hoff h.offset⟩, hoff⟩
  · exact ⟨h, rfl⟩

theorem Placed.extend (h : f.Placed) : f.extend.Placed ∧ f.extend.offset = f.offset := by
  unfold BufFile.extend
  split
  · rename_i hend
    have hoff : maxPhysicalFilesize * (f.curFile + 1) + 0 = f.offset := by
      have := h.curOffset
      unfold BufFile.offset
      rw [Nat.mul_add]
      omega
    refine ⟨⟨h.segments.trans (Nat.mul_le_mul_left _ (le_max_left _ _)), ?_, Nat.zero_le _,
      le_of_eq_of_le hoff h.offset⟩, hoff⟩
    show f.curFile + 1 < max f.numFiles (f.curFile + 2)
    omega
  · exact ⟨h, rfl⟩

/-! ### Writing out the buffer -/

/-- What writing bytes at the position leaves. -/
structure Dumped (f g : BufFile) (data : List UInt8) : Prop where
  placed : g.Placed
  disk : g.disk = overwrite f.disk f.offset data
  offset : g.offset = f.offset + data.length
  pos : g.pos = f.pos
  buffer : g.buffer = f.buffer
  io : g.io = f.io

theorem offset_fileWrite (f : BufFile) (data : List UInt8) :
    (f.fileWrite data).offset = f.offset + data.length := by
  simp only [BufFile.offset, BufFile.fileWrite, Nat.add_assoc]

/-- A position in a segment that there is, with room to the end of the segment. -/
theorem Placed.offset_le {n : ℕ} (h : f.Placed) (hroom : f.curOffset + n ≤ maxPhysicalFilesize) :
    f.offset + n ≤ maxPhysicalFilesize * f.numFiles := by
  have hseg := Nat.mul_le_mul_left maxPhysicalFilesize (Nat.succ_le_of_lt h.file)
  rw [Nat.mul_succ] at hseg
  unfold BufFile.offset
  omega

theorem Placed.fileWrite (h : f.Placed) {data : List UInt8}
    (hroom : f.curOffset + data.length ≤ maxPhysicalFilesize) :
    Dumped f (f.fileWrite data) data := by
  have hlen := length_overwrite h.offset data
  refine ⟨⟨?_, h.file, hroom, ?_⟩, rfl, offset_fileWrite f data, rfl, rfl, rfl⟩
  · simp only [BufFile.fileWrite, hlen]
    exact max_le h.segments (h.offset_le hroom)
  · rw [offset_fileWrite]
    simp only [BufFile.fileWrite, hlen]
    exact le_max_right _ _

theorem dumpLoop_spec (h : f.Placed) (data : List UInt8) : Dumped f (f.dumpLoop data) data := by
  induction hn : data.length using Nat.strong_induction_on generalizing f data with
  | _ n ih =>
      unfold dumpLoop
      split
      · rename_i hzero
        rw [List.length_eq_zero_iff.mp hzero]
        exact ⟨h, (overwrite_nil _ _).symm, rfl, rfl, rfl, rfl⟩
      · rename_i hpos
        obtain ⟨hextend, hoff⟩ := h.extend
        have hlt := f.extend_curOffset_lt
        have hle : f.extend.bytestowrite data ≤ data.length := min_le_left _ _
        have htake : (data.take (f.extend.bytestowrite data)).length = f.extend.bytestowrite data := by
          simp [hle]
        have hsome : 0 < f.extend.bytestowrite data := by
          unfold bytestowrite
          omega
        have hroom : f.extend.curOffset + f.extend.bytestowrite data ≤ maxPhysicalFilesize := by
          unfold bytestowrite
          omega
        have hwrite : Dumped f.extend _ (data.take (f.extend.bytestowrite data)) :=
          hextend.fileWrite (by rw [htake]; exact hroom)
        have hrest := ih (data.drop (f.extend.bytestowrite data)).length (by simp; omega)
          hwrite.placed _ rfl
        have hextend_disk : f.extend.disk = f.disk := by
          unfold BufFile.extend
          split <;> rfl
        refine ⟨hrest.placed, ?_, ?_, ?_, ?_, ?_⟩
        · rw [hrest.disk, hwrite.disk, hwrite.offset, htake, hoff, hextend_disk]
          exact overwrite_take_drop h.offset data hle
        · rw [hrest.offset, hwrite.offset, hoff, htake, List.length_drop]
          omega
        · rw [hrest.pos, hwrite.pos]
          unfold BufFile.extend
          split <;> rfl
        · rw [hrest.buffer, hwrite.buffer]
          unfold BufFile.extend
          split <;> rfl
        · rw [hrest.io, hwrite.io]
          unfold BufFile.extend
          split <;> rfl

theorem Placed.rewind {back : ℕ} (h : f.Placed) (hback : back ≤ f.offset)
    (hmax : back ≤ maxPhysicalFilesize) :
    (f.rewind back).Placed ∧ (f.rewind back).offset = f.offset - back := by
  have hcur := h.curOffset
  have hoff := h.offset
  unfold BufFile.rewind
  split
  · rename_i hlt
    obtain ⟨k, hk⟩ : ∃ k, f.curFile = k + 1 := by
      refine Nat.exists_eq_succ_of_ne_zero fun hzero => ?_
      unfold BufFile.offset at hback
      rw [hzero] at hback
      omega
    have heq : maxPhysicalFilesize * (f.curFile - 1) + (f.curOffset + maxPhysicalFilesize - back) =
        f.offset - back := by
      unfold BufFile.offset
      rw [hk, Nat.add_sub_cancel, Nat.mul_succ]
      omega
    refine ⟨⟨h.segments, ?_, ?_, ?_⟩, heq⟩
    · show f.curFile - 1 < f.numFiles
      have := h.file
      omega
    · show f.curOffset + maxPhysicalFilesize - back ≤ maxPhysicalFilesize
      omega
    · exact (le_of_eq heq).trans ((Nat.sub_le _ _).trans hoff)
  · rename_i hge
    have heq : maxPhysicalFilesize * f.curFile + (f.curOffset - back) = f.offset - back := by
      unfold BufFile.offset
      omega
    refine ⟨⟨h.segments, h.file, (Nat.sub_le _ _).trans hcur, ?_⟩, heq⟩
    exact (le_of_eq heq).trans ((Nat.sub_le _ _).trans hoff)

theorem rewind_keeps (f : BufFile) (back : ℕ) :
    (f.rewind back).disk = f.disk ∧ (f.rewind back).io = f.io := by
  unfold BufFile.rewind
  split <;> exact ⟨rfl, rfl⟩

/-- What a dump puts on disk, whatever it does to the bytes on the way. -/
theorem dumpBuffer_disk (h : f.Placed) (c : BufFileCodec) :
    (f.dumpBuffer c).disk = overwrite f.disk f.offset (c.encrypt f.blocknum f.buffer) ∧
      (f.dumpBuffer c).io = .dump f.offset f.nbytes :: f.io := by
  have hdump := dumpLoop_spec h (c.encrypt f.blocknum f.buffer)
  obtain ⟨hdisk, hio⟩ :=
    rewind_keeps (f.dumpLoop (c.encrypt f.blocknum f.buffer)) (f.nbytes - f.pos)
  refine ⟨hdisk.trans hdump.disk, ?_⟩
  show _ :: _ = _ :: _
  rw [hio, hdump.io]

/-! ### What a file shows -/

/-- The file shows the bytes and the position of `s`: the bytes are those on disk with the buffer put
over them. A buffer that is not dirty is the same as what is on disk, and in one segment. -/
structure Shows (f : BufFile) (s : PlainFile) : Prop where
  placed : f.Placed
  pos : f.pos ≤ f.nbytes
  nbytes : f.nbytes ≤ blckSz
  content : s.content = overwrite f.disk f.offset f.buffer
  position : s.position = f.offset + f.pos
  clean : f.dirty = false → s.content = f.disk ∧ f.curOffset + f.nbytes ≤ maxPhysicalFilesize

theorem Shows.init : Shows {} {} := by
  refine ⟨⟨Nat.zero_le _, Nat.one_pos, Nat.zero_le _, Nat.zero_le _⟩, le_rfl, Nat.zero_le _, rfl, rfl,
    fun _ => ⟨rfl, Nat.zero_le _⟩⟩

theorem Shows.position_le (h : f.Shows s) : s.position ≤ s.content.length := by
  have := h.pos
  rw [h.content, h.position, length_overwrite h.placed.offset]
  unfold BufFile.nbytes at this
  omega

theorem Shows.dumpBuffer (h : f.Shows s) : (f.dumpBuffer plainCodec).Shows s := by
  have hdump := dumpLoop_spec h.placed f.buffer
  have hpos := h.pos
  have hback : f.nbytes - f.pos ≤ (f.dumpLoop f.buffer).offset := by
    rw [hdump.offset]
    unfold BufFile.nbytes
    omega
  have hmax : f.nbytes - f.pos ≤ maxPhysicalFilesize :=
    (Nat.sub_le _ _).trans (h.nbytes.trans blckSz_le_maxPhysicalFilesize)
  obtain ⟨hplaced, hoff⟩ := hdump.placed.rewind hback hmax
  have hdisk : (f.dumpBuffer plainCodec).disk = s.content :=
    (dumpBuffer_disk h.placed plainCodec).1.trans h.content.symm
  refine ⟨⟨hplaced.segments, hplaced.file, hplaced.curOffset, hplaced.offset⟩, le_rfl, Nat.zero_le _,
    ?_, ?_, fun _ => ⟨hdisk.symm, hplaced.curOffset⟩⟩
  · rw [← hdisk]
    exact (overwrite_nil _ _).symm
  · show s.position = ((f.dumpLoop f.buffer).rewind (f.nbytes - f.pos)).offset + 0
    rw [h.position, hoff, hdump.offset]
    unfold BufFile.nbytes at hpos ⊢
    omega

theorem Shows.flush (h : f.Shows s) :
    (f.flush plainCodec).Shows s ∧ (f.flush plainCodec).dirty = false := by
  unfold BufFile.flush
  split
  · exact ⟨h.dumpBuffer, rfl⟩
  · rename_i hdirty
    exact ⟨h, by simpa using hdirty⟩

/-- The buffer of a file that is not dirty can be given up. -/
theorem Shows.skip (h : f.Shows s) (hclean : f.dirty = false) : f.skip.Shows s := by
  obtain ⟨hcontent, hroom⟩ := h.clean hclean
  have hpos := h.pos
  have hoff : f.skip.offset = f.offset + f.pos := by
    simp only [BufFile.offset, BufFile.skip, Nat.add_assoc]
  refine ⟨⟨h.placed.segments, h.placed.file, ?_, ?_⟩, le_rfl, Nat.zero_le _, ?_, ?_,
    fun _ => ⟨hcontent, ?_⟩⟩
  · show f.curOffset + f.pos ≤ maxPhysicalFilesize
    omega
  · have := h.position_le
    rw [hcontent, h.position] at this
    rw [hoff]
    exact this
  · rw [hcontent]
    exact (overwrite_nil _ _).symm
  · rw [h.position, hoff]
    rfl
  · show f.curOffset + f.pos + 0 ≤ maxPhysicalFilesize
    omega

/-! ### Reading -/

/-- There is room in the segment for a load, unless the position is at the end of the file. -/
theorem Placed.advance_room (h : f.Placed) (hlt : f.offset < f.disk.length) :
    f.advance.curOffset < maxPhysicalFilesize := by
  unfold BufFile.advance
  split
  · exact maxPhysicalFilesize_pos
  · rename_i hstay
    by_contra hend
    have hlast : f.numFiles ≤ f.curFile + 1 := by omega
    have hseg := h.segments.trans (Nat.mul_le_mul_left maxPhysicalFilesize hlast)
    unfold BufFile.offset at hlt
    rw [Nat.mul_succ] at hseg
    omega

/-- A load at the position of an empty buffer. It gets something, unless the position is at the end
of the file. -/
theorem Shows.loadBuffer (h : f.Shows s) (hclean : f.dirty = false) (hempty : f.nbytes = 0) :
    (f.loadBuffer plainCodec).Shows s ∧ (f.loadBuffer plainCodec).dirty = false ∧
      ((f.loadBuffer plainCodec).nbytes = 0 → s.content.length ≤ s.position) := by
  obtain ⟨hplaced, hoff⟩ := h.placed.advance
  have hsame : f.advance.disk = f.disk ∧ f.advance.pos = f.pos ∧ f.advance.dirty = f.dirty := by
    unfold BufFile.advance
    split <;> exact ⟨rfl, rfl, rfl⟩
  obtain ⟨hdisk, hpos, hdirty⟩ := hsame
  have hcontent := (h.clean hclean).1
  have hzero : f.pos = 0 := Nat.le_zero.mp (hempty ▸ h.pos)
  have hcur := hplaced.curOffset
  have hlen : (f.loadBuffer plainCodec).nbytes =
      min (min blckSz (maxPhysicalFilesize - f.advance.curOffset)) (f.disk.length - f.offset) := by
    show (slice f.advance.disk f.advance.offset _).length = _
    rw [length_slice, hdisk, hoff]
  refine ⟨⟨⟨hplaced.segments, hplaced.file, hplaced.curOffset, hplaced.offset⟩, ?_, ?_, ?_, ?_, ?_⟩,
    hdirty.trans hclean, ?_⟩
  · show f.advance.pos ≤ _
    omega
  · omega
  · show s.content = overwrite f.advance.disk f.advance.offset (slice f.advance.disk _ _)
    rw [overwrite_slice hplaced.offset, hdisk, hcontent]
  · show s.position = f.advance.offset + f.advance.pos
    rw [hoff, hpos, h.position]
  · intro _
    refine ⟨hcontent.trans hdisk.symm, ?_⟩
    show f.advance.curOffset + _ ≤ _
    omega
  · intro hnone
    rw [hcontent, h.position]
    by_contra hlt
    have hroom := h.placed.advance_room (by omega)
    have hblck : 0 < blckSz := Nat.succ_pos _
    omega

theorem Shows.refill (h : f.Shows s) (hclean : f.dirty = false) :
    (f.refill plainCodec).Shows s ∧ (f.refill plainCodec).dirty = false ∧
      ((f.refill plainCodec).nbytes ≤ (f.refill plainCodec).pos →
        s.content.length ≤ s.position) := by
  unfold BufFile.refill
  split
  · obtain ⟨hload, hdirty, hend⟩ := (h.skip hclean).loadBuffer hclean rfl
    refine ⟨hload, hdirty, fun hle => hend ?_⟩
    have hpos : (f.skip.loadBuffer plainCodec).pos = 0 := by
      show f.skip.advance.pos = 0
      unfold BufFile.advance
      split <;> rfl
    omega
  · rename_i hlt
    exact ⟨h, hclean, fun hle => absurd hle hlt⟩

/-- Bytes that are in the buffer are those of the file. -/
theorem Shows.slice_buffer {n : ℕ} (h : f.Shows s) (hn : f.pos + n ≤ f.nbytes) :
    slice f.buffer f.pos n = slice s.content s.position n := by
  unfold BufFile.nbytes at hn
  apply List.ext_getElem?
  intro i
  rw [getElem?_slice, getElem?_slice, h.content, h.position]
  split
  · rename_i hi
    rw [getElem?_overwrite h.placed.offset, if_pos (by omega)]
    congr 1
    omega
  · rfl

theorem Shows.readLoop (h : f.Shows s) (hclean : f.dirty = false) (size : ℕ) :
    (f.readLoop plainCodec size).1 = slice s.content s.position size ∧
      (f.readLoop plainCodec size).2.Shows { s with
        position := s.position + (slice s.content s.position size).length } := by
  induction size using Nat.strong_induction_on generalizing f s with
  | _ size ih =>
      unfold BufFile.readLoop
      split
      · rename_i hzero
        rw [hzero, slice_zero]
        exact ⟨rfl, h⟩
      · rename_i hsize
        obtain ⟨hrefill, hdirty, hend⟩ := h.refill hclean
        split
        · rename_i hnone
          have hnil : slice s.content s.position size = [] :=
            List.eq_nil_of_length_eq_zero (by rw [length_slice]; have := hend hnone; omega)
          rw [hnil]
          exact ⟨rfl, hrefill⟩
        · rename_i hsome
          generalize hg : f.refill plainCodec = g at *
          have hn : min size (g.nbytes - g.pos) ≤ size := min_le_left _ _
          have hbuf : g.pos + min size (g.nbytes - g.pos) ≤ g.nbytes := by omega
          have hslice := hrefill.slice_buffer hbuf
          have hmoved : Shows { g with pos := g.pos + min size (g.nbytes - g.pos) }
              { s with position := s.position + min size (g.nbytes - g.pos) } := by
            have hp := hrefill.placed
            refine ⟨⟨hp.segments, hp.file, hp.curOffset, hp.offset⟩, hbuf, hrefill.nbytes,
              hrefill.content, ?_, hrefill.clean⟩
            show s.position + _ = g.offset + (g.pos + _)
            rw [hrefill.position]
            omega
          obtain ⟨hbytes, hshows⟩ := ih (size - min size (g.nbytes - g.pos)) (by omega) hmoved hdirty
          have happend := slice_append s.content s.position hn
          have hlen : (slice s.content s.position size).length = min size (g.nbytes - g.pos) +
              (slice s.content (s.position + min size (g.nbytes - g.pos))
                (size - min size (g.nbytes - g.pos))).length := by
            rw [← happend, List.length_append, ← hslice, length_slice]
            unfold BufFile.nbytes at hbuf ⊢
            omega
          refine ⟨?_, ?_⟩
          · show slice g.buffer g.pos _ ++ _ = _
            rw [hslice, hbytes]
            exact happend
          · rw [hlen, ← Nat.add_assoc]
            exact hshows

theorem Shows.read (h : f.Shows s) (size : ℕ) :
    (f.read plainCodec size).1 = slice s.content s.position size ∧
      (f.read plainCodec size).2.Shows { s with
        position := s.position + (slice s.content s.position size).length } := by
  obtain ⟨hflush, hclean⟩ := h.flush
  exact hflush.readLoop hclean size

/-! ### Writing -/

theorem Shows.makeRoom (h : f.Shows s) : (f.makeRoom plainCodec).Shows s := by
  unfold BufFile.makeRoom
  split
  · split
    · exact h.dumpBuffer
    · rename_i hdirty
      exact h.skip (by simpa using hdirty)
  · exact h

theorem Shows.fill (h : f.Shows s) {data : List UInt8} (hroom : f.pos + data.length ≤ blckSz) :
    (f.fill data).Shows ⟨overwrite s.content s.position data, s.position + data.length⟩ := by
  have hpos := h.pos
  have hlen : (f.fill data).nbytes = max f.nbytes (f.pos + data.length) := length_overwrite hpos data
  have hnbytes := h.nbytes
  have hp := h.placed
  refine ⟨⟨hp.segments, hp.file, hp.curOffset, hp.offset⟩, ?_, ?_, ?_, ?_, fun hdirty => ?_⟩
  · rw [hlen]
    exact le_max_right _ _
  · omega
  · show overwrite s.content s.position data = overwrite f.disk f.offset (overwrite f.buffer f.pos data)
    rw [h.content, h.position]
    exact overwrite_overwrite hp.offset hpos data
  · show s.position + data.length = f.offset + (f.pos + data.length)
    rw [h.position, Nat.add_assoc]
  · cases hdirty

theorem Shows.write (h : f.Shows s) (data : List UInt8) :
    (f.write plainCodec data).Shows ⟨overwrite s.content s.position data,
      s.position + data.length⟩ := by
  induction hn : data.length using Nat.strong_induction_on generalizing f s data with
  | _ n ih =>
      unfold BufFile.write
      split
      · rename_i hzero
        rw [List.length_eq_zero_iff.mp hzero, overwrite_nil, ← hn, hzero]
        exact h
      · rename_i hpos
        have hroom := h.makeRoom
        have hlt := f.makeRoom_pos_lt plainCodec
        generalize f.makeRoom plainCodec = g at *
        have hle : g.room data ≤ data.length := min_le_left _ _
        have htake : (data.take (g.room data)).length = g.room data := by simp [hle]
        have hfits : g.pos + g.room data ≤ blckSz := by
          unfold BufFile.room
          omega
        have hsome : 0 < g.room data := by
          unfold BufFile.room
          omega
        have hfill : (g.fill (data.take (g.room data))).Shows _ :=
          hroom.fill (by rw [htake]; exact hfits)
        have hrest := ih (data.drop (g.room data)).length (by simp; omega) hfill _ rfl
        rw [htake, overwrite_take_drop hroom.position_le data hle, List.length_drop,
          Nat.add_assoc, Nat.add_sub_of_le hle, hn] at hrest
        exact hrest

/-! ### Seeking -/

/-- A position inside the file is found. -/
theorem seekSegment_some {numFiles newFile newOffset : ℕ}
    (h : maxPhysicalFilesize * newFile + newOffset ≤ maxPhysicalFilesize * numFiles)
    (hpos : newFile < numFiles ∨ 0 < newOffset) :
    ∃ file off, seekSegment numFiles newFile newOffset = some (file, off) ∧ file < numFiles ∧
      off ≤ maxPhysicalFilesize ∧
      maxPhysicalFilesize * file + off = maxPhysicalFilesize * newFile + newOffset := by
  induction newOffset using Nat.strong_induction_on generalizing newFile with
  | _ newOffset ih =>
      have hmax := maxPhysicalFilesize_pos
      have hfile : newFile < numFiles := by
        rcases hpos with hlt | hoff
        · exact hlt
        · by_contra hge
          have := Nat.mul_le_mul_left maxPhysicalFilesize (Nat.le_of_not_lt hge)
          omega
      unfold seekSegment
      split
      · rename_i hbig
        have hnext : newFile + 1 < numFiles := by
          by_contra hge
          have := Nat.mul_le_mul_left maxPhysicalFilesize (Nat.le_of_not_lt hge)
          rw [Nat.mul_succ] at this
          omega
        rw [if_neg (by omega)]
        have hrest : maxPhysicalFilesize * (newFile + 1) + (newOffset - maxPhysicalFilesize) ≤
            maxPhysicalFilesize * numFiles := by
          rw [Nat.mul_succ]
          omega
        obtain ⟨file, off, heq, hlt, hle, haddr⟩ :=
          ih (newOffset - maxPhysicalFilesize) (by omega) hrest (Or.inl hnext)
        refine ⟨file, off, heq, hlt, hle, ?_⟩
        rw [haddr, Nat.mul_succ]
        omega
      · rename_i hsmall
        rw [if_neg (by omega)]
        exact ⟨newFile, newOffset, rfl, hfile, by omega, rfl⟩

theorem seekTarget_some {numFiles newFile newOffset : ℕ} (hfiles : 0 < numFiles)
    (h : maxPhysicalFilesize * newFile + newOffset ≤ maxPhysicalFilesize * numFiles) :
    ∃ file off, seekTarget numFiles newFile newOffset = some (file, off) ∧ file < numFiles ∧
      off ≤ maxPhysicalFilesize ∧
      maxPhysicalFilesize * file + off = maxPhysicalFilesize * newFile + newOffset := by
  unfold seekTarget
  split
  · rename_i hend
    obtain ⟨k, hk⟩ : ∃ k, newFile = k + 1 := Nat.exists_eq_succ_of_ne_zero (by omega)
    have hlast : maxPhysicalFilesize * k + maxPhysicalFilesize = maxPhysicalFilesize * newFile := by
      rw [hk, Nat.mul_succ]
    have hle : maxPhysicalFilesize * k + maxPhysicalFilesize ≤ maxPhysicalFilesize * numFiles := by
      omega
    obtain ⟨file, off, heq, hlt, hoff, haddr⟩ := seekSegment_some hle (Or.inl (by omega))
    refine ⟨file, off, ?_, hlt, hoff, by omega⟩
    rw [hk, Nat.add_sub_cancel]
    exact heq
  · rename_i hnot
    refine seekSegment_some h ?_
    by_contra hneg
    have hmul := Nat.mul_le_mul_left maxPhysicalFilesize (show numFiles ≤ newFile by omega)
    have heq : maxPhysicalFilesize * newFile = maxPhysicalFilesize * numFiles := by omega
    exact hnot ⟨Nat.eq_of_mul_eq_mul_left maxPhysicalFilesize_pos heq, by omega⟩

theorem Shows.seek {newFile newOffset : ℕ} (h : f.Shows s)
    (hin : maxPhysicalFilesize * newFile + newOffset ≤ s.content.length) :
    (f.seek plainCodec newFile newOffset).Shows { s with
      position := maxPhysicalFilesize * newFile + newOffset } := by
  unfold BufFile.seek
  split
  · rename_i hnear
    have hp := h.placed
    refine ⟨⟨hp.segments, hp.file, hp.curOffset, hp.offset⟩, ?_, h.nbytes, h.content, ?_, h.clean⟩
    · show newOffset - f.curOffset ≤ f.nbytes
      omega
    · show maxPhysicalFilesize * newFile + newOffset = f.offset + (newOffset - f.curOffset)
      unfold BufFile.offset
      rw [hnear.1]
      omega
  · obtain ⟨hflush, hclean⟩ := h.flush
    generalize f.flush plainCodec = g at *
    have hcontent := (hflush.clean hclean).1
    have hp := hflush.placed
    obtain ⟨file, off, htarget, hfile, hoff, haddr⟩ := seekTarget_some (Nat.zero_lt_of_lt hp.file)
      (hin.trans (by rw [hcontent]; exact hp.segments))
    rw [htarget]
    refine ⟨⟨hp.segments, hfile, hoff, ?_⟩, le_rfl, Nat.zero_le _, ?_, ?_, fun _ => ⟨hcontent, hoff⟩⟩
    · show maxPhysicalFilesize * file + off ≤ g.disk.length
      rw [haddr, ← hcontent]
      exact hin
    · show s.content = overwrite g.disk _ []
      rw [overwrite_nil, hcontent]
    · exact haddr.symm

end BufFile

theorem BufFileOp.exec_shows {f : BufFile} {s : PlainFile} {op : BufFileOp} (h : f.Shows s)
    (hin : op.InsideOf s) :
    (op.exec plainCodec f).1 = (s.exec op).1 ∧ (op.exec plainCodec f).2.Shows (s.exec op).2 := by
  cases op with
  | write data => exact ⟨rfl, h.write data⟩
  | seek fileno offset => exact ⟨rfl, h.seek hin⟩
  | read size => exact h.read size

/-- Without encryption a buffered file is a sequence of bytes with a position. -/
theorem bufFileRun_plain {f : BufFile} {s : PlainFile} (h : f.Shows s) (ops : List BufFileOp)
    (hin : s.Inside ops) : (bufFileRun plainCodec f ops).1 = s.run ops := by
  induction ops generalizing f s with
  | nil => rfl
  | cons op ops ih =>
      obtain ⟨hbytes, hshows⟩ := BufFileOp.exec_shows h hin.1
      show (op.exec plainCodec f).1 :: _ = (s.exec op).1 :: _
      rw [hbytes, ih hshows hin.2]

end OpenPgTde
