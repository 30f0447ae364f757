import OpenPgTde.Lib.Splice
import OpenPgTde.Smgr.Relation

/-!
Temporary files (`open_pg_tde_tempfile.c`) and the buffered files of `buffile.c` they hook into.

A temporary file has one buffer. It is filled and written out, or read in, at whatever position the
file is at, and it is as long as what was put into it or what was left of the file. Encryption is
added where the buffer is written out and read in: what is in the buffer at that moment is encrypted
as one unit, under the number of the block the position is in.
-/

namespace OpenPgTde

open Lib.Splice

/-! ### The cipher -/

/-- `TEMPFILE_IV_LEN` bytes. -/
abbrev TempIv := Fin 16 → UInt8

/-- AES-128-XTS and AES-128-CTR under the keys that the postmaster made: permutations of the buffers
of a length, for every initialization vector. CTR is its own inverse. -/
structure TempCipher where
  xtsEncrypt : TempIv → List UInt8 → List UInt8
  xtsDecrypt : TempIv → List UInt8 → List UInt8
  ctr : TempIv → List UInt8 → List UInt8
  length_xtsEncrypt : ∀ iv buf, (xtsEncrypt iv buf).length = buf.length
  length_xtsDecrypt : ∀ iv buf, (xtsDecrypt iv buf).length = buf.length
  length_ctr : ∀ iv buf, (ctr iv buf).length = buf.length
  xtsDecrypt_xtsEncrypt : ∀ iv buf, xtsDecrypt iv (xtsEncrypt iv buf) = buf
  xtsEncrypt_xtsDecrypt : ∀ iv buf, xtsEncrypt iv (xtsDecrypt iv buf) = buf
  ctr_ctr : ∀ iv buf, ctr iv (ctr iv buf) = buf

/-- `tempfile_block_iv`: the last eight bytes take the block number, the highest byte first. -/
def tempfileBlockIv (baseIv fileIvSalt : TempIv) (blocknum : ℕ) : TempIv := fun i =>
  if 8 ≤ i.val then
    baseIv i ^^^ fileIvSalt i ^^^ UInt8.ofNat (blocknum / 2 ^ (8 * (15 - i.val)))
  else baseIv i ^^^ fileIvSalt i

/-- `AES_BLOCK_LEN`. -/
def aesBlockLen : ℕ := 16

variable (c : TempCipher) (baseIv fileIvSalt : TempIv)

/-- `tempfile_encrypt`. -/
def tempfileEncrypt (blocknum : ℕ) (buf : List UInt8) : List UInt8 :=
  if buf.length = 0 then buf
  else if aesBlockLen ≤ buf.length then
    c.xtsEncrypt (tempfileBlockIv baseIv fileIvSalt blocknum) buf
  else c.ctr (tempfileBlockIv baseIv fileIvSalt blocknum) buf

/-- `tempfile_decrypt`. -/
def tempfileDecrypt (blocknum : ℕ) (buf : List UInt8) : List UInt8 :=
  if buf.length = 0 then buf
  else if aesBlockLen ≤ buf.length then
    c.xtsDecrypt (tempfileBlockIv baseIv fileIvSalt blocknum) buf
  else c.ctr (tempfileBlockIv baseIv fileIvSalt blocknum) buf

/-- What is done to the buffer on its way out and in. -/
structure BufFileCodec where
  encrypt : ℕ → List UInt8 → List UInt8
  decrypt : ℕ → List UInt8 → List UInt8
  length_encrypt : ∀ blocknum buf, (encrypt blocknum buf).length = buf.length
  length_decrypt : ∀ blocknum buf, (decrypt blocknum buf).length = buf.length
  decrypt_encrypt : ∀ blocknum buf, decrypt blocknum (encrypt blocknum buf) = buf

/-- With `encrypt_temp_files` off. -/
def plainCodec : BufFileCodec where
  encrypt _ buf := buf
  decrypt _ buf := buf
  length_encrypt _ _ := rfl
  length_decrypt _ _ := rfl
  decrypt_encrypt _ _ := rfl

theorem length_tempfileEncrypt (blocknum : ℕ) (buf : List UInt8) :
    (tempfileEncrypt c baseIv fileIvSalt blocknum buf).length = buf.length := by
  unfold tempfileEncrypt
  split
  · rfl
  · split
    · exact c.length_xtsEncrypt _ _
    · exact c.length_ctr _ _

theorem length_tempfileDecrypt (blocknum : ℕ) (buf : List UInt8) :
    (tempfileDecrypt c baseIv fileIvSalt blocknum buf).length = buf.length := by
  unfold tempfileDecrypt
  split
  · rfl
  · split
    · exact c.length_xtsDecrypt _ _
    · exact c.length_ctr _ _

/-- Both directions take the same mode, since the length is the same. -/
theorem tempfileDecrypt_tempfileEncrypt (blocknum : ℕ) (buf : List UInt8) :
    tempfileDecrypt c baseIv fileIvSalt blocknum (tempfileEncrypt c baseIv fileIvSalt blocknum buf) =
      buf := by
  have hlen := length_tempfileEncrypt c baseIv fileIvSalt blocknum buf
  rw [tempfileDecrypt, hlen]
  unfold tempfileEncrypt
  split
  · rfl
  · split
    · exact c.xtsDecrypt_xtsEncrypt _ _
    · exact c.ctr_ctr _ _

/-- With `encrypt_temp_files` on. -/
def tempfileCodec : BufFileCodec where
  encrypt := tempfileEncrypt c baseIv fileIvSalt
  decrypt := tempfileDecrypt c baseIv fileIvSalt
  length_encrypt := length_tempfileEncrypt c baseIv fileIvSalt
  length_decrypt := length_tempfileDecrypt c baseIv fileIvSalt
  decrypt_encrypt := tempfileDecrypt_tempfileEncrypt c baseIv fileIvSalt

/-! ### Buffered files -/

/-- `MAX_PHYSICAL_FILESIZE`: the size of a segment file. -/
@[irreducible] def maxPhysicalFilesize : ℕ := 2 ^ 30

theorem blckSz_le_maxPhysicalFilesize : blckSz ≤ maxPhysicalFilesize := by
  unfold blckSz maxPhysicalFilesize
  omega

theorem maxPhysicalFilesize_pos : 0 < maxPhysicalFilesize :=
  Nat.lt_of_lt_of_le (Nat.succ_pos _) blckSz_le_maxPhysicalFilesize

/-- `BUFFILE_SEG_SIZE`: the same in blocks. -/
def buffileSegSize : ℕ := 2 ^ 30 / 8192

/-- A transfer between the buffer and the files: where, and how many bytes. -/
inductive BufFileIo
  | dump (offset nbytes : ℕ)
  | load (offset nbytes : ℕ)
  deriving DecidableEq, Repr

/-- `BufFile`. The segment files are laid end to end in `disk`; every one but the last is full. The
buffer holds its valid bytes. `io` records the transfers, the last one first. -/
structure BufFile where
  disk : List UInt8 := []
  numFiles : ℕ := 1
  dirty : Bool := false
  curFile : ℕ := 0
  curOffset : ℕ := 0
  pos : ℕ := 0
  buffer : List UInt8 := []
  io : List BufFileIo := []
  deriving DecidableEq, Repr

namespace BufFile

/-- `nbytes`. -/
def nbytes (f : BufFile) : ℕ := f.buffer.length

/-- Where the buffer begins in the file. -/
def offset (f : BufFile) : ℕ := maxPhysicalFilesize * f.curFile + f.curOffset

/-- The block number that the hooks are given. -/
def blocknum (f : BufFile) : ℕ := buffileSegSize * f.curFile + f.curOffset / blckSz

/-- A load that starts at the end of a segment goes on to the next one, if there is one. -/
def advance (f : BufFile) : BufFile :=
  if maxPhysicalFilesize ≤ f.curOffset ∧ f.curFile + 1 < f.numFiles then
    { f with curFile := f.curFile + 1, curOffset := 0 }
  else f

/-- A dump that starts at the end of a segment goes on to the next one, which is made if need be. -/
def extend (f : BufFile) : BufFile :=
  if maxPhysicalFilesize ≤ f.curOffset then
    { f with numFiles := max f.numFiles (f.curFile + 2), curFile := f.curFile + 1, curOffset := 0 }
  else f

theorem extend_curOffset_lt (f : BufFile) : f.extend.curOffset < maxPhysicalFilesize := by
  unfold extend
  split
  · exact maxPhysicalFilesize_pos
  · rename_i h
    exact Nat.lt_of_not_le h

/-- How much of the bytes fits into the segment. -/
def bytestowrite (f : BufFile) (data : List UInt8) : ℕ :=
  min data.length (maxPhysicalFilesize - f.curOffset)

/-- Write the bytes to the segment, which has room for them. -/
def fileWrite (f : BufFile) (data : List UInt8) : BufFile :=
  { f with disk := overwrite f.disk f.offset data, curOffset := f.curOffset + data.length }

/-- The loop of `BufFileDumpBuffer` over the segments. -/
def dumpLoop (f : BufFile) (data : List UInt8) : BufFile :=
  if data.length = 0 then f
  else
    dumpLoop (f.extend.fileWrite (data.take (f.extend.bytestowrite data)))
      (data.drop (f.extend.bytestowrite data))
termination_by data.length
decreasing_by
  have hlt := f.extend_curOffset_lt
  rw [List.length_drop, bytestowrite]
  omega

/-- The position goes back from the end of the buffer to where the file is at. -/
def rewind (f : BufFile) (back : ℕ) : BufFile :=
  if f.curOffset < back then
    { f with curFile := f.curFile - 1, curOffset := f.curOffset + maxPhysicalFilesize - back }
  else { f with curOffset := f.curOffset - back }

/-- What is read of the segment, at most a buffer full. -/
def fileRead (f : BufFile) : List UInt8 :=
  slice f.disk f.offset (min blckSz (maxPhysicalFilesize - f.curOffset))

/-- The buffer takes what was read. -/
def loaded (f : BufFile) (data : List UInt8) : BufFile :=
  { f with buffer := data, io := .load f.offset data.length :: f.io }

/-- The buffer, which was at `offset`, is empty and not dirty. -/
def dumped (f : BufFile) (offset nbytes : ℕ) : BufFile :=
  { f with dirty := false, pos := 0, buffer := [], io := .dump offset nbytes :: f.io }

variable (h : BufFileCodec)

/-- `BufFileLoadBuffer`. -/
def loadBuffer (f : BufFile) : BufFile :=
  f.advance.loaded (h.decrypt f.advance.blocknum f.advance.fileRead)

/-- `BufFileDumpBuffer`. -/
def dumpBuffer (f : BufFile) : BufFile :=
  ((f.dumpLoop (h.encrypt f.blocknum f.buffer)).rewind (f.nbytes - f.pos)).dumped f.offset f.nbytes

/-- `BufFileFlush`. -/
def flush (f : BufFile) : BufFile := if f.dirty then f.dumpBuffer h else f

/-- The buffer is given up for what comes behind it. -/
def skip (f : BufFile) : BufFile :=
  { f with curOffset := f.curOffset + f.pos, pos := 0, buffer := [] }

/-- The buffer that a read goes on with. -/
def refill (f : BufFile) : BufFile := if f.nbytes ≤ f.pos then f.skip.loadBuffer h else f

/-- The loop of `BufFileReadCommon`. -/
def readLoop (f : BufFile) (size : ℕ) : List UInt8 × BufFile :=
  if size = 0 then ([], f)
  else if (f.refill h).nbytes ≤ (f.refill h).pos then ([], f.refill h)
  else
    let nthistime := min size ((f.refill h).nbytes - (f.refill h).pos)
    let rest := readLoop { f.refill h with pos := (f.refill h).pos + nthistime } (size - nthistime)
    (slice (f.refill h).buffer (f.refill h).pos nthistime ++ rest.1, rest.2)
termination_by size

/-- `BufFileRead`. -/
def read (f : BufFile) (size : ℕ) : List UInt8 × BufFile := (f.flush h).readLoop h size

/-- The buffer that a write goes on with. -/
def makeRoom (f : BufFile) : BufFile :=
  if blckSz ≤ f.pos then
    if f.dirty then f.dumpBuffer h else f.skip
  else f

/-- Put bytes into the buffer. -/
def fill (f : BufFile) (data : List UInt8) : BufFile :=
  { f with dirty := true, pos := f.pos + data.length, buffer := overwrite f.buffer f.pos data }

theorem makeRoom_pos_lt (f : BufFile) : (f.makeRoom h).pos < blckSz := by
  unfold makeRoom
  split
  · split
    · exact Nat.succ_pos _
    · exact Nat.succ_pos _
  · rename_i hlt
    exact Nat.lt_of_not_le hlt

/-- How much of the bytes fits into the buffer. -/
def room (f : BufFile) (data : List UInt8) : ℕ := min data.length (blckSz - f.pos)

/-- `BufFileWrite`. -/
def write (f : BufFile) (data : List UInt8) : BufFile :=
  if data.length = 0 then f
  else
    write ((f.makeRoom h).fill (data.take ((f.makeRoom h).room data)))
      (data.drop ((f.makeRoom h).room data))
termination_by data.length
decreasing_by
  have hlt := f.makeRoom_pos_lt h
  rw [List.length_drop, room]
  omega

/-- A position that may be beyond the end of its segment, in the segment that it is in. -/
def seekSegment (numFiles newFile newOffset : ℕ) : Option (ℕ × ℕ) :=
  if maxPhysicalFilesize < newOffset then
    if numFiles ≤ newFile + 1 then none
    else seekSegment numFiles (newFile + 1) (newOffset - maxPhysicalFilesize)
  else if numFiles ≤ newFile then none
  else some (newFile, newOffset)
termination_by newOffset
decreasing_by
  have := maxPhysicalFilesize_pos
  omega

/-- The position that is asked for. The start of a segment that there is not yet is the end of the
one before it. -/
def seekTarget (numFiles newFile newOffset : ℕ) : Option (ℕ × ℕ) :=
  if newFile = numFiles ∧ newOffset = 0 then
    seekSegment numFiles (newFile - 1) maxPhysicalFilesize
  else seekSegment numFiles newFile newOffset

def moveTo (f : BufFile) : Option (ℕ × ℕ) → BufFile
  | none => f
  | some (file, off) => { f with curFile := file, curOffset := off, pos := 0, buffer := [] }

/-- `BufFileSeek`, once `whence` is accounted for. -/
def seek (f : BufFile) (newFile newOffset : ℕ) : BufFile :=
  if newFile = f.curFile ∧ f.curOffset ≤ newOffset ∧ newOffset ≤ f.curOffset + f.nbytes then
    { f with pos := newOffset - f.curOffset }
  else (f.flush h).moveTo (seekTarget (f.flush h).numFiles newFile newOffset)

end BufFile

/-! ### Runs -/

inductive BufFileOp
  | write (data : List UInt8)
  | seek (fileno offset : ℕ)
  | read (size : ℕ)
  deriving DecidableEq, Repr

/-- An operation, with the bytes that it returns. -/
def BufFileOp.exec (h : BufFileCodec) (f : BufFile) : BufFileOp → List UInt8 × BufFile
  | .write data => ([], f.write h data)
  | .seek fileno offset => ([], f.seek h fileno offset)
  | .read size => f.read h size

/-- What the operations return, one after the other, and the file after them. -/
def bufFileRun (h : BufFileCodec) : BufFile → List BufFileOp → List (List UInt8) × BufFile
  | f, [] => ([], f)
  | f, op :: ops =>
      let r := op.exec h f
      let rest := bufFileRun h r.2 ops
      (r.1 :: rest.1, rest.2)

end OpenPgTde
