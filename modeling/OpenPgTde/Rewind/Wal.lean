import OpenPgTde.Rewind.Perform

/-!
What `pg_rewind` does to the segments of the WAL (`pg_rewind/parsexlog.c`, and the routines for the WAL
in `pg_rewind/tde_ops.c`).

Treating a page with a list of ranges adds a mask to it that depends on where the page is and how long
it is, and not on what is in it. So the order of two treatments does not matter, and the second of two
equal ones undoes the first. That a segment is readable is then a matter of how often it was treated
with the keys of the target and with those of the source.
-/

namespace OpenPgTde

open Lib.Effect Lib.Splice

/-! ### Masks -/

section Mask

variable {aes : BlockCipher} {sz : WalSegSz} {a : SegPos} {r : WalEncryptionRange}
  {keys keys' : List WalEncryptionRange} {file : List UInt8}

/-- What a range adds to byte `i` of `n` bytes. -/
def rangeMask (aes : BlockCipher) (sz : WalSegSz) (r : WalEncryptionRange) (a : SegPos) (n i : ℕ) :
    UInt8 :=
  let first := decOff sz a r - a.offset
  if ((walLocationValid r.start && r.type = .encrypted) = true ∧ overlapsData sz a n r = true) ∧
      first ≤ i ∧ i < first + (decEnd sz a n r - decOff sz a r) then
    keystreamByte aes r.key.key (calcXLogPageIVPrefix a.tli a.segno r.key.baseIv)
      (decOff sz a r + (i - first))
  else 0

/-- What a list of ranges adds. -/
def keysMask (aes : BlockCipher) (sz : WalSegSz) (a : SegPos) (n i : ℕ) :
    List WalEncryptionRange → UInt8
  | [] => 0
  | r :: keys => rangeMask aes sz r a n i ^^^ keysMask aes sz a n i keys

theorem cryptRange_mask (aes : BlockCipher) (sz : WalSegSz) (a : SegPos) (r : WalEncryptionRange)
    (buf : List UInt8) :
    cryptRange aes sz a buf r buf =
      buf.mapIdx fun i b => b ^^^ rangeMask aes sz r a buf.length i := by
  apply List.ext_getElem?
  intro i
  rw [List.getElem?_mapIdx]
  unfold cryptRange rangeMask
  dsimp only
  split
  · rename_i h
    generalize hfirst : decOff sz a r - a.offset = first
    generalize hn : decEnd sz a buf.length r - decOff sz a r = n
    have hpart : ((buf.drop first).take n).length = min n (buf.length - first) := by simp
    simp only [h, and_self, true_and]
    obtain hi | hi := Nat.lt_or_ge i buf.length
    · rw [List.getElem?_eq_getElem hi, Option.map_some]
      obtain hlt | hge := Nat.lt_or_ge i first
      · rw [if_neg (by omega), List.append_assoc, List.getElem?_append_left (by simp; omega),
          List.getElem?_take_of_lt hlt, List.getElem?_eq_getElem hi, UInt8.xor_zero]
      · have htake : (buf.take first).length = first := by simp; omega
        rw [List.append_assoc, List.getElem?_append_right (by omega), htake]
        by_cases hin : i < first + n
        · rw [if_pos ⟨hge, hin⟩, List.getElem?_append_left (by simp; omega), streamCrypt_eq,
            List.getElem?_mapIdx, List.getElem?_take_of_lt (by omega), List.getElem?_drop,
            show first + (i - first) = i by omega, List.getElem?_eq_getElem hi]
          rfl
        · rw [if_neg (by omega), List.getElem?_append_right (by simp; omega), List.getElem?_drop,
            length_streamCrypt, UInt8.xor_zero,
            show first + ((buf.drop first).take n).length +
              (i - first - ((buf.drop first).take n).length) = i by omega,
            List.getElem?_eq_getElem hi]
    · rw [List.getElem?_eq_none hi, Option.map_none, List.getElem?_eq_none]
      simp
      omega
  · rename_i h
    simp only [h, false_and, if_false, UInt8.xor_zero]
    exact Option.map_id'.symm

/-- Treating a buffer in place adds a mask to it. -/
theorem cryptKeys_mask (aes : BlockCipher) (sz : WalSegSz) (a : SegPos)
    (keys : List WalEncryptionRange) (buf : List UInt8) :
    cryptKeys aes sz a true keys buf =
      buf.mapIdx fun i b => b ^^^ keysMask aes sz a buf.length i keys := by
  induction keys generalizing buf with
  | nil =>
      show buf = _
      apply List.ext_getElem?
      intro i
      simp [keysMask]
  | cons r keys ih =>
      show cryptKeys aes sz a true keys (cryptRange aes sz a buf r buf) = _
      rw [cryptRange_mask, ih, List.length_mapIdx, List.mapIdx_mapIdx]
      congr 1
      funext i b
      exact UInt8.xor_assoc ..

/-- A way to treat pages adds a mask to them. -/
def AddsMask (f : SegPos → List UInt8 → List UInt8) (m : SegPos → ℕ → ℕ → UInt8) : Prop :=
  ∀ a buf, f a buf = buf.mapIdx fun i b => b ^^^ m a buf.length i

theorem AddsMask.length {f m} (h : AddsMask f m) (a : SegPos) (buf : List UInt8) :
    (f a buf).length = buf.length := by
  rw [h, List.length_mapIdx]

/-- One way after the other adds both masks. -/
theorem AddsMask.comp {f f' m m'} (h : AddsMask f m) (h' : AddsMask f' m') :
    AddsMask (fun a buf => f' a (f a buf)) fun a n i => m a n i ^^^ m' a n i := by
  intro a buf
  dsimp only
  rw [h', h.length, h, List.mapIdx_mapIdx]
  congr 1
  funext i b
  exact UInt8.xor_assoc ..

/-- Pieces that follow each other are treated one after the other. -/
def mapPieces (f : SegPos → List UInt8 → List UInt8) : SegPos → List (List UInt8) → List UInt8
  | _, [] => []
  | a, piece :: pieces => f a piece ++ mapPieces f (a.advance piece.length) pieces

theorem cryptPieces_eq_mapPieces (aes : BlockCipher) (sz : WalSegSz)
    (keys : List WalEncryptionRange) (a : SegPos) (pieces : List (List UInt8)) :
    cryptPieces aes sz true keys a pieces =
      mapPieces (fun a buf => cryptKeys aes sz a true keys buf) a pieces := by
  induction pieces generalizing a with
  | nil => rfl
  | cons piece pieces ih => rw [cryptPieces, ih, mapPieces]

/-- What is added to byte `i` of a file of `n` bytes that is gone through page by page. -/
def pagesMask (m : SegPos → ℕ → ℕ → UInt8) (a : SegPos) (n i : ℕ) : UInt8 :=
  let pos := i / xlogBlcksz * xlogBlcksz
  m (a.advance pos) (min xlogBlcksz (n - pos)) (i % xlogBlcksz)

theorem pagesMask_first {m : SegPos → ℕ → ℕ → UInt8} {n i : ℕ} (h : i < xlogBlcksz) :
    pagesMask m a n i = m a (min xlogBlcksz n) i := by
  unfold pagesMask
  dsimp only
  rw [Nat.div_eq_of_lt h, Nat.mod_eq_of_lt h, Nat.zero_mul, SegPos.advance_zero, Nat.sub_zero]

theorem pagesMask_next (m : SegPos → ℕ → ℕ → UInt8) (n j : ℕ) :
    pagesMask m (a.advance xlogBlcksz) (n - xlogBlcksz) j = pagesMask m a n (xlogBlcksz + j) := by
  unfold pagesMask
  dsimp only
  rw [Nat.add_div_left _ (by decide : 0 < xlogBlcksz), Nat.add_mod_left, Nat.succ_mul,
    SegPos.advance_advance, Nat.sub_sub, Nat.add_comm xlogBlcksz]

/-- Going through a file page by page adds a mask to it. -/
theorem AddsMask.mapPieces {f m} (h : AddsMask f m) {k : ℕ} (hk : file.length ≤ k) :
    mapPieces f a (filePages k file) =
      file.mapIdx fun i b => b ^^^ pagesMask m a file.length i := by
  induction k generalizing a file with
  | zero =>
      rw [List.eq_nil_of_length_eq_zero (Nat.le_zero.1 hk)]
      rfl
  | succ k ih =>
      unfold filePages
      split
      · next hnil =>
          rw [hnil]
          rfl
      · next hne =>
          have hpos := List.length_pos_of_ne_nil hne
          have hblock : 0 < xlogBlcksz := by decide
          have hrest : (file.drop xlogBlcksz).length ≤ k := by
            rw [List.length_drop]
            omega
          have hlen : (file.take xlogBlcksz).length = min xlogBlcksz file.length := List.length_take
          rw [OpenPgTde.mapPieces, ih hrest, h, hlen]
          apply List.ext_getElem?
          intro i
          rw [List.getElem?_mapIdx]
          obtain hi | hi := Nat.lt_or_ge i (min xlogBlcksz file.length)
          · rw [List.getElem?_append_left (by rwa [List.length_mapIdx, hlen]), List.getElem?_mapIdx,
              List.getElem?_take_of_lt (by omega), pagesMask_first (by omega)]
          · rw [List.getElem?_append_right (by rwa [List.length_mapIdx, hlen]), List.length_mapIdx,
              hlen, List.getElem?_mapIdx, List.getElem?_drop, List.length_drop]
            obtain hout | hin := Nat.le_total file.length i
            · rw [List.getElem?_eq_none (by omega), List.getElem?_eq_none hout, Option.map_none,
                Option.map_none]
            · obtain hshort | hlong := Nat.le_total file.length xlogBlcksz
              · rw [List.getElem?_eq_none (by omega), List.getElem?_eq_none (by omega),
                  Option.map_none, Option.map_none]
              · rw [Nat.min_eq_left hlong] at hi ⊢
                obtain ⟨j, rfl⟩ := Nat.exists_eq_add_of_le hi
                rw [Nat.add_sub_cancel_left, pagesMask_next]

end Mask

/-! ### Reading a segment, and changing its keys -/

section Segment

variable {env : RewindEnv} {d d' : Server} {relpath file : List UInt8}

/-- What a reader of a segment file is shown with a key directory. -/
def readWalSegment (env : RewindEnv) (d : Server) (relpath file : List UInt8) :
    Option (List UInt8) :=
  let (tli, segno) := xLogFromFileName env.sz (lastComponent relpath)
  match decryptPages env.w env.aes env.sz tli segno file file.length 0 [] (openKeyDir d) with
  | .ok plain _ => some plain
  | .error _ _ => none

/-- How pages are treated with a key directory. -/
def cryptWith (env : RewindEnv) (d : Server) (a : SegPos) (page : List UInt8) : List UInt8 :=
  cryptKeys env.aes env.sz a true (chain (walRanges env.w d)) page

def dirMask (env : RewindEnv) (d : Server) (a : SegPos) (n i : ℕ) : UInt8 :=
  keysMask env.aes env.sz a n i (chain (walRanges env.w d))

theorem cryptWith_addsMask (env : RewindEnv) (d : Server) :
    AddsMask (cryptWith env d) (dirMask env d) :=
  fun a buf => cryptKeys_mask env.aes env.sz a _ buf

/-- A whole segment, treated with a key directory. -/
def cryptSegment (env : RewindEnv) (d : Server) (relpath file : List UInt8) : List UInt8 :=
  let a := segmentStart env.sz (lastComponent relpath)
  file.mapIdx fun i b => b ^^^ pagesMask (dirMask env d) a file.length i

@[simp] theorem length_cryptSegment :
    (cryptSegment env d relpath file).length = file.length := List.length_mapIdx ..

/-- Treating a segment twice gives it back. -/
theorem cryptSegment_cryptSegment :
    cryptSegment env d relpath (cryptSegment env d relpath file) = file := by
  apply List.ext_getElem?
  intro i
  simp only [cryptSegment, List.getElem?_mapIdx, List.length_mapIdx, Option.map_map]
  cases file[i]? with
  | none => rfl
  | some b =>
      refine congrArg some ?_
      show b ^^^ _ ^^^ _ = b
      rw [UInt8.xor_assoc, UInt8.xor_self, UInt8.xor_zero]

theorem xor_right_comm (a b c : UInt8) : a ^^^ b ^^^ c = a ^^^ c ^^^ b := by
  rw [UInt8.xor_assoc, UInt8.xor_comm b, UInt8.xor_assoc]

/-- The order of two key directories does not matter. -/
theorem cryptSegment_comm :
    cryptSegment env d relpath (cryptSegment env d' relpath file) =
      cryptSegment env d' relpath (cryptSegment env d relpath file) := by
  apply List.ext_getElem?
  intro i
  simp only [cryptSegment, List.getElem?_mapIdx, List.length_mapIdx, Option.map_map]
  cases file[i]? with
  | none => rfl
  | some b => exact congrArg some (xor_right_comm b _ _)

theorem readWalSegment_eq (hd : KeyDir env.w d) :
    readWalSegment env d relpath file = some (cryptSegment env d relpath file) := by
  obtain ⟨out, z, hrun, -, rfl⟩ := (@decryptPages_spec env.w env.aes env.sz
    (xLogFromFileName env.sz (lastComponent relpath)).1
    (xLogFromFileName env.sz (lastComponent relpath)).2 _ file [] hd.feOk file.length 0).exists_ok
      fun _ _ hno => hno hd.answers
  unfold readWalSegment
  dsimp only
  rw [hrun]
  refine congrArg some ?_
  rw [List.nil_append, List.drop_zero, cryptPieces_eq_mapPieces]
  exact (cryptWith_addsMask env d).mapPieces le_rfl

theorem cryptPage_eq (hd : KeyDir env.w d) (a : SegPos) (page : List UInt8) :
    cryptPage env d a page = some (cryptWith env d a page) := by
  obtain ⟨z, hrun⟩ := tdeheapXlogSegReadFe_ok env.aes env.sz hd a page
  rw [tdeheapXlogSegReadFe] at hrun
  rw [cryptPage, hrun]
  rfl

theorem reencryptPages_eq (ht : KeyDir env.w env.targetTde.server) (hd : KeyDir env.w d)
    {tli segno turns offset : ℕ} (hoff : offset ≤ file.length)
    (hturns : file.length - offset ≤ turns) :
    reencryptPages env d tli segno turns offset file = some (file.take offset ++
      mapPieces (fun a page => cryptWith env d a (cryptWith env env.targetTde.server a page))
        ⟨tli, segno, offset⟩ (filePages turns (file.drop offset))) := by
  induction turns generalizing offset file with
  | zero =>
      have hlen : file.length = offset := by omega
      rw [reencryptPages, filePages, mapPieces, List.append_nil, ← hlen, List.take_length]
  | succ turns ih =>
      rw [reencryptPages]
      by_cases hp : slice file offset xlogBlcksz = []
      · have hdrop : file.drop offset = [] := by
          rw [slice, List.take_eq_nil_iff] at hp
          exact hp.resolve_left (by decide)
        have htake : file.take offset = file := by
          conv_rhs => rw [← List.take_append_drop offset file, hdrop, List.append_nil]
        rw [if_pos hp, filePages_nil hp, mapPieces, List.append_nil, htake]
      · have hpos := List.length_pos_of_ne_nil hp
        have hlen := length_slice file offset xlogBlcksz
        rw [if_neg hp, filePages_drop hp, mapPieces]
        simp only [cryptPage_eq ht, cryptPage_eq hd, Option.bind_eq_bind, Option.bind_some]
        generalize hbytes : cryptWith env d ⟨tli, segno, offset⟩
          (cryptWith env env.targetTde.server ⟨tli, segno, offset⟩
            (slice file offset xlogBlcksz)) = bytes
        have hsame : bytes.length = (slice file offset xlogBlcksz).length := by
          rw [← hbytes, (cryptWith_addsMask env d).length, (cryptWith_addsMask env _).length]
        have hfile : (overwrite file offset bytes).length = file.length := by
          rw [length_overwrite hoff]
          omega
        have hfront : (file.take offset ++ bytes).length = offset + bytes.length := by
          rw [List.length_append, List.length_take, Nat.min_eq_left hoff]
        have htake : (overwrite file offset bytes).take
            (offset + (slice file offset xlogBlcksz).length) = file.take offset ++ bytes := by
          rw [overwrite, ← hsame, List.take_left' hfront]
        have hdrop : (overwrite file offset bytes).drop
            (offset + (slice file offset xlogBlcksz).length) =
              file.drop (offset + (slice file offset xlogBlcksz).length) := by
          rw [overwrite, ← hsame, List.drop_left' hfront]
        rw [ih (by omega) (by omega), htake, hdrop, List.append_assoc]
        rfl

/-- A segment whose keys are changed is treated with both key directories. -/
theorem ensureTdeWalSeg_eq (ht : KeyDir env.w env.targetTde.server) (hd : KeyDir env.w d) :
    ensureTdeWalSeg env d relpath (some file) = some (some
      (cryptSegment env d relpath (cryptSegment env env.targetTde.server relpath file))) := by
  have hpages := @reencryptPages_eq env d file ht hd
    (xLogFromFileName env.sz (lastComponent relpath)).1
    (xLogFromFileName env.sz (lastComponent relpath)).2 file.length 0 (Nat.zero_le _) (Nat.sub_le ..)
  unfold ensureTdeWalSeg
  dsimp only
  rw [hpages, List.drop_zero, List.take_zero, List.nil_append,
    ((cryptWith_addsMask env _).comp (cryptWith_addsMask env d)).mapPieces le_rfl]
  refine congrArg (fun f => some (some f)) ?_
  apply List.ext_getElem?
  intro i
  simp only [cryptSegment, List.getElem?_mapIdx, List.length_mapIdx, Option.map_map]
  cases file[i]? with
  | none => rfl
  | some b => exact congrArg some (UInt8.xor_assoc ..).symm

end Segment

end OpenPgTde
