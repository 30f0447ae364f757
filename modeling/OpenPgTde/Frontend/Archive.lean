import OpenPgTde.Frontend.Wal
import OpenPgTde.Lib.Splice
import OpenPgTde.Replication.Redo
import OpenPgTde.Xlog.RangeList
import OpenPgTde.Xlog.Receive

/-!
Archiving and restoring WAL segments (`bin/open_pg_tde_archive_decrypt.c`,
`bin/open_pg_tde_restore_encrypt.c`).

Both tools go through a segment page by page. The one takes the segment size from the size of the
file, since the header that says it may be encrypted, and checks the header afterwards; the other one
has the header in plain text. The plain segment is the one that a reader of the WAL sees, in whatever
pieces it reads it, and encrypting it with a key directory makes a segment that a reader with that
directory sees the same way.
-/

namespace OpenPgTde

open Lib.Effect Lib.Breakpoints Lib.Splice

/-! ### Names and headers -/

/-- The value of one of the characters `0123456789ABCDEF`. -/
def hexDigit (c : UInt8) : Option ℕ :=
  if 48 ≤ c ∧ c ≤ 57 then some (c.toNat - 48)
  else if 65 ≤ c ∧ c ≤ 70 then some (c.toNat - 55)
  else none

/-- The number that hexadecimal digits stand for. -/
def hexValue (digits : List UInt8) : ℕ :=
  digits.foldl (fun n c => n * 16 + (hexDigit c).getD 0) 0

/-- `XLogFromFileName`: the timeline and the segment number, whatever follows them in the name. -/
def xLogFromFileName (sz : WalSegSz) (fname : List UInt8) : ℕ × ℕ :=
  (hexValue (slice fname 0 8),
    hexValue (slice fname 8 8) * (2 ^ 32 / sz.size) + hexValue (slice fname 16 8))

/-- `XLOG_BLCKSZ`. -/
def xlogBlcksz : ℕ := 8192

/-- `xlp_seg_size` of the long header at the beginning of the first page. -/
def xlpSegSize (page : List UInt8) : ℕ := beValue (slice page 32 4).reverse

/-- `IsPowerOf2`, for the sizes that an `int` can hold. -/
def powerOf2 (n : ℕ) : Option WalSegSz :=
  if h : n.log2 ≤ 30 ∧ n = 2 ^ n.log2 then some ⟨n, n.log2, h.1, h.2⟩ else none

/-- `IsValidWalSegSize`: a power of two between 1 MB and 1 GB. -/
def isValidWalSegSize (sz : WalSegSz) : Bool := 2 ^ 20 ≤ sz.size

/-! ### The tools -/

/-- The loop of `write_decrypted_segment`, with the number of turns that are left. -/
def decryptPages (w : World) (aes : BlockCipher) (sz : WalSegSz) (tli segno : ℕ)
    (seg : List UInt8) : ℕ → ℕ → List UInt8 → X (List UInt8)
  | 0, _, tmp => pure tmp
  | turns + 1, pos, tmp => do
    let page := slice seg pos xlogBlcksz
    if page = [] then pure tmp
    else do
      let buf ← tdeheapXlogSegReadFe w aes sz ⟨tli, segno, pos⟩ page
      decryptPages w aes sz tli segno seg turns (pos + page.length) (tmp ++ buf)

/-- `write_decrypted_segment`: what is in the temporary file in the end. Where the size of the file
is not a power of two, one of the checks of the header fails whatever the first page holds. -/
def writeDecryptedSegment (w : World) (aes : BlockCipher) (segname seg : List UInt8) :
    X (List UInt8) :=
  match powerOf2 seg.length with
  | none => throw (.invalidSegmentSize seg.length)
  | some sz => do
    let (tli, segno) := xLogFromFileName sz segname
    let page := slice seg 0 xlogBlcksz
    let buf ← tdeheapXlogSegReadFe w aes sz ⟨tli, segno, 0⟩ page
    if page.length ≠ xlogBlcksz then throw .couldNotReadSegment
    if xlpSegSize buf ≠ seg.length then throw (.segmentSizeMismatch (xlpSegSize buf) seg.length)
    if isValidWalSegSize sz = false then throw (.invalidSegmentSize sz.size)
    decryptPages w aes sz tli segno seg seg.length xlogBlcksz buf

/-- The loop of `write_encrypted_segment`: the pages of the temporary file are written over what is
in the segment file. -/
def encryptPages (w : World) (aes : BlockCipher) (sz : WalSegSz) (tli segno : ℕ)
    (tmp : List UInt8) : ℕ → ℕ → List UInt8 → X (List UInt8)
  | 0, _, seg => pure seg
  | turns + 1, pos, seg => do
    let page := slice tmp pos xlogBlcksz
    if page = [] then pure seg
    else do
      let bytes ← tdeheapXlogSegWriteFe w aes sz ⟨tli, segno, pos⟩ page
      encryptPages w aes sz tli segno tmp turns (pos + page.length) (overwrite seg pos bytes)

/-- `write_encrypted_segment`: what is in the segment file in the end. The first page, from which the
segment size is taken, is then written like the others. -/
def writeEncryptedSegment (w : World) (aes : BlockCipher) (segname tmp seg : List UInt8) :
    X (List UInt8) := do
  let page := slice tmp 0 xlogBlcksz
  if page.length ≠ xlogBlcksz then throw .couldNotReadSegment
  match powerOf2 (xlpSegSize page) with
  | none => throw (.invalidSegmentSize (xlpSegSize page))
  | some sz => do
    if isValidWalSegSize sz = false then throw (.invalidSegmentSize sz.size)
    let (tli, segno) := xLogFromFileName sz segname
    xLogSmgrInitWriteOldKeys w
    encryptPages w aes sz tli segno tmp tmp.length 0 seg

/-! ### Pages -/

/-- The pages of a file, the first `n` of them. -/
def filePages : ℕ → List UInt8 → List (List UInt8)
  | 0, _ => []
  | n + 1, file =>
    if file = [] then [] else file.take xlogBlcksz :: filePages n (file.drop xlogBlcksz)

theorem flatten_filePages {n : ℕ} {file : List UInt8} (h : file.length ≤ n) :
    (filePages n file).flatten = file := by
  induction n generalizing file with
  | zero =>
      rw [List.eq_nil_of_length_eq_zero (Nat.le_zero.1 h)]
      rfl
  | succ n ih =>
      unfold filePages
      split
      · next hnil => rw [hnil, List.flatten_nil]
      · next hne =>
          have hpos := List.length_pos_of_ne_nil hne
          have hrest : (file.drop xlogBlcksz).length ≤ n := by
            have : 0 < xlogBlcksz := by decide
            rw [List.length_drop]
            omega
          rw [List.flatten_cons, ih hrest, List.take_append_drop]

/-- What a turn of a loop reads, and where the next one goes on. -/
theorem filePages_drop {file : List UInt8} {pos n : ℕ} (hne : slice file pos xlogBlcksz ≠ []) :
    filePages (n + 1) (file.drop pos) = slice file pos xlogBlcksz ::
      filePages n (file.drop (pos + (slice file pos xlogBlcksz).length)) := by
  have hdrop : file.drop pos ≠ [] := by
    intro h
    rw [slice, h] at hne
    exact hne rfl
  have hnext : file.drop (pos + (slice file pos xlogBlcksz).length) =
      (file.drop pos).drop xlogBlcksz := by
    rw [length_slice, List.drop_drop]
    obtain hle | hle := Nat.le_total xlogBlcksz (file.length - pos)
    · rw [Nat.min_eq_left hle]
    · rw [Nat.min_eq_right hle, List.drop_eq_nil_of_le (by omega), List.drop_eq_nil_of_le (by omega)]
  rw [filePages, if_neg hdrop, hnext]
  rfl

theorem filePages_nil {file : List UInt8} {pos : ℕ} (h : slice file pos xlogBlcksz = [])
    (n : ℕ) : filePages n (file.drop pos) = [] := by
  have hdrop : file.drop pos = [] := by
    rw [slice, List.take_eq_nil_iff] at h
    exact h.resolve_left (by decide)
  rw [hdrop]
  cases n <;> simp [filePages]

/-! ### The loops -/

variable {w : World} {aes : BlockCipher} {sz : WalSegSz} {tli segno : ℕ} {x y z : WalState}
  {seg tmp : List UInt8}

theorem FeStep.refl (h : FeOk w x) : FeStep w x x := ⟨.refl _, h, rfl, rfl⟩

theorem FeStep.trans (h : FeStep w x y) (h' : FeStep w y z) : FeStep w x z :=
  ⟨h.1.trans h'.1, h'.2.1, h'.2.2.1.trans h.2.2.1, h'.2.2.2.trans h.2.2.2⟩

theorem decryptPages_spec (h : FeOk w x) (turns pos : ℕ) :
    wp (decryptPages w aes sz tli segno seg turns pos tmp)
      (fun out y => FeStep w x y ∧ out = tmp ++ cryptPieces aes sz true
        (chain (walRanges w x.server)) ⟨tli, segno, pos⟩ (filePages turns (seg.drop pos)))
      (fun _ _ => ¬KeyAnswers w x.server) x := by
  induction turns generalizing x pos tmp with
  | zero =>
      refine ⟨.refl h, ?_⟩
      rw [filePages, cryptPieces, List.append_nil]
  | succ turns ih =>
      rw [decryptPages]
      by_cases hp : slice seg pos xlogBlcksz = []
      · rw [if_pos hp]
        refine ⟨.refl h, ?_⟩
        rw [filePages_nil hp, cryptPieces, List.append_nil]
      · rw [if_neg hp]
        refine (wp_bind ..).2 ((xLogCryptBufferFe_spec _ _ _ _ h true).mono (fun buf y hy => ?_)
          fun _ _ hy => hy)
        obtain ⟨hstep, rfl⟩ := hy
        refine (ih hstep.2.1 _).mono (fun out z hz => ?_) fun _ _ hz ha => hz (hstep.1.keyAnswers ha)
        refine ⟨hstep.trans hz.1, ?_⟩
        rw [hz.2, hstep.1.walRanges, filePages_drop hp, cryptPieces, List.append_assoc]
        rfl

/-- A page is written over what follows the pages before it. -/
theorem overwrite_pages {seg b rest : List UInt8} {pos : ℕ} (h : pos ≤ seg.length) :
    overwrite (overwrite seg pos b) (pos + b.length) rest = overwrite seg pos (b ++ rest) := by
  rw [overwrite_overwrite h le_rfl]
  congr 1
  simp [overwrite]

theorem length_cryptKeys_page (aes : BlockCipher) {keys : List WalEncryptionRange} (hk : RangesFollow keys)
    {a : SegPos} {buf : List UInt8} (hseg : InSegment sz a buf.length) (inPlace : Bool) :
    (cryptKeys aes sz a inPlace keys buf).length = buf.length := by
  rw [hk.cryptKeys_eq hseg inPlace, List.length_mapIdx]

/-- The ranges of a key directory follow each other. -/
theorem WalFileOk.rangesFollow {s : Server} (hs : WalFileOk w s)
    (hinc : Increasing (·.start) (walRanges w s)) : RangesFollow (chain (walRanges w s)) := by
  have hmem : ∀ r ∈ chain (walRanges w s), ProperStart r.start := by
    intro r hr
    obtain ⟨⟨r', stop⟩, hspan, rfl⟩ := List.mem_map.1 hr
    exact (hs.mem_walRanges (mem_of_mem_spans hspan)).2
  have hall : validRanges (chain (walRanges w s)) = chain (walRanges w s) :=
    List.filter_eq_self.2 fun r hr => (hmem r hr).1
  obtain ⟨-, hfollow, hlast⟩ := chain_formed hinc
  refine ⟨by rwa [hall], by rwa [hall], fun r hr => ?_⟩
  rw [hall] at hr
  exact (hmem r hr).2

theorem encryptPages_spec (h : Restoring w x) (turns : ℕ) {pos : ℕ} (hpos : pos ≤ seg.length)
    (hseg : InSegment sz ⟨tli, segno, pos⟩ (tmp.length - pos)) :
    wp (encryptPages w aes sz tli segno tmp turns pos seg)
      (fun out y => FeStep w x y ∧ out = overwrite seg pos (cryptPieces aes sz false
        (chain (walRanges w x.server)) ⟨tli, segno, pos⟩ (filePages turns (tmp.drop pos))))
      (fun _ _ => ¬KeyAnswers w x.server) x := by
  induction turns generalizing x pos seg with
  | zero =>
      refine ⟨.refl h.toFeOk, ?_⟩
      rw [filePages, cryptPieces, overwrite_nil]
  | succ turns ih =>
      rw [encryptPages]
      by_cases hp : slice tmp pos xlogBlcksz = []
      · rw [if_pos hp]
        refine ⟨.refl h.toFeOk, ?_⟩
        rw [filePages_nil hp, cryptPieces, overwrite_nil]
      · rw [if_neg hp]
        have hlen : (slice tmp pos xlogBlcksz).length ≤ tmp.length - pos := by
          rw [length_slice]
          omega
        have hwhole : InSegment sz ⟨tli, segno, pos⟩ ((slice tmp pos xlogBlcksz).length +
            (tmp.length - pos - (slice tmp pos xlogBlcksz).length)) := by
          rwa [Nat.add_sub_cancel' hlen]
        obtain ⟨hpage, hnext⟩ := hwhole.piece
        have hloc : (⟨tli, segno, pos⟩ : SegPos).location sz < maxWalLocation :=
          hpage.lt_max (i := 0) (List.length_pos_of_ne_nil hp)
        refine (wp_bind ..).2 ((tdeheapXlogSegWriteFe_spec h hloc).mono (fun bytes y hy => ?_)
          fun _ _ hy => hy)
        obtain ⟨hstep, rfl⟩ := hy
        have hbytes := length_cryptKeys_page aes
          (h.fileOk.rangesFollow h.increasing) hpage false
        refine (ih (h.step hstep) (by rw [length_overwrite hpos, hbytes]; omega)
          (by rwa [Nat.sub_sub] at hnext)).mono (fun out z hz => ?_)
          fun _ _ hz ha => hz (hstep.1.keyAnswers ha)
        refine ⟨hstep.trans hz.1, ?_⟩
        rw [hz.2, hstep.1.walRanges, filePages_drop hp, cryptPieces, ← overwrite_pages hpos, hbytes]
        rfl

/-! ### The tools as functions of the ranges -/

theorem powerOf2_size (sz : WalSegSz) : powerOf2 sz.size = some sz := by
  obtain ⟨size, k, hk, rfl⟩ := sz
  have hlog : (2 ^ k).log2 = k := Nat.log2_two_pow
  simp [powerOf2, hlog, hk]

theorem hexDigit_lt (c : UInt8) : (hexDigit c).getD 0 < 16 := by
  unfold hexDigit
  split
  · next h =>
      have := UInt8.le_iff_toNat_le.1 h.2
      simp only [UInt8.reduceToNat, Option.getD_some] at this ⊢
      omega
  · split
    · next h =>
        have := UInt8.le_iff_toNat_le.1 h.2
        simp only [UInt8.reduceToNat, Option.getD_some] at this ⊢
        omega
    · decide

theorem hexValue_lt (digits : List UInt8) : hexValue digits < 16 ^ digits.length := by
  induction digits using List.reverseRecOn with
  | nil => decide
  | append_singleton digits c ih =>
      have hc := hexDigit_lt c
      rw [hexValue, List.foldl_append, List.length_append, Nat.pow_add]
      simp only [List.foldl_cons, List.foldl_nil, List.length_singleton, Nat.pow_one]
      rw [hexValue] at ih
      omega

theorem xLogFromFileName_tli (sz : WalSegSz) (fname : List UInt8) :
    (xLogFromFileName sz fname).1 < 2 ^ 32 := by
  have hlen : (slice fname 0 8).length ≤ 8 := by
    rw [length_slice]
    omega
  calc hexValue (slice fname 0 8) < 16 ^ (slice fname 0 8).length := hexValue_lt _
    _ ≤ 16 ^ 8 := Nat.pow_le_pow_right (by decide) hlen
    _ = 2 ^ 32 := by decide

/-- The beginning of the segment with this name. -/
def segmentStart (sz : WalSegSz) (segname : List UInt8) : SegPos :=
  ⟨(xLogFromFileName sz segname).1, (xLogFromFileName sz segname).2, 0⟩

theorem segmentStart_advance (segname : List UInt8) (n : ℕ) :
    (segmentStart sz segname).advance n =
      ⟨(xLogFromFileName sz segname).1, (xLogFromFileName sz segname).2, n⟩ := by
  rw [segmentStart, SegPos.advance, Nat.zero_add]

/-- All of the segment has locations, and is not at the very end of them. -/
theorem inSegment_segmentStart (segname : List UInt8) {count : ℕ} (hcount : count ≤ sz.size)
    (haddr : ((segmentStart sz segname).segno + 1) * sz.size < 2 ^ 64) :
    InSegment sz (segmentStart sz segname) count := by
  refine ⟨xLogFromFileName_tli sz segname, ?_, ?_⟩
  · show 0 + count ≤ sz.size
    omega
  · rw [Nat.succ_mul] at haddr
    show _ * sz.size + 0 + count < 2 ^ 64
    omega

/-- Treating a byte twice gives it back. -/
theorem specByte_specByte (keys : List WalEncryptionRange) (a : SegPos) (b : UInt8) :
    specByte aes sz keys a (specByte aes sz keys a b) = b := by
  unfold specByte
  cases keys.find? fun r => r.Contains (a.location sz) with
  | none => rfl
  | some r =>
      by_cases ht : r.type = .encrypted
      · simp only [ht, if_true, UInt8.xor_assoc, UInt8.xor_self, UInt8.xor_zero]
      · simp only [ht, if_false]

/-- Treating a buffer twice gives it back, in place or not. -/
theorem RangesFollow.cryptKeys_cryptKeys {keys : List WalEncryptionRange} (hk : RangesFollow keys)
    {a : SegPos} {buf : List UInt8} (hseg : InSegment sz a buf.length) (inPlace inPlace' : Bool) :
    cryptKeys aes sz a inPlace keys (cryptKeys aes sz a inPlace' keys buf) = buf := by
  have hlen := length_cryptKeys_page aes hk hseg inPlace'
  rw [hk.cryptKeys_eq (by rwa [hlen]), hk.cryptKeys_eq hseg]
  apply List.ext_getElem?
  intro i
  simp only [List.getElem?_mapIdx, Option.map_map]
  cases buf[i]? with
  | none => rfl
  | some b => exact congrArg some (specByte_specByte keys _ b)

/-- The header is in the first page. -/
theorem xlpSegSize_append {page rest : List UInt8} (h : page.length = xlogBlcksz) :
    xlpSegSize (page ++ rest) = xlpSegSize page := by
  have hlong : 36 ≤ page.length := by
    rw [h]
    decide
  rw [xlpSegSize, xlpSegSize, slice, slice, List.drop_append_of_le_length (by omega),
    List.take_append_of_le_length (by rw [List.length_drop]; omega)]

/-- A segment has a first page. -/
theorem length_firstPage {file : List UInt8} (hlen : file.length = sz.size)
    (hvalid : isValidWalSegSize sz = true) : (slice file 0 xlogBlcksz).length = xlogBlcksz := by
  simp only [isValidWalSegSize, decide_eq_true_eq] at hvalid
  have hblock : xlogBlcksz ≤ 2 ^ 20 := by decide
  rw [length_slice, hlen, Nat.min_eq_left (by omega)]

/-- The pages of a segment, the first of which is read for the header. -/
def segmentPages (seg : List UInt8) : List (List UInt8) :=
  slice seg 0 xlogBlcksz :: filePages seg.length (seg.drop xlogBlcksz)

theorem flatten_segmentPages (seg : List UInt8) : (segmentPages seg).flatten = seg := by
  rw [segmentPages, List.flatten_cons, flatten_filePages (by rw [List.length_drop]; omega)]
  exact List.take_append_drop xlogBlcksz seg

/-- Archiving goes through the pages. -/
theorem writeDecryptedSegment_spec {d : Server} (h : KeyDir w d) {segname : List UInt8}
    (hlen : seg.length = sz.size) (hvalid : isValidWalSegSize sz = true)
    (hhead : xlpSegSize (cryptKeys aes sz (segmentStart sz segname) true (chain (walRanges w d))
      (slice seg 0 xlogBlcksz)) = sz.size) :
    wp (writeDecryptedSegment w aes segname seg)
      (fun out y => Loaded w (openKeyDir d).server y.server ∧
        out = cryptPieces aes sz true (chain (walRanges w d)) (segmentStart sz segname)
          (segmentPages seg))
      (fun _ _ => False) (openKeyDir d) := by
  have hpage := length_firstPage hlen hvalid
  unfold writeDecryptedSegment
  rw [hlen, powerOf2_size]
  refine (wp_bind ..).2 ((xLogCryptBufferFe_spec _ _ _ _ h.feOk true).mono (fun buf y hy => ?_)
    fun _ _ hy => hy h.answers)
  obtain ⟨hstep, rfl⟩ := hy
  simp only [wp_bind, wp_ite, wp_throw]
  refine ⟨fun hc => absurd hpage hc, fun _ => ⟨fun hc => absurd hhead hc, fun _ =>
    ⟨fun hc => ?_, fun _ => ?_⟩⟩⟩
  · rw [hvalid] at hc
    cases hc
  · refine (decryptPages_spec hstep.2.1 _ _).mono (fun out z hz => ?_)
      fun _ _ hz => hz (hstep.1.keyAnswers h.answers)
    refine ⟨hstep.1.trans hz.1.1, ?_⟩
    rw [hz.2, hstep.1.walRanges, segmentPages, cryptPieces, hpage, hlen, segmentStart_advance]
    rfl

/-- Restoring goes through the pages too. -/
theorem writeEncryptedSegment_spec (aes : BlockCipher) (seg : List UInt8) {d : Server}
    (h : KeyDir w d) {segname : List UInt8}
    (hlen : tmp.length = sz.size) (hvalid : isValidWalSegSize sz = true)
    (haddr : ((segmentStart sz segname).segno + 1) * sz.size < 2 ^ 64)
    (hhead : xlpSegSize tmp = sz.size) :
    wp (writeEncryptedSegment w aes segname tmp seg)
      (fun out y => Loaded w (openKeyDir d).server y.server ∧
        out = overwrite seg 0 (cryptPieces aes sz false (chain (walRanges w d))
          (segmentStart sz segname) (filePages tmp.length tmp)))
      (fun _ _ => False) (openKeyDir d) := by
  have hpage := length_firstPage hlen hvalid
  have hhead' : xlpSegSize (slice tmp 0 xlogBlcksz) = sz.size := by
    rw [← hhead, ← xlpSegSize_append hpage]
    exact congrArg xlpSegSize (List.take_append_drop xlogBlcksz tmp)
  unfold writeEncryptedSegment
  simp only [hhead', powerOf2_size]
  simp only [wp_bind, wp_ite, wp_throw]
  refine ⟨fun hc => absurd hpage hc, fun _ => ⟨fun hc => ?_, fun _ => ?_⟩⟩
  · rw [hvalid] at hc
    cases hc
  · refine (xLogSmgrInitWriteOldKeys_spec h.feOk rfl).mono (fun _ y hy => ?_)
      fun _ _ hy => hy h.answers
    obtain ⟨hl, hrest⟩ := hy
    refine (encryptPages_spec hrest _ (Nat.zero_le _)
      (inSegment_segmentStart _ (by omega) haddr)).mono (fun out z hz => ?_)
      fun _ _ hz => hz (hl.keyAnswers h.answers)
    refine ⟨hl.trans hz.1.1, ?_⟩
    rw [hz.2, hl.walRanges]
    rfl

/-- A reader of a whole segment. -/
theorem tdeheapXlogSegReadFe_ok (aes : BlockCipher) (sz : WalSegSz) {d : Server} (h : KeyDir w d) (a : SegPos) (seg : List UInt8) :
    ∃ z, tdeheapXlogSegReadFe w aes sz a seg (openKeyDir d) =
      .ok (cryptKeys aes sz a true (chain (walRanges w d)) seg) z := by
  obtain ⟨out, z, hrun, -, rfl⟩ := (xLogCryptBufferFe_spec aes sz a seg h.feOk true).exists_ok
    fun _ _ hno => hno h.answers
  exact ⟨z, hrun⟩

theorem overwrite_of_le {old b : List UInt8} (h : old.length ≤ b.length) : overwrite old 0 b = b := by
  rw [overwrite, List.take_zero, List.nil_append, List.drop_eq_nil_of_le (by omega), List.append_nil]

/-- Archiving and restoring are inverse. A segment of a valid size whose header says so, other than
the last one there is, is archived as what a reader is shown for all of it. That can be restored with
any key directory, over a file that is not longer; a reader with this directory is shown the same, and
with the same ranges the segment is the one that was archived. No tool changes the key file. -/
theorem archive_restore_inverse (w : World) (aes : BlockCipher) (sz : WalSegSz)
    (segname seg : List UInt8) (d : Server) (hd : KeyDir w d) (hlen : seg.length = sz.size)
    (hvalid : isValidWalSegSize sz = true)
    (haddr : ((segmentStart sz segname).segno + 1) * sz.size < 2 ^ 64) :
    ∃ plain, (∃ z, tdeheapXlogSegReadFe w aes sz (segmentStart sz segname) seg (openKeyDir d) =
        .ok plain z) ∧
      (xlpSegSize plain = sz.size →
        (∃ y, writeDecryptedSegment w aes segname seg (openKeyDir d) = .ok plain y ∧
          y.server.walKeys = d.walKeys) ∧
        ∀ d' old, KeyDir w d' → old.length ≤ sz.size →
          ∃ seg' y, writeEncryptedSegment w aes segname plain old (openKeyDir d') = .ok seg' y ∧
            y.server.walKeys = d'.walKeys ∧
            (∃ z, tdeheapXlogSegReadFe w aes sz (segmentStart sz segname) seg' (openKeyDir d') =
              .ok plain z) ∧
            (walRanges w d' = walRanges w d → seg' = seg)) := by
  have hseg := inSegment_segmentStart segname hlen.le haddr
  have hk := hd.fileOk.rangesFollow hd.increasing
  have hplain := length_cryptKeys_page aes hk hseg true
  obtain ⟨z, hread⟩ := tdeheapXlogSegReadFe_ok aes sz hd (segmentStart sz segname) seg
  refine ⟨_, ⟨z, hread⟩, fun hhead => ⟨?_, fun d' old hd' hold => ?_⟩⟩
  · have hpieces := hk.cryptPieces_eq aes true (segmentPages seg)
      (by rwa [flatten_segmentPages])
    rw [flatten_segmentPages] at hpieces
    -- the header that is checked is the one of the first page
    have hfirst : (cryptKeys aes sz (segmentStart sz segname) true (chain (walRanges w d))
        (slice seg 0 xlogBlcksz)).length = xlogBlcksz := by
      have hpage := length_firstPage hlen hvalid
      rw [length_cryptKeys_page aes hk (inSegment_segmentStart segname ?_ haddr), hpage]
      rw [length_slice, hlen]
      exact Nat.min_le_right ..
    rw [← hpieces, segmentPages, cryptPieces, xlpSegSize_append hfirst] at hhead
    obtain ⟨out, y, hrun, hl, rfl⟩ := (writeDecryptedSegment_spec hd hlen hvalid hhead).exists_ok
      fun _ _ h => h
    rw [hpieces] at hrun
    exact ⟨y, hrun, hl.walKeys⟩
  · obtain ⟨seg', y, hrun, hl, rfl⟩ := (writeEncryptedSegment_spec aes old hd'
      (hplain.trans hlen) hvalid haddr hhead).exists_ok fun _ _ h => h
    have hk' := hd'.fileOk.rangesFollow hd'.increasing
    have hseg' := inSegment_segmentStart segname (hplain.trans hlen).le haddr
    have hpieces := hk'.cryptPieces_eq aes false (filePages _ _)
      (by rwa [flatten_filePages le_rfl])
    rw [flatten_filePages le_rfl] at hpieces
    have hlen' := length_cryptKeys_page aes hk' hseg' false
    rw [hpieces, overwrite_of_le (by rwa [hlen', hplain, hlen])] at hrun
    obtain ⟨z', hread'⟩ := tdeheapXlogSegReadFe_ok aes sz hd'
      (segmentStart sz segname) (cryptKeys aes sz (segmentStart sz segname) false
        (chain (walRanges w d')) (cryptKeys aes sz (segmentStart sz segname) true
          (chain (walRanges w d)) seg))
    rw [hk'.cryptKeys_cryptKeys hseg'] at hread'
    refine ⟨_, y, hrun, hl.walKeys, ⟨z', hread'⟩, fun hsame => ?_⟩
    rw [hsame, hk.cryptKeys_cryptKeys hseg]

/-- The key directory of the sample server after its first write. -/
def sampleKeyDir : Server := (sampleRestart fun _ => true).start sampleWalReader.server

/-- It has one range, encrypted from the first position on. -/
theorem chain_sampleKeyDir : ∃ r, chain (walRanges sampleWorld sampleKeyDir) = [r] ∧
    r.type = .encrypted ∧ r.start = ⟨1, 1⟩ ∧ r.stop = maxWalLocation := by
  have hranges : (chain (walRanges sampleWorld sampleKeyDir)).map
      (fun r => (r.type, r.start, r.stop)) = [(.encrypted, ⟨1, 1⟩, maxWalLocation)] := by
    decide +kernel
  obtain ⟨r, hr, hfields⟩ := List.map_eq_singleton_iff.1 hranges
  simp only [Prod.mk.injEq] at hfields
  exact ⟨r, hr, hfields⟩

theorem sampleKeyDir_ok : KeyDir sampleWorld sampleKeyDir := by
  have hkept := Restart.walKept (sampleRestart fun _ => true) sampleWalReader_ok.shared.fileOk
  refine ⟨hkept.fileOk, ?_, fun _ => rfl, fun info hi => ?_⟩
  · have hranges : (walRanges sampleWorld sampleKeyDir).map (·.start) = [⟨1, 1⟩] := by
      decide +kernel
    obtain ⟨r, hr, -⟩ := List.map_eq_singleton_iff.1 hranges
    rw [hr]
    exact List.pairwise_singleton _ r
  · obtain ⟨k, hk⟩ := (hkept.fileOk.consistent.scopes globalDataTdeOid).header info hi
    exact hk.reachable hi (fun _ _ => rfl) info hi

/-- With a block cipher that gives nothing but ones. -/
theorem cryptKeys_sampleKeyDir {a : SegPos} {buf : List UInt8} (hseg : InSegment sz a buf.length)
    (htli : a.tli = 1) (hsegno : 0 < a.segno) :
    cryptKeys (fun _ _ _ => 1) sz a true (chain (walRanges sampleWorld sampleKeyDir)) buf =
      buf.map (· ^^^ 1) := by
  have hk := sampleKeyDir_ok.fileOk.rangesFollow sampleKeyDir_ok.increasing
  obtain ⟨r, hr, htype, hstart, hstop⟩ := chain_sampleKeyDir
  rw [hk.cryptKeys_eq hseg]
  apply List.ext_getElem?
  intro i
  rw [List.getElem?_mapIdx, List.getElem?_map]
  cases hb : buf[i]? with
  | none => rw [Option.map_none, Option.map_none]
  | some b =>
      have hi : i < buf.length := (List.getElem?_eq_some_iff.1 hb).1
      have hlsn := hseg.lsn hi.le
      have hbig : 1 * 1 ≤ a.segno * sz.size := Nat.mul_le_mul hsegno sz.pos
      have hcontains : r.Contains ((a.advance i).location sz) := by
        refine ⟨by rw [hstart]; decide, ?_, by rw [hstop]; exact hseg.lt_max hi⟩
        rw [hstart, WalLocation.le_iff, hlsn]
        right
        exact ⟨htli.symm, by simp only; omega⟩
      rw [hr]
      simp only [Option.map_some, specByte, List.find?_cons, hcontains, decide_true, htype, if_true]
      rfl

/-- A segment of 1 MB whose header, encrypted with ones, says so. -/
def sampleSegment : List UInt8 :=
  List.replicate 32 0 ++ [1, 1, 17, 1] ++ List.replicate (2 ^ 20 - 36) 0

theorem length_sampleSegment : sampleSegment.length = 2 ^ 20 := by
  rw [sampleSegment, List.length_append, List.length_replicate]
  rfl

theorem xlpSegSize_sampleSegment {rest : List UInt8} :
    xlpSegSize ((List.replicate 32 0 ++ [1, 1, 17, 1] ++ rest).map (· ^^^ 1)) = 2 ^ 20 := rfl

/-- `000000010000000000000001`. -/
def sampleSegname : List UInt8 :=
  [48, 48, 48, 48, 48, 48, 48, 49, 48, 48, 48, 48, 48, 48, 48, 48, 48, 48, 48, 48, 48, 48, 48, 49]

theorem archive_restore_inverse_sample :
    KeyDir sampleWorld sampleKeyDir ∧ ∃ plain y seg' y', xlpSegSize plain = 2 ^ 20 ∧
      writeDecryptedSegment sampleWorld (fun _ _ _ => 1) sampleSegname sampleSegment
        (openKeyDir sampleKeyDir) = .ok plain y ∧
      writeEncryptedSegment sampleWorld (fun _ _ _ => 1) sampleSegname plain []
        (openKeyDir sampleKeyDir) = .ok seg' y' ∧ seg' = sampleSegment := by
  have hstart : segmentStart sampleSegSz sampleSegname = ⟨1, 1, 0⟩ := by decide
  have haddr : ((segmentStart sampleSegSz sampleSegname).segno + 1) * sampleSegSz.size < 2 ^ 64 := by
    rw [hstart]
    decide
  obtain ⟨plain, ⟨z, hread⟩, htools⟩ := archive_restore_inverse sampleWorld (fun _ _ _ => 1)
    sampleSegSz sampleSegname sampleSegment sampleKeyDir sampleKeyDir_ok length_sampleSegment
    (by decide) haddr
  have hplain : plain = sampleSegment.map (· ^^^ 1) := by
    obtain ⟨z', hread'⟩ := tdeheapXlogSegReadFe_ok (fun _ _ _ => 1) sampleSegSz
      sampleKeyDir_ok (segmentStart sampleSegSz sampleSegname) sampleSegment
    rw [hread, cryptKeys_sampleKeyDir (inSegment_segmentStart _ length_sampleSegment.le haddr)
      (by rw [hstart]) (by rw [hstart]; decide)] at hread'
    cases hread'
    rfl
  have hhead : xlpSegSize plain = 2 ^ 20 := by
    rw [hplain]
    exact xlpSegSize_sampleSegment
  obtain ⟨⟨y, hdec, -⟩, hrestore⟩ := htools hhead
  obtain ⟨seg', y', henc, -, -, hsame⟩ := hrestore sampleKeyDir [] sampleKeyDir_ok (Nat.zero_le _)
  exact ⟨sampleKeyDir_ok, plain, y, seg', y', hhead, hdec, henc, hsame rfl⟩

/-- `00000001FFFFFFFF00000FFF`: the last segment of the timeline. -/
def lastSegname : List UInt8 :=
  [48, 48, 48, 48, 48, 48, 48, 49, 70, 70, 70, 70, 70, 70, 70, 70, 48, 48, 48, 48, 48, 70, 70, 70]

/-- The end of the last segment is position 0, which is before every range: a reader of all of it is
shown what is on disk, and the tool decrypts its pages. -/
theorem writeDecryptedSegment_lastSegname {rest : List UInt8}
    (hlen : (List.replicate 32 0 ++ [1, 1, 17, 1] ++ rest).length = sampleSegSz.size) :
    ∃ out y plain z,
      writeDecryptedSegment sampleWorld (fun _ _ _ => 1) lastSegname
        (List.replicate 32 0 ++ [1, 1, 17, 1] ++ rest) (openKeyDir sampleKeyDir) = .ok out y ∧
      tdeheapXlogSegReadFe sampleWorld (fun _ _ _ => 1) sampleSegSz
        (segmentStart sampleSegSz lastSegname) (List.replicate 32 0 ++ [1, 1, 17, 1] ++ rest)
        (openKeyDir sampleKeyDir) = .ok plain z ∧ out ≠ plain := by
  generalize hseg : List.replicate 32 0 ++ [1, 1, 17, 1] ++ rest = seg at hlen ⊢
  have hstart : segmentStart sampleSegSz lastSegname = ⟨1, 2 ^ 44 - 1, 0⟩ := by decide
  have hvalid : isValidWalSegSize sampleSegSz = true := by decide
  have hpage := length_firstPage hlen hvalid
  have hfirst : InSegment sampleSegSz (segmentStart sampleSegSz lastSegname)
      (slice seg 0 xlogBlcksz).length := by
    rw [hpage, hstart]
    refine ⟨by decide, by decide, ?_⟩
    show (2 ^ 44 - 1) * 2 ^ 20 + 0 + 8192 < 2 ^ 64
    omega
  have hcrypt := cryptKeys_sampleKeyDir hfirst (by rw [hstart]) (by rw [hstart]; decide)
  have hfront : slice seg 0 xlogBlcksz =
      List.replicate 32 0 ++ [1, 1, 17, 1] ++ rest.take (xlogBlcksz - 36) := by
    rw [slice, List.drop_zero, ← hseg, List.take_append]
    rfl
  have hhead : xlpSegSize (cryptKeys (fun _ _ _ => 1) sampleSegSz
      (segmentStart sampleSegSz lastSegname) true (chain (walRanges sampleWorld sampleKeyDir))
      (slice seg 0 xlogBlcksz)) = sampleSegSz.size := by
    rw [hcrypt, hfront]
    exact xlpSegSize_sampleSegment
  obtain ⟨out, y, hdec, -, hout⟩ := (writeDecryptedSegment_spec sampleKeyDir_ok hlen hvalid
    hhead).exists_ok fun _ _ h => h
  obtain ⟨z, hread⟩ := tdeheapXlogSegReadFe_ok (fun _ _ _ => 1) sampleSegSz
    sampleKeyDir_ok (segmentStart sampleSegSz lastSegname) seg
  refine ⟨out, y, _, z, hdec, hread, ?_⟩
  have hsame : cryptKeys (fun _ _ _ => 1) sampleSegSz (segmentStart sampleSegSz lastSegname) true
      (chain (walRanges sampleWorld sampleKeyDir)) seg = seg := by
    obtain ⟨r, hr, -, hrange, -⟩ := chain_sampleKeyDir
    have hno : overlapsData sampleSegSz (segmentStart sampleSegSz lastSegname) seg.length r =
        false := by
      rw [hstart, hlen, overlapsData, hrange, Bool.and_eq_false_iff]
      right
      decide
    rw [hr, cryptKeys, List.foldl_cons, List.foldl_nil, cryptRange]
    simp only [if_true, hno, Bool.false_eq_true, and_false, if_false]
  have hzero : seg[0]? = some 0 := by
    rw [← hseg]
    rfl
  have hone : out[0]? = some 1 := by
    rw [hout, segmentPages, cryptPieces, hcrypt, hfront]
    rfl
  intro heq
  rw [heq, hsame, hzero] at hone
  cases hone

theorem archive_fails_at_the_end :
    KeyDir sampleWorld sampleKeyDir ∧ sampleSegment.length = sampleSegSz.size ∧
      isValidWalSegSize sampleSegSz = true ∧ ∃ out y plain z,
        writeDecryptedSegment sampleWorld (fun _ _ _ => 1) lastSegname sampleSegment
          (openKeyDir sampleKeyDir) = .ok out y ∧
        tdeheapXlogSegReadFe sampleWorld (fun _ _ _ => 1) sampleSegSz
          (segmentStart sampleSegSz lastSegname) sampleSegment (openKeyDir sampleKeyDir) =
            .ok plain z ∧
        out ≠ plain :=
  ⟨sampleKeyDir_ok, length_sampleSegment, by decide,
    writeDecryptedSegment_lastSegname length_sampleSegment⟩

end OpenPgTde
