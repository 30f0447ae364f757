import Mathlib.Data.Prod.Lex
import OpenPgTde.Lib.Breakpoints
import OpenPgTde.WalKeys.File
import OpenPgTde.Xlog.Stream

/-!
Encrypting a buffer of WAL with a list of ranges (`TDEXLogCryptBuffer` of
`access/open_pg_tde_xlog_smgr.c`).

The ranges of the key cache are gone through in order. Where one overlaps with the buffer, that part
is encrypted with the key of the range; the place of the part is found by comparing locations, and
locations of different timelines compare by their timelines only. What comes out is a statement
about single bytes: a byte is changed by the encrypted ranges that have its location, and if the
ranges follow each other without a gap it is changed by the range in force there.
-/

namespace OpenPgTde

open Lib.Breakpoints

/-! ### Places in the WAL -/

/-- A segment size: a power of two that an `int` can hold. The ones of `IsValidWalSegSize`, from 1 MB
to 1 GB, are among them. -/
structure WalSegSz where
  size : ℕ
  valid : ∃ k ≤ 30, size = 2 ^ k

theorem WalSegSz.pos (sz : WalSegSz) : 0 < sz.size := by
  obtain ⟨k, -, hk⟩ := sz.valid
  rw [hk]
  exact Nat.two_pow_pos k

/-- A place in a segment of the WAL. -/
structure SegPos where
  tli : ℕ
  segno : ℕ
  offset : ℕ
  deriving DecidableEq, Repr

def SegPos.advance (a : SegPos) (n : ℕ) : SegPos := { a with offset := a.offset + n }

/-- `XLogSegNoOffsetToRecPtr`. -/
def xLogSegNoOffsetToRecPtr (sz : WalSegSz) (segno offset : ℕ) : ℕ :=
  (segno * sz.size + offset) % 2 ^ 64

/-- `XLogSegmentOffset`: masking with a power of two less one. -/
def xLogSegmentOffset (sz : WalSegSz) (lsn : ℕ) : ℕ := lsn % sz.size

def SegPos.location (sz : WalSegSz) (a : SegPos) : WalLocation :=
  ⟨xLogSegNoOffsetToRecPtr sz a.segno a.offset, a.tli⟩

/-! ### The loop -/

/-- The key stream of a range at a place. -/
def WalEncryptionRange.stream (aes : BlockCipher) (r : WalEncryptionRange) (a : SegPos) : UInt8 :=
  keystreamByte aes r.key.key (calcXLogPageIVPrefix a.tli a.segno r.key.baseIv) a.offset

/-- Whether the range overlaps with `count` bytes from `a` on. -/
def overlapsData (sz : WalSegSz) (a : SegPos) (count : ℕ) (r : WalEncryptionRange) : Bool :=
  walLocationCmp (a.location sz) r.stop = .lt &&
    walLocationCmp ((a.advance count).location sz) r.start = .gt

/-- Where in the segment the part starts that the range overlaps with: `dec_off`. -/
def decOff (sz : WalSegSz) (a : SegPos) (r : WalEncryptionRange) : ℕ :=
  let dataStart := a.location sz
  xLogSegmentOffset sz
    (if r.start.tli < dataStart.tli then dataStart.lsn else max dataStart.lsn r.start.lsn)

/-- Where it ends: `dec_end`. The offset 0 stands for the end of the segment. -/
def decEnd (sz : WalSegSz) (a : SegPos) (count : ℕ) (r : WalEncryptionRange) : ℕ :=
  let dataEnd := (a.advance count).location sz
  let off := xLogSegmentOffset sz
    (if dataEnd.tli < r.stop.tli then dataEnd.lsn else min dataEnd.lsn r.stop.lsn)
  if off = 0 then a.offset + count else off

/-- One turn of the loop of `TDEXLogCryptBuffer`: the part of `buf` that the range overlaps with is
encrypted into `out`. -/
def cryptRange (aes : BlockCipher) (sz : WalSegSz) (a : SegPos) (buf : List UInt8)
    (r : WalEncryptionRange) (out : List UInt8) : List UInt8 :=
  if (walLocationValid r.start && r.type = .encrypted) = true ∧
      overlapsData sz a buf.length r = true then
    let first := decOff sz a r - a.offset
    let part := (buf.drop first).take (decEnd sz a buf.length r - decOff sz a r)
    out.take first ++
      streamCrypt aes (calcXLogPageIVPrefix a.tli a.segno r.key.baseIv) (decOff sz a r) part
        r.key.key ++
      out.drop (first + part.length)
  else out

/-- The loop of `TDEXLogCryptBuffer`. The output buffer is the input buffer, or a copy of it that is
passed along. -/
def cryptKeys (aes : BlockCipher) (sz : WalSegSz) (a : SegPos) (inPlace : Bool)
    (keys : List WalEncryptionRange) (buf : List UInt8) : List UInt8 :=
  keys.foldl (fun out r => cryptRange aes sz a (if inPlace then out else buf) r out) buf

/-! ### Locations are ordered by timeline and position -/

def WalLocation.key (l : WalLocation) : ℕ ×ₗ ℕ := toLex (l.tli, l.lsn)

theorem WalLocation.key_injective : Function.Injective WalLocation.key := by
  rintro ⟨lsn, tli⟩ ⟨lsn', tli'⟩ h
  simp only [WalLocation.key, EmbeddingLike.apply_eq_iff_eq, Prod.mk.injEq] at h
  rw [h.1, h.2]

instance : LinearOrder WalLocation :=
  LinearOrder.lift' WalLocation.key WalLocation.key_injective

theorem WalLocation.lt_iff {l₁ l₂ : WalLocation} :
    l₁ < l₂ ↔ l₁.tli < l₂.tli ∨ l₁.tli = l₂.tli ∧ l₁.lsn < l₂.lsn := by
  show toLex (l₁.tli, l₁.lsn) < toLex (l₂.tli, l₂.lsn) ↔ _
  rw [Prod.Lex.toLex_lt_toLex]

theorem WalLocation.le_iff {l₁ l₂ : WalLocation} :
    l₁ ≤ l₂ ↔ l₁.tli < l₂.tli ∨ l₁.tli = l₂.tli ∧ l₁.lsn ≤ l₂.lsn := by
  show toLex (l₁.tli, l₁.lsn) ≤ toLex (l₂.tli, l₂.lsn) ↔ _
  rw [Prod.Lex.toLex_le_toLex]

theorem walLocationCmp_lt {l₁ l₂ : WalLocation} :
    walLocationCmp l₁ l₂ = .lt ↔ l₁ < l₂ := by
  rw [WalLocation.lt_iff]
  unfold walLocationCmp
  split_ifs <;> simp <;> omega

theorem walLocationCmp_gt {l₁ l₂ : WalLocation} :
    walLocationCmp l₁ l₂ = .gt ↔ l₂ < l₁ := by
  rw [WalLocation.lt_iff]
  unfold walLocationCmp
  split_ifs <;> simp <;> omega

/-- The range is one that encrypts the byte at `l`. -/
def WalEncryptionRange.Covers (r : WalEncryptionRange) (l : WalLocation) : Prop :=
  walLocationValid r.start = true ∧ r.type = .encrypted ∧ r.start ≤ l ∧ l < r.stop

instance (r : WalEncryptionRange) (l : WalLocation) : Decidable (r.Covers l) :=
  inferInstanceAs (Decidable (_ ∧ _ ∧ _ ∧ _))

/-! ### One range and one byte -/

section Bytes

variable {aes : BlockCipher} {sz : WalSegSz} {a : SegPos} {r : WalEncryptionRange}
  {buf out : List UInt8} {count : ℕ}

/-- The buffer lies in one segment, within the timelines and positions that 32 and 64 bits can
number. -/
structure InSegment (sz : WalSegSz) (a : SegPos) (count : ℕ) : Prop where
  timeline : a.tli < 2 ^ 32
  segment : a.offset + count ≤ sz.size
  address : a.segno * sz.size + a.offset + count < 2 ^ 64

theorem InSegment.lsn (h : InSegment sz a count) {n : ℕ} (hn : n ≤ count) :
    ((a.advance n).location sz).lsn = a.segno * sz.size + a.offset + n := by
  have := h.address
  simp only [SegPos.location, SegPos.advance, xLogSegNoOffsetToRecPtr]
  rw [Nat.mod_eq_of_lt (by omega), Nat.add_assoc]

theorem xLogSegmentOffset_of_lt {segno n : ℕ} (h : n < sz.size) :
    xLogSegmentOffset sz (segno * sz.size + n) = n := by
  rw [xLogSegmentOffset, Nat.mul_comm, Nat.mul_add_mod, Nat.mod_eq_of_lt h]

/-- The part lies in the buffer, and a byte of the buffer is in the part if its location is in the
range. -/
theorem decPart_spec (h : InSegment sz a count) (hcount : 0 < count)
    (hr : r.start ≤ r.stop) (ho : overlapsData sz a count r = true) :
    a.offset ≤ decOff sz a r ∧ decOff sz a r ≤ decEnd sz a count r ∧
      decEnd sz a count r ≤ a.offset + count ∧
      (r.start < r.stop → decOff sz a r < decEnd sz a count r) ∧
      ∀ i < count, (r.start ≤ ((a.advance i).location sz) ∧
        ((a.advance i).location sz) < r.stop ↔
          decOff sz a r ≤ a.offset + i ∧ a.offset + i < decEnd sz a count r) := by
  have hseg := h.segment
  have hstart : (a.location sz).lsn = a.segno * sz.size + a.offset := h.lsn (n := 0) (by omega)
  have hend : ((a.advance count).location sz).lsn = a.segno * sz.size + a.offset + count :=
    h.lsn (le_refl count)
  rw [WalLocation.le_iff] at hr
  simp only [overlapsData, Bool.and_eq_true, decide_eq_true_eq, walLocationCmp_lt,
    walLocationCmp_gt, WalLocation.lt_iff, hstart, hend] at ho
  have htli : ∀ n, ((a.advance n).location sz).tli = a.tli := fun _ => rfl
  have htli₀ : (a.location sz).tli = a.tli := rfl
  rw [htli₀, htli] at ho
  -- the two ends of the part, as positions in the whole WAL and in the segment
  obtain ⟨x, hx⟩ : ∃ x, (if r.start.tli < a.tli then a.segno * sz.size + a.offset
      else max (a.segno * sz.size + a.offset) r.start.lsn) = a.segno * sz.size + x := by
    exact ⟨_, (Nat.add_sub_cancel' (by split <;> omega)).symm⟩
  obtain ⟨y, hy⟩ : ∃ y, (if a.tli < r.stop.tli then a.segno * sz.size + a.offset + count
      else min (a.segno * sz.size + a.offset + count) r.stop.lsn) = a.segno * sz.size + y := by
    exact ⟨_, (Nat.add_sub_cancel' (by split <;> omega)).symm⟩
  have hx' : a.offset ≤ x ∧ x < a.offset + count := by split at hx <;> omega
  have hy' : a.offset < y ∧ y ≤ a.offset + count := by split at hy <;> omega
  have hoff : decOff sz a r = x := by
    simp only [decOff, htli₀, hstart, hx]
    exact xLogSegmentOffset_of_lt (by omega)
  have hdec : decEnd sz a count r = y := by
    simp only [decEnd, htli, hend, hy]
    obtain hlt | heq : y < sz.size ∨ y = sz.size := by omega
    · rw [xLogSegmentOffset_of_lt hlt, if_neg (by omega)]
    · have hzero : xLogSegmentOffset sz (a.segno * sz.size + y) = 0 := by
        simp [xLogSegmentOffset, heq]
      rw [hzero, if_pos rfl]
      omega
  rw [hoff, hdec]
  refine ⟨hx'.1, by split at hx <;> split at hy <;> omega, hy'.2, fun hlt => ?_, fun i hi => ?_⟩
  · rw [WalLocation.lt_iff] at hlt
    split at hx <;> split at hy <;> omega
  rw [WalLocation.le_iff, WalLocation.lt_iff, htli, h.lsn hi.le]
  split at hx <;> split at hy <;> omega

theorem SegPos.advance_advance (a : SegPos) (m n : ℕ) :
    (a.advance m).advance n = a.advance (m + n) := by
  simp [SegPos.advance, Nat.add_assoc]

@[simp] theorem SegPos.advance_zero (a : SegPos) : a.advance 0 = a := rfl

/-- A range that has none of the locations of the buffer does not overlap with it. -/
theorem not_covers_of_not_overlaps (h : InSegment sz a count)
    (ho : overlapsData sz a count r = false) {i : ℕ} (hi : i < count) :
    ¬(r.start ≤ ((a.advance i).location sz) ∧
      ((a.advance i).location sz) < r.stop) := by
  rintro ⟨hle, hlt⟩
  apply Bool.eq_false_iff.1 ho
  have hstart : (a.location sz).lsn = a.segno * sz.size + a.offset := h.lsn (n := 0) (by omega)
  have hpos := h.lsn hi.le
  have hend := h.lsn (le_refl count)
  simp only [overlapsData, Bool.and_eq_true, decide_eq_true_eq, walLocationCmp_lt,
    walLocationCmp_gt]
  rw [WalLocation.le_iff] at hle
  rw [WalLocation.lt_iff] at hlt
  rw [WalLocation.lt_iff, WalLocation.lt_iff]
  have htli : ∀ n, ((a.advance n).location sz).tli = a.tli := fun _ => rfl
  have htli₀ : (a.location sz).tli = a.tli := rfl
  rw [htli] at hle hlt
  rw [htli, htli₀]
  constructor <;> omega

/-- A turn of the loop changes the bytes that the range covers. -/
theorem getElem?_cryptRange (h : InSegment sz a buf.length) (hlen : out.length = buf.length)
    (hr : walLocationValid r.start = true → r.start ≤ r.stop) (i : ℕ) :
    (cryptRange aes sz a buf r out)[i]? =
      if r.Covers ((a.advance i).location sz) then buf[i]?.map (· ^^^ r.stream aes (a.advance i))
      else out[i]? := by
  have hnone : buf.length ≤ i → buf[i]? = none ∧ out[i]? = none := fun hi =>
    ⟨List.getElem?_eq_none hi, List.getElem?_eq_none (by omega)⟩
  unfold cryptRange
  split
  · next hc =>
      obtain ⟨henc, ho⟩ := hc
      obtain hzero | hpos := Nat.eq_zero_or_pos buf.length
      · obtain rfl : buf = [] := List.eq_nil_of_length_eq_zero hzero
        obtain rfl : out = [] := List.eq_nil_of_length_eq_zero hlen
        simp [streamCrypt_eq]
      have hvalid : walLocationValid r.start = true := by
        rw [Bool.and_eq_true] at henc
        exact henc.1
      obtain ⟨h₁, h₂, h₃, -, hpart⟩ := decPart_spec h hpos (hr hvalid) ho
      generalize hd : decOff sz a r = d at h₁ h₂ hpart
      generalize he : decEnd sz a buf.length r = e at h₂ h₃ hpart
      have hsize : ((buf.drop (d - a.offset)).take (e - d)).length = e - d := by
        simp only [List.length_take, List.length_drop]
        omega
      have hcovers : i < buf.length → (r.Covers ((a.advance i).location sz) ↔
          d ≤ a.offset + i ∧ a.offset + i < e) := by
        intro hi
        simp only [Bool.and_eq_true, decide_eq_true_eq] at henc
        rw [← hpart i hi]
        exact ⟨fun hcov => hcov.2.2, fun hin => ⟨henc.1, henc.2, hin⟩⟩
      simp only [List.append_assoc, List.getElem?_append, List.length_take, length_streamCrypt,
        hsize, hlen]
      obtain hlow | hmid | hhigh : i < d - a.offset ∨
          d - a.offset ≤ i ∧ i < e - a.offset ∨ e - a.offset ≤ i := by omega
      · have hnot : ¬r.Covers ((a.advance i).location sz) := by
          rw [hcovers (by omega)]
          omega
        rw [if_pos (by omega), if_neg hnot, List.getElem?_take_of_lt hlow]
      · have hcov : r.Covers ((a.advance i).location sz) := by
          rw [hcovers (by omega)]
          omega
        have hplace : d + (i - (d - a.offset)) = a.offset + i := by omega
        have hindex : d - a.offset + (i - (d - a.offset)) = i := by omega
        have hmin : min (d - a.offset) buf.length = d - a.offset := by omega
        rw [if_neg (by omega), hmin, if_pos (by omega), if_pos hcov, streamCrypt_eq,
          List.getElem?_mapIdx, List.getElem?_take_of_lt (by omega), List.getElem?_drop, hindex]
        simp only [hplace]
        rfl
      · have hindex : d - a.offset + (e - d) + (i - (d - a.offset) - (e - d)) = i := by omega
        have hmin : min (d - a.offset) buf.length = d - a.offset := by omega
        rw [if_neg (by omega), hmin, if_neg (by omega), List.getElem?_drop, hindex]
        split
        · next hcov =>
            obtain hi | hi := Nat.lt_or_ge i buf.length
            · have := (hcovers hi).1 hcov
              omega
            · simp [(hnone hi).1, (hnone hi).2]
        · rfl
  · next hc =>
      split
      · next hcov =>
          obtain hi | hi := Nat.lt_or_ge i buf.length
          · refine absurd ⟨?_, ?_⟩ hc
            · simp [hcov.1, hcov.2.1]
            · by_contra ho
              exact not_covers_of_not_overlaps h (Bool.eq_false_iff.2 ho) hi hcov.2.2
          · simp [(hnone hi).1, (hnone hi).2]
      · rfl

/-- The byte that comes out of the loop for the byte `b` at `a`. -/
def cryptByte (aes : BlockCipher) (sz : WalSegSz) (inPlace : Bool)
    (keys : List WalEncryptionRange) (a : SegPos) (b : UInt8) : UInt8 :=
  keys.foldl (fun c r => if r.Covers (a.location sz) then
    (if inPlace then c else b) ^^^ r.stream aes a else c) b

/-- The loop treats every byte by itself. -/
theorem cryptKeys_eq (h : InSegment sz a buf.length) (inPlace : Bool)
    {keys : List WalEncryptionRange}
    (hr : ∀ r ∈ keys, walLocationValid r.start = true → r.start ≤ r.stop) :
    cryptKeys aes sz a inPlace keys buf =
      buf.mapIdx fun i b => cryptByte aes sz inPlace keys (a.advance i) b := by
  -- the output so far is a function of the place and the input byte
  suffices hgo : ∀ g : ℕ → UInt8 → UInt8,
      keys.foldl (fun out r => cryptRange aes sz a (if inPlace then out else buf) r out)
        (buf.mapIdx g) =
      buf.mapIdx fun i b => keys.foldl (fun c r => if r.Covers ((a.advance i).location sz) then
        (if inPlace then c else b) ^^^ r.stream aes (a.advance i) else c) (g i b) by
    have hself : buf.mapIdx (fun _ b => b) = buf := by simp [List.mapIdx_eq_zipIdx_map]
    simpa [hself, cryptKeys, cryptByte] using hgo fun _ b => b
  induction keys with
  | nil => intro g; rfl
  | cons r keys ih =>
      intro g
      have hstep : cryptRange aes sz a (if inPlace then buf.mapIdx g else buf) r (buf.mapIdx g) =
          buf.mapIdx fun i b => if r.Covers ((a.advance i).location sz) then
            (if inPlace then g i b else b) ^^^ r.stream aes (a.advance i) else g i b := by
        have hlen : (if inPlace then buf.mapIdx g else buf).length = buf.length := by
          cases inPlace <;> simp
        apply List.ext_getElem?
        intro i
        rw [getElem?_cryptRange (by rw [hlen]; exact h) (by rw [hlen, List.length_mapIdx])
          (hr r List.mem_cons_self), List.getElem?_mapIdx, List.getElem?_mapIdx]
        cases hb : buf[i]? with
        | none => cases inPlace <;> simp [hb]
        | some b => by_cases hc : r.Covers ((a.advance i).location sz) <;> cases inPlace <;>
            simp [hb, hc]
      rw [List.foldl_cons, hstep, ih fun r' hr' => hr r' (List.mem_cons_of_mem r hr')]
      rfl

/-- In place, the loop adds a byte that does not depend on the data. -/
theorem cryptByte_inPlace (keys : List WalEncryptionRange) (a : SegPos) (b : UInt8) :
    cryptByte aes sz true keys a b = b ^^^ cryptByte aes sz true keys a 0 := by
  unfold cryptByte
  suffices hgo : ∀ c : UInt8, keys.foldl (fun c r => if r.Covers (a.location sz) then
      (if true then c else b) ^^^ r.stream aes a else c) (b ^^^ c) =
      b ^^^ keys.foldl (fun c r => if r.Covers (a.location sz) then
      (if true then c else 0) ^^^ r.stream aes a else c) c by
    simpa using hgo 0
  induction keys with
  | nil => exact fun _ => rfl
  | cons r keys ih =>
      intro c
      rw [List.foldl_cons, List.foldl_cons]
      by_cases hc : r.Covers (a.location sz)
      · simp only [if_pos hc, if_true, UInt8.xor_assoc]
        exact ih _
      · simp only [if_neg hc]
        exact ih c

/-- What the loop did in place, it undoes. -/
theorem cryptByte_cryptByte (keys : List WalEncryptionRange) (a : SegPos) (b : UInt8) :
    cryptByte aes sz true keys a (cryptByte aes sz true keys a b) = b := by
  rw [cryptByte_inPlace, cryptByte_inPlace keys a b, UInt8.xor_assoc, UInt8.xor_self,
    UInt8.xor_zero]

end Bytes

/-! ### Ranges that follow each other -/

/-- A range of the cache ends where the next one starts. -/
def chain (ranges : List WalEncryptionRange) : List WalEncryptionRange :=
  (spans (·.start) maxWalLocation ranges).map fun x => { x.1 with stop := x.2 }

/-- What a range does to a byte of its own. -/
def WalEncryptionRange.crypt (aes : BlockCipher) (r : WalEncryptionRange) (a : SegPos)
    (b : UInt8) : UInt8 :=
  if walLocationValid r.start = true ∧ r.type = .encrypted then b ^^^ r.stream aes a else b

/-- What the range in force does to the byte at a place. -/
def coverByte (aes : BlockCipher) (sz : WalSegSz) (ranges : List WalEncryptionRange) (a : SegPos)
    (b : UInt8) : UInt8 :=
  (cover (·.start) ranges (a.location sz)).elim b fun r => r.crypt aes a b

section Chain

variable {aes : BlockCipher} {sz : WalSegSz} {a : SegPos} {ranges : List WalEncryptionRange}

theorem coverByte_coverByte (b : UInt8) :
    coverByte aes sz ranges a (coverByte aes sz ranges a b) = b := by
  unfold coverByte
  cases cover (·.start) ranges (a.location sz) with
  | none => rfl
  | some r =>
      by_cases h : walLocationValid r.start = true ∧ r.type = .encrypted
      · simp [WalEncryptionRange.crypt, h, UInt8.xor_assoc]
      · simp [WalEncryptionRange.crypt, h]

/-- Ranges that follow each other meet a byte once, in the range in force. -/
theorem cryptByte_chain (hinc : Increasing (·.start) ranges) (ha : a.location sz < maxWalLocation)
    (inPlace : Bool) (b : UInt8) :
    cryptByte aes sz inPlace (chain ranges) a b = coverByte aes sz ranges a b := by
  have hpass := foldl_spans hinc ha (fun (c : UInt8) r =>
    if walLocationValid r.start = true ∧ r.type = .encrypted then
      (if inPlace then c else b) ^^^ r.stream aes a else c) b
  unfold cryptByte chain
  rw [List.foldl_map]
  have hstep : ∀ (c : UInt8) (x : WalEncryptionRange × WalLocation),
      (if WalEncryptionRange.Covers { x.1 with stop := x.2 } (a.location sz) then
        (if inPlace then c else b) ^^^ WalEncryptionRange.stream aes { x.1 with stop := x.2 } a
        else c) = if x.1.start ≤ a.location sz ∧ a.location sz < x.2 then
          (if walLocationValid x.1.start = true ∧ x.1.type = .encrypted then
            (if inPlace then c else b) ^^^ x.1.stream aes a else c) else c := by
    intro c x
    simp only [WalEncryptionRange.Covers, ← and_assoc (b := x.1.type = .encrypted)]
    by_cases h₁ : walLocationValid x.1.start = true ∧ x.1.type = .encrypted
    · by_cases h₂ : x.1.start ≤ a.location sz ∧ a.location sz < x.2
      · simp [h₁, h₂]
        rfl
      · simp [h₁, h₂]
    · simp [h₁]
  simp only [hstep, hpass]
  unfold coverByte WalEncryptionRange.crypt
  cases cover (·.start) ranges (a.location sz) <;> cases inPlace <;> rfl

end Chain

end OpenPgTde
