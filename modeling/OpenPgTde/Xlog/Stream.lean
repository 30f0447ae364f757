import Mathlib.Data.Nat.Bitwise
import OpenPgTde.Encryption

/-!
The key stream of the WAL (`encryption/enc_tde.c`, `encryption/enc_aes.c`,
`CalcXLogPageIVPrefix` of `access/open_pg_tde_xlog_smgr.c`).

A segment of the WAL is encrypted by adding a key stream to it: the blocks of the stream are counter
blocks encrypted under the key of a range, and the counter is the position in the segment. The
stream is computed in batches of 200 blocks; what counts is that byte `n` of a segment always meets
byte `n` of the stream.
-/

namespace OpenPgTde

/-- AES in ECB mode: some function of the key and the block. -/
abbrev BlockCipher := List UInt8 → List UInt8 → Fin 16 → UInt8

/-- The number whose bytes, the highest first, are these. -/
def beValue (bytes : List UInt8) : ℕ := bytes.foldl (fun n b => n * 256 + b.toNat) 0

/-- The `w` lowest bytes of a number, the highest first. -/
def beBytes (w n : ℕ) : List UInt8 := (leBytes w n).reverse

/-- `CalcXLogPageIVPrefix`: a sum of 128 bits. Bit 32 of the base is cleared. -/
def calcXLogPageIVPrefix (tli lsn : ℕ) (baseIv : List UInt8) : List UInt8 :=
  let base := beValue baseIv &&& (2 ^ 128 - 1 - 2 ^ 32)
  let offset := ((tli <<< 112) ||| (lsn <<< 32)) % 2 ^ 128
  beBytes 16 ((base + offset) % 2 ^ 128)

/-- The counter block `j`: twelve bytes of the prefix and four of the counter. -/
def counterBlock (ivPrefix : List UInt8) (j : ℕ) : List UInt8 := ivPrefix.take 12 ++ leBytes 4 j

/-- `AesCtrEncryptedZeroBlocks`: the stream from block `b₁` up to block `b₂`. -/
def aesCtrEncryptedZeroBlocks (aes : BlockCipher) (key ivPrefix : List UInt8) (b₁ b₂ : ℕ) :
    List UInt8 :=
  (List.range' b₁ (b₂ - b₁)).flatMap fun j => List.ofFn (aes key (counterBlock ivPrefix j))

/-- `NUM_AES_BLOCKS_IN_BATCH`. -/
def numAesBlocksInBatch : ℕ := 200

/-- The loop of `open_pg_tde_stream_crypt`, with the number of batches that are left. The first
batch skips `keyOffset` bytes of its stream. -/
def streamCryptBatches (aes : BlockCipher) (ivPrefix key : List UInt8) (endBlock : ℕ) :
    ℕ → ℕ → ℕ → List UInt8 → List UInt8
  | 0, _, _, _ => []
  | n + 1, batchStart, keyOffset, data =>
    let batchEnd := min (batchStart + numAesBlocksInBatch) endBlock
    let encKey := aesCtrEncryptedZeroBlocks aes key ivPrefix batchStart batchEnd
    let bytes := min ((batchEnd - batchStart) * 16 - keyOffset) data.length
    List.zipWith (· ^^^ ·) (data.take bytes) (encKey.drop keyOffset) ++
      streamCryptBatches aes ivPrefix key endBlock n (batchStart + numAesBlocksInBatch) 0
        (data.drop bytes)

/-- `open_pg_tde_stream_crypt`: `data` stands at `startOffset` in its file. -/
def streamCrypt (aes : BlockCipher) (ivPrefix : List UInt8) (startOffset : ℕ) (data : List UInt8)
    (key : List UInt8) : List UInt8 :=
  let startBlock := startOffset / 16
  let endBlock := (startOffset + data.length + 15) / 16
  streamCryptBatches aes ivPrefix key endBlock
    ((endBlock - startBlock + (numAesBlocksInBatch - 1)) / numAesBlocksInBatch) startBlock
    (startOffset % 16) data

/-! ### The stream byte by byte -/

/-- Byte `n` of the key stream. -/
def keystreamByte (aes : BlockCipher) (key ivPrefix : List UInt8) (n : ℕ) : UInt8 :=
  aes key (counterBlock ivPrefix (n / 16)) ⟨n % 16, Nat.mod_lt n (by decide)⟩

variable {aes : BlockCipher} {key ivPrefix : List UInt8}

theorem ofFn_counterBlock (b : ℕ) :
    List.ofFn (aes key (counterBlock ivPrefix b)) =
      (List.range' (b * 16) 16).map (keystreamByte aes key ivPrefix) := by
  apply List.ext_getElem
  · simp
  · intro i h₁ h₂
    have hi : i < 16 := by simpa using h₁
    have hdiv : (b * 16 + i) / 16 = b := by omega
    have hmod : (b * 16 + i) % 16 = i := by omega
    rw [List.getElem_ofFn, List.getElem_map, List.getElem_range', Nat.one_mul]
    simp only [keystreamByte, hdiv, hmod]

theorem aesCtrEncryptedZeroBlocks_eq (b₁ b₂ : ℕ) :
    aesCtrEncryptedZeroBlocks aes key ivPrefix b₁ b₂ =
      (List.range' (b₁ * 16) ((b₂ - b₁) * 16)).map (keystreamByte aes key ivPrefix) := by
  unfold aesCtrEncryptedZeroBlocks
  generalize b₂ - b₁ = n
  induction n generalizing b₁ with
  | zero => simp
  | succ n ih =>
      have hsplit : List.range' (b₁ * 16) ((n + 1) * 16) =
          List.range' (b₁ * 16) 16 ++ List.range' ((b₁ + 1) * 16) (n * 16) := by
        rw [Nat.add_mul, Nat.add_comm, Nat.add_mul, List.range'_append_1]
      rw [List.range'_succ, List.flatMap_cons, ih, ofFn_counterBlock, hsplit, List.map_append]

/-- Adding a piece of the stream to data. -/
theorem zipWith_keystream {f : ℕ → UInt8} {a n : ℕ} {data : List UInt8} (h : data.length ≤ n) :
    List.zipWith (· ^^^ ·) data ((List.range' a n).map f) =
      data.mapIdx fun i b => b ^^^ f (a + i) := by
  apply List.ext_getElem
  · simp only [List.length_zipWith, List.length_map, List.length_range', List.length_mapIdx]
    omega
  · intro i h₁ h₂
    simp

theorem streamCryptBatches_nil (endBlock n batchStart keyOffset : ℕ) :
    streamCryptBatches aes ivPrefix key endBlock n batchStart keyOffset [] = [] := by
  induction n generalizing batchStart keyOffset with
  | zero => rfl
  | succ n ih => simp [streamCryptBatches, ih]

/-- The batches together: started at byte `batchStart * 16 + keyOffset` of the stream, with enough
batches to go to the end of the data. -/
theorem streamCryptBatches_eq {endBlock : ℕ} (n batchStart keyOffset : ℕ) (data : List UInt8)
    (hkey : keyOffset < 16) (hend : batchStart * 16 + keyOffset + data.length ≤ endBlock * 16)
    (hn : endBlock - batchStart ≤ 200 * n) :
    streamCryptBatches aes ivPrefix key endBlock n batchStart keyOffset data =
      data.mapIdx fun i b =>
        b ^^^ keystreamByte aes key ivPrefix (batchStart * 16 + keyOffset + i) := by
  induction n generalizing batchStart keyOffset data with
  | zero =>
      obtain rfl : data = [] := by
        apply List.eq_nil_of_length_eq_zero
        omega
      rfl
  | succ n ih =>
      have hbatch : numAesBlocksInBatch = 200 := rfl
      simp only [streamCryptBatches]
      generalize hbe : min (batchStart + numAesBlocksInBatch) endBlock = batchEnd
      generalize hm : min ((batchEnd - batchStart) * 16 - keyOffset) data.length = m
      have htake : (data.take m).length = m := by
        rw [List.length_take]
        omega
      have hfirst : List.zipWith (· ^^^ ·) (data.take m)
          ((aesCtrEncryptedZeroBlocks aes key ivPrefix batchStart batchEnd).drop keyOffset) =
          (data.take m).mapIdx fun i b =>
            b ^^^ keystreamByte aes key ivPrefix (batchStart * 16 + keyOffset + i) := by
        rw [aesCtrEncryptedZeroBlocks_eq, ← List.map_drop, List.drop_range', Nat.mul_one]
        apply zipWith_keystream
        rw [htake]
        omega
      rw [hfirst]
      by_cases hlt : m < data.length
      · -- the batch was full, and the next one starts where it ended
        have hfull : m = 200 * 16 - keyOffset := by omega
        have hshift : ∀ i, (batchStart + numAesBlocksInBatch) * 16 + 0 + i =
            batchStart * 16 + keyOffset + (i + m) := by omega
        have hrest := ih (batchStart + numAesBlocksInBatch) 0 (data.drop m) (by decide)
          (by rw [List.length_drop]; omega) (by omega)
        rw [hrest]
        conv_rhs => rw [← List.take_append_drop m data, List.mapIdx_append, htake]
        simp only [hshift]
      · have hall : m = data.length := by omega
        rw [hall, List.drop_length, streamCryptBatches_nil, List.append_nil, List.take_length]

/-- Byte `n` of the file meets byte `n` of the stream. -/
theorem streamCrypt_eq (startOffset : ℕ) (data : List UInt8) :
    streamCrypt aes ivPrefix startOffset data key =
      data.mapIdx fun i b => b ^^^ keystreamByte aes key ivPrefix (startOffset + i) := by
  have hpos : startOffset / 16 * 16 + startOffset % 16 = startOffset := by omega
  have hbatch : numAesBlocksInBatch = 200 := rfl
  unfold streamCrypt
  rw [streamCryptBatches_eq _ _ _ _ (by omega) (by omega) (by rw [hbatch]; omega), hpos]

@[simp] theorem length_streamCrypt (startOffset : ℕ) (data : List UInt8) :
    (streamCrypt aes ivPrefix startOffset data key).length = data.length := by
  rw [streamCrypt_eq, List.length_mapIdx]

/-! ### Counter blocks of different segments -/

theorem leBytes_inj {v m n : ℕ} (h : leBytes v m = leBytes v n) : m % 256 ^ v = n % 256 ^ v := by
  induction v generalizing m n with
  | zero => simp [Nat.mod_one]
  | succ v ih =>
      simp only [leBytes, List.cons.injEq] at h
      have hlow : m % 256 = n % 256 := by
        have := congrArg UInt8.toNat h.1
        simpa using this
      have hhigh := ih h.2
      rw [Nat.pow_succ, Nat.mul_comm, Nat.mod_mul, Nat.mod_mul, hlow, hhigh]

theorem drop_leBytes (v u n : ℕ) : (leBytes (v + u) n).drop v = leBytes u (n / 256 ^ v) := by
  induction v generalizing n with
  | zero => simp
  | succ v ih =>
      rw [Nat.add_right_comm, leBytes, List.drop_succ_cons, ih, Nat.div_div_eq_div_mul, Nat.pow_succ,
        Nat.mul_comm]

/-- The twelve bytes of the prefix that go into a counter block. -/
theorem take_beBytes (n : ℕ) : (beBytes 16 n).take 12 = beBytes 12 (n / 2 ^ 32) := by
  have hdrop : (leBytes 16 n).drop 4 = leBytes 12 (n / 2 ^ 32) := drop_leBytes 4 12 n
  rw [beBytes, beBytes, List.take_reverse, length_leBytes]
  exact congrArg List.reverse hdrop

/-- Timeline and segment number do not overlap in the offset. -/
theorem ivOffset_eq (tli : ℕ) {lsn : ℕ} (hlsn : lsn < 2 ^ 64) :
    (tli <<< 112) ||| (lsn <<< 32) = tli * 2 ^ 112 + lsn * 2 ^ 32 := by
  have hlt : lsn * 2 ^ 32 < 2 ^ 112 := by omega
  rw [Nat.shiftLeft_eq, Nat.shiftLeft_eq, Nat.mul_comm tli, Nat.two_pow_add_eq_or_of_lt hlt]

/-- The part of a counter block that does not count tells the segment and sixteen bits of the
timeline. The base is added to both sides and drops out, whatever is carried. -/
theorem take_calcXLogPageIVPrefix_inj (tli tli' : ℕ) {segno segno' : ℕ} (h : segno < 2 ^ 64)
    (h' : segno' < 2 ^ 64) (baseIv : List UInt8) :
    (calcXLogPageIVPrefix tli segno baseIv).take 12 =
        (calcXLogPageIVPrefix tli' segno' baseIv).take 12 ↔
      segno = segno' ∧ tli % 2 ^ 16 = tli' % 2 ^ 16 := by
  simp only [calcXLogPageIVPrefix, take_beBytes, ivOffset_eq tli h, ivOffset_eq tli' h']
  generalize (beValue baseIv &&& 2 ^ 128 - 1 - 2 ^ 32) = base
  constructor
  · intro heq
    have hvalue := leBytes_inj (List.reverse_injective heq)
    omega
  · rintro ⟨rfl, htli⟩
    have hoffset : (tli * 2 ^ 112 + segno * 2 ^ 32) % 2 ^ 128 =
        (tli' * 2 ^ 112 + segno * 2 ^ 32) % 2 ^ 128 := by omega
    rw [hoffset]

theorem take_take_calcXLogPageIVPrefix (tli segno : ℕ) (baseIv : List UInt8) (j : ℕ) :
    (counterBlock (calcXLogPageIVPrefix tli segno baseIv) j).take 12 =
      (calcXLogPageIVPrefix tli segno baseIv).take 12 := by
  have hlen : ((calcXLogPageIVPrefix tli segno baseIv).take 12).length = 12 := by
    simp [calcXLogPageIVPrefix, beBytes]
  rw [counterBlock, List.take_append_of_le_length (by omega), List.take_of_length_le (by omega)]

/-- The counter blocks of a segment and of the next one are different. -/
theorem counterBlock_succ_ne (tli : ℕ) {segno : ℕ} (h : segno + 1 < 2 ^ 64) (baseIv : List UInt8)
    (j : ℕ) :
    counterBlock (calcXLogPageIVPrefix tli segno baseIv) j ≠
      counterBlock (calcXLogPageIVPrefix tli (segno + 1) baseIv) j := by
  intro heq
  have hprefix := List.append_cancel_right heq
  have hsame := ((take_calcXLogPageIVPrefix_inj tli tli (Nat.lt_of_succ_lt h) h baseIv).1 hprefix).1
  omega

/-- Two positions in the WAL have the same counter block if and only if they are in the same block of
sixteen bytes of the same segment, and their timelines agree in the lowest sixteen bits. -/
theorem counterBlock_eq_iff (baseIv : List UInt8) (tli tli' : UInt32) (segno segno' : UInt64)
    (offset offset' : UInt32) :
    counterBlock (calcXLogPageIVPrefix tli.toNat segno.toNat baseIv) (offset.toNat / 16) =
        counterBlock (calcXLogPageIVPrefix tli'.toNat segno'.toNat baseIv) (offset'.toNat / 16) ↔
      segno = segno' ∧ tli.toNat % 2 ^ 16 = tli'.toNat % 2 ^ 16 ∧
        offset.toNat / 16 = offset'.toNat / 16 := by
  have hsegno := take_calcXLogPageIVPrefix_inj tli.toNat tli'.toNat segno.toNat_lt segno'.toNat_lt
    baseIv
  constructor
  · intro heq
    have hprefix := congrArg (List.take 12) heq
    rw [take_take_calcXLogPageIVPrefix, take_take_calcXLogPageIVPrefix] at hprefix
    obtain ⟨hseg, htli⟩ := hsegno.1 hprefix
    rw [counterBlock, counterBlock, hprefix] at heq
    have hcounter := leBytes_inj (List.append_cancel_left heq)
    have hlt := offset.toNat_lt
    have hlt' := offset'.toNat_lt
    exact ⟨UInt64.toNat_inj.1 hseg, htli, by omega⟩
  · rintro ⟨rfl, htli, hoffset⟩
    rw [counterBlock, counterBlock, hsegno.2 ⟨rfl, htli⟩, hoffset]

/-! ### The routine with its arithmetic of 32 bits -/

/-- `open_pg_tde_stream_crypt` with the sum of 32 bits that gives the last block. -/
def streamCrypt32 (aes : BlockCipher) (ivPrefix : List UInt8) (startOffset : ℕ) (data : List UInt8)
    (key : List UInt8) : List UInt8 :=
  let startBlock := startOffset / 16
  let endBlock := (startOffset + data.length + 15) % 2 ^ 32 / 16
  streamCryptBatches aes ivPrefix key endBlock
    ((endBlock - startBlock + (numAesBlocksInBatch - 1)) / numAesBlocksInBatch) startBlock
    (startOffset % 16) data

/-- One call a piece, each at the place where the piece before it ended. -/
def streamCryptPieces (aes : BlockCipher) (ivPrefix : List UInt8) (key : List UInt8) :
    ℕ → List (List UInt8) → List UInt8
  | _, [] => []
  | startOffset, piece :: pieces =>
    streamCrypt32 aes ivPrefix startOffset piece key ++
      streamCryptPieces aes ivPrefix key (startOffset + piece.length) pieces

theorem streamCrypt32_eq {startOffset : ℕ} {data : List UInt8}
    (h : startOffset + data.length + 15 < 2 ^ 32) :
    streamCrypt32 aes ivPrefix startOffset data key =
      data.mapIdx fun i b => b ^^^ keystreamByte aes key ivPrefix (startOffset + i) := by
  rw [← streamCrypt_eq, streamCrypt32, streamCrypt, Nat.mod_eq_of_lt h]

theorem streamCryptPieces_eq (pieces : List (List UInt8)) {startOffset : ℕ}
    (h : startOffset + pieces.flatten.length + 15 < 2 ^ 32) :
    streamCryptPieces aes ivPrefix key startOffset pieces =
      pieces.flatten.mapIdx fun i b => b ^^^ keystreamByte aes key ivPrefix (startOffset + i) := by
  induction pieces generalizing startOffset with
  | nil => rfl
  | cons piece pieces ih =>
      rw [List.flatten_cons, List.length_append] at h
      have hshift : ∀ i, startOffset + piece.length + i = startOffset + (i + piece.length) := by omega
      rw [streamCryptPieces, streamCrypt32_eq (by omega), ih (by omega), List.flatten_cons,
        List.mapIdx_append]
      simp only [hshift]

/-- The routine adds, to each byte, the byte of the key stream that belongs to its place, wherever the
batches fall; so it may be called piece by piece, and calling it twice gives the data back. -/
theorem streamCrypt_per_byte (aes : BlockCipher) (ivPrefix key : List UInt8) (startOffset : ℕ)
    (data : List UInt8) (h : startOffset + data.length + 15 < 2 ^ 32) :
    (streamCrypt32 aes ivPrefix startOffset data key).length = data.length ∧
    (∀ i (hi : i < data.length), (streamCrypt32 aes ivPrefix startOffset data key)[i]? =
      some (data[i] ^^^ aes key (counterBlock ivPrefix ((startOffset + i) / 16))
        ⟨(startOffset + i) % 16, Nat.mod_lt _ (by decide)⟩)) ∧
    (∀ pieces : List (List UInt8), pieces.flatten = data →
      streamCryptPieces aes ivPrefix key startOffset pieces =
        streamCrypt32 aes ivPrefix startOffset data key) ∧
    streamCrypt32 aes ivPrefix startOffset (streamCrypt32 aes ivPrefix startOffset data key) key =
      data := by
  have hone := @streamCrypt32_eq aes key ivPrefix startOffset data h
  have hlen : (streamCrypt32 aes ivPrefix startOffset data key).length = data.length := by
    rw [hone, List.length_mapIdx]
  refine ⟨hlen, fun i hi => ?_, fun pieces hpieces => ?_, ?_⟩
  · rw [hone, List.getElem?_mapIdx, List.getElem?_eq_getElem hi]
    rfl
  · subst hpieces
    rw [streamCryptPieces_eq pieces h, hone]
  · have htwice := @streamCrypt32_eq aes key ivPrefix startOffset
      (streamCrypt32 aes ivPrefix startOffset data key) (by rw [hlen]; exact h)
    rw [htwice, hone]
    apply List.ext_getElem
    · simp
    · intro i _ _
      simp only [List.getElem_mapIdx]
      rw [UInt8.xor_assoc, UInt8.xor_self, UInt8.xor_zero]

theorem streamCrypt_per_byte_sample :
    streamCrypt32 (fun _ block i => block.getD i.val 0) [] 14
      (streamCrypt32 (fun _ block i => block.getD i.val 0) [] 14 [1, 2, 3, 4] []) [] = [1, 2, 3, 4] :=
  (streamCrypt_per_byte (fun _ block i => block.getD i.val 0) [] [] 14 [1, 2, 3, 4]
    (by decide)).2.2.2

/-! ### The initialisation vector in two halves -/

/-- The number that eight bytes of memory hold, the lowest first. -/
def leWord (bytes : List UInt8) : UInt64 := UInt64.ofNat (beValue bytes.reverse)

/-- `CalcXLogPageIVPrefix` for compilers without integers of 128 bits: two sums of 64 bits, and a
carry from the lower one to the higher one. -/
def calcXLogPageIVPrefixHalves (tli : UInt32) (lsn : UInt64) (baseIv : List UInt8) : List UInt8 :=
  let base := baseIv.reverse
  let baseLo := leWord (base.take 8)
  let baseHi := leWord (base.drop 8)
  let baseLo := baseLo &&& ~~~((1 : UInt64) <<< 32)
  let offsetLo := lsn <<< 32
  let offsetHi := lsn >>> 32 ||| (tli &&& 0xFFFF).toUInt64 <<< 48
  let ivLo := baseLo + offsetLo
  let carry := if ivLo < baseLo then 1 else 0
  let ivHi := baseHi + offsetHi + carry
  (leBytes 8 ivLo.toNat ++ leBytes 8 ivHi.toNat).reverse

theorem foldl_beValue (bytes : List UInt8) (n : ℕ) :
    bytes.foldl (fun n b => n * 256 + b.toNat) n = n * 256 ^ bytes.length + beValue bytes := by
  induction bytes generalizing n with
  | nil => simp [beValue]
  | cons b bytes ih =>
      have hvalue : beValue (b :: bytes) = b.toNat * 256 ^ bytes.length + beValue bytes := by
        simpa [beValue] using ih b.toNat
      rw [List.foldl_cons, ih, hvalue, List.length_cons, Nat.pow_succ, Nat.add_mul, Nat.mul_assoc,
        Nat.mul_comm 256, Nat.add_assoc]

theorem beValue_append (bytes bytes' : List UInt8) :
    beValue (bytes ++ bytes') = beValue bytes * 256 ^ bytes'.length + beValue bytes' := by
  rw [beValue, List.foldl_append, foldl_beValue]
  rfl

theorem beValue_lt (bytes : List UInt8) : beValue bytes < 256 ^ bytes.length := by
  induction bytes with
  | nil => decide
  | cons b bytes ih =>
      have hb := b.toNat_lt
      have hvalue : beValue [b] = b.toNat := by simp [beValue]
      have hcons : beValue (b :: bytes) = b.toNat * 256 ^ bytes.length + beValue bytes := by
        rw [← hvalue, ← beValue_append]
        rfl
      calc beValue (b :: bytes) < (b.toNat + 1) * 256 ^ bytes.length := by
            rw [hcons, Nat.succ_mul]
            omega
        _ ≤ 256 * 256 ^ bytes.length := Nat.mul_le_mul_right _ (by omega)
        _ = 256 ^ (b :: bytes).length := by rw [List.length_cons, Nat.pow_succ, Nat.mul_comm]

theorem leBytes_add (v u n : ℕ) : leBytes (v + u) n = leBytes v n ++ leBytes u (n / 256 ^ v) := by
  induction v generalizing n with
  | zero => simp [leBytes]
  | succ v ih =>
      rw [Nat.add_right_comm, leBytes, ih, leBytes, Nat.div_div_eq_div_mul, Nat.pow_succ,
        Nat.mul_comm 256, List.cons_append]

theorem leBytes_mod (v n : ℕ) : leBytes v (n % 256 ^ v) = leBytes v n := by
  induction v generalizing n with
  | zero => rfl
  | succ v ih =>
      have hlow : n % 256 ^ (v + 1) % 256 = n % 256 :=
        Nat.mod_mod_of_dvd n (Dvd.intro_left (256 ^ v) rfl)
      have hhigh : n % 256 ^ (v + 1) / 256 = n / 256 % 256 ^ v := by
        rw [Nat.pow_succ, Nat.mul_comm, Nat.mod_mul_right_div_self]
      rw [leBytes, leBytes, hhigh, ih]
      congr 1
      apply UInt8.toNat_inj.1
      rw [UInt8.toNat_ofNat', UInt8.toNat_ofNat']
      exact hlow

/-- Clearing bit 32. -/
theorem and_clear_bit {n mask j : ℕ} (hlow : mask % 2 ^ 33 = 2 ^ 32 - 1)
    (hhigh : mask / 2 ^ 33 = 2 ^ j - 1) (hn : n / 2 ^ 33 < 2 ^ j) :
    n &&& mask = n / 2 ^ 33 * 2 ^ 33 + n % 2 ^ 32 := by
  have hmod : (n &&& mask) % 2 ^ 33 = n % 2 ^ 32 := by
    rw [Nat.and_mod_two_pow, hlow, Nat.and_two_pow_sub_one_eq_mod]
    omega
  have hdiv : (n &&& mask) / 2 ^ 33 = n / 2 ^ 33 := by
    rw [Nat.and_div_two_pow, hhigh, Nat.and_two_pow_sub_one_eq_mod, Nat.mod_eq_of_lt hn]
  omega

theorem leWord_toNat {bytes : List UInt8} (h : bytes.length = 8) :
    (leWord bytes).toNat = beValue bytes.reverse := by
  have hlt := beValue_lt bytes.reverse
  rw [List.length_reverse, h] at hlt
  rw [leWord, UInt64.toNat_ofNat']
  exact Nat.mod_eq_of_lt hlt

/-- The halves of the offset. -/
theorem offsetHi_toNat (tli : UInt32) (lsn : UInt64) :
    (lsn >>> 32 ||| (tli &&& 0xFFFF).toUInt64 <<< 48).toNat =
      tli.toNat % 2 ^ 16 * 2 ^ 48 + lsn.toNat / 2 ^ 32 := by
  have hlsn := lsn.toNat_lt
  have htli : (tli &&& 0xFFFF).toUInt64.toNat = tli.toNat % 2 ^ 16 := by
    rw [UInt32.toNat_toUInt64, UInt32.toNat_and]
    exact Nat.and_two_pow_sub_one_eq_mod _ 16
  rw [UInt64.toNat_or, UInt64.toNat_shiftRight, UInt64.toNat_shiftLeft, htli]
  simp only [UInt64.reduceToNat, Nat.reduceMod, Nat.shiftRight_eq_div_pow, Nat.shiftLeft_eq]
  rw [Nat.mod_eq_of_lt (by omega), Nat.or_comm, Nat.mul_comm (_ % _) (2 ^ 48),
    ← Nat.two_pow_add_eq_or_of_lt (by omega)]

/-- Two sums of 64 bits with a carry are a sum of 128 bits. -/
theorem add_halves (lo hi lo' hi' : UInt64) :
    (hi.toNat * 2 ^ 64 + lo.toNat + (hi'.toNat * 2 ^ 64 + lo'.toNat)) % 2 ^ 128 =
      (hi + hi' + if lo + lo' < lo then 1 else 0).toNat * 2 ^ 64 + (lo + lo').toNat := by
  have hlo := lo.toNat_lt
  have hlo' := lo'.toNat_lt
  have hcarry : (if lo + lo' < lo then (1 : UInt64) else 0).toNat =
      if 2 ^ 64 ≤ lo.toNat + lo'.toNat then 1 else 0 := by
    have hiff : lo + lo' < lo ↔ 2 ^ 64 ≤ lo.toNat + lo'.toNat := by
      rw [UInt64.lt_iff_toNat_lt, UInt64.toNat_add]
      omega
    by_cases h : 2 ^ 64 ≤ lo.toNat + lo'.toNat
    · rw [if_pos (hiff.2 h), if_pos h]
      rfl
    · rw [if_neg fun hlt => h (hiff.1 hlt), if_neg h]
      rfl
  rw [UInt64.toNat_add, UInt64.toNat_add, UInt64.toNat_add, hcarry]
  split
  · omega
  · omega

/-- The bytes of a number of 128 bits, from its halves. -/
theorem beBytes_halves (lo hi : UInt64) :
    beBytes 16 (hi.toNat * 2 ^ 64 + lo.toNat) =
      (leBytes 8 lo.toNat ++ leBytes 8 hi.toNat).reverse := by
  have hlo := lo.toNat_lt
  have hlow : leBytes 8 (hi.toNat * 2 ^ 64 + lo.toNat) = leBytes 8 lo.toNat := by
    rw [← leBytes_mod 8 (hi.toNat * 2 ^ 64 + lo.toNat), ← leBytes_mod 8 lo.toNat]
    congr 1
    omega
  have hhigh : (hi.toNat * 2 ^ 64 + lo.toNat) / 256 ^ 8 = hi.toNat := by omega
  rw [beBytes, leBytes_add 8 8, hlow, hhigh]

/-- The two ways to compute the initialisation vector agree, for every timeline, every segment
number of 64 bits and every base of sixteen bytes. -/
theorem calcXLogPageIVPrefixHalves_eq (tli : UInt32) (lsn : UInt64) (baseIv : List UInt8)
    (hbase : baseIv.length = 16) :
    calcXLogPageIVPrefixHalves tli lsn baseIv =
      calcXLogPageIVPrefix tli.toNat lsn.toNat baseIv := by
  have hlo : (leWord (baseIv.reverse.take 8)).toNat = beValue (baseIv.drop 8) := by
    rw [leWord_toNat (by simp [hbase]), List.take_reverse, List.reverse_reverse, hbase]
  have hhi : (leWord (baseIv.reverse.drop 8)).toNat = beValue (baseIv.take 8) := by
    rw [leWord_toNat (by simp [hbase]), List.drop_reverse, List.reverse_reverse, hbase]
  have hvalue : beValue baseIv = beValue (baseIv.take 8) * 2 ^ 64 + beValue (baseIv.drop 8) := by
    conv_lhs => rw [← List.take_append_drop 8 baseIv, beValue_append]
    rw [List.length_drop, hbase]
    omega
  have hltLo := (leWord (baseIv.reverse.take 8)).toNat_lt
  have hltHi := (leWord (baseIv.reverse.drop 8)).toNat_lt
  rw [hlo] at hltLo
  rw [hhi] at hltHi
  -- bit 32 is in the lower half
  have hclear : (leWord (baseIv.reverse.take 8) &&& ~~~((1 : UInt64) <<< 32)).toNat =
      beValue (baseIv.drop 8) / 2 ^ 33 * 2 ^ 33 + beValue (baseIv.drop 8) % 2 ^ 32 := by
    rw [UInt64.toNat_and, hlo]
    exact and_clear_bit (by decide) (by decide : _ = 2 ^ 31 - 1) (by omega)
  have hclear' : beValue baseIv &&& (2 ^ 128 - 1 - 2 ^ 32) = beValue (baseIv.take 8) * 2 ^ 64 +
      (beValue (baseIv.drop 8) / 2 ^ 33 * 2 ^ 33 + beValue (baseIv.drop 8) % 2 ^ 32) := by
    rw [and_clear_bit (by decide) (by decide : _ = 2 ^ 95 - 1) (by omega), hvalue]
    omega
  have hoffset : (tli.toNat <<< 112 ||| lsn.toNat <<< 32) % 2 ^ 128 =
      (lsn >>> 32 ||| (tli &&& 0xFFFF).toUInt64 <<< 48).toNat * 2 ^ 64 +
        (lsn <<< 32).toNat := by
    have hlsn := lsn.toNat_lt
    rw [ivOffset_eq _ hlsn, offsetHi_toNat, UInt64.toNat_shiftLeft]
    simp only [UInt64.reduceToNat, Nat.reduceMod, Nat.shiftLeft_eq]
    omega
  unfold calcXLogPageIVPrefixHalves calcXLogPageIVPrefix
  dsimp only
  rw [hclear', hoffset, ← hclear, ← hhi, add_halves, beBytes_halves]

/-- A carry from the lower half to the higher one. -/
theorem calcXLogPageIVPrefixHalves_eq_carry :
    calcXLogPageIVPrefixHalves 0xABCD1234 0xFFFFFFFFFFFFFFFF (List.replicate 16 255) =
      calcXLogPageIVPrefix 0xABCD1234 0xFFFFFFFFFFFFFFFF (List.replicate 16 255) :=
  calcXLogPageIVPrefixHalves_eq 0xABCD1234 0xFFFFFFFFFFFFFFFF (List.replicate 16 255)
    List.length_replicate

end OpenPgTde
