import OpenPgTde.Xlog.Runs

/-!
Encrypting streamed WAL (`ProcessXLogDataMsg` of `pg_basebackup/receivelog.c`).

A message has any number of bytes of WAL from a position on. They are written to the segment files
in parts, none of which crosses the end of a segment, and each part is encrypted in place before it
is written. The number of the segment is computed once, from the start of the message; the file, the
offset and the position follow the parts.
-/

namespace OpenPgTde

open Lib.Effect Lib.Breakpoints

/-! ### The receiver -/

/-- The file that is open: its segment and the position in it. -/
structure Walfile where
  segno : ℕ
  currpos : ℕ
  deriving DecidableEq

/-- What `StreamCtl` and the connection decide: the timeline, whether to encrypt, and the outcomes
of opening a file, of writing to it (how many bytes were written), of closing it, of the callback
that may end the stream, and of sending the end of the copy. -/
structure StreamCtl where
  timeline : ℕ
  encrypt : Bool
  openWalfile : ℕ → Bool
  write : Walfile → ℕ → ℕ
  closeWalfile : ℕ → Bool
  streamStop : ℕ → Bool
  putCopyEnd : Bool

/-- Bytes in a segment file, and what they were in the message. -/
structure WrittenPart where
  segno : ℕ
  offset : ℕ
  data : List UInt8
  bytes : List UInt8
  deriving DecidableEq

structure Receiver where
  walfile : Option Walfile
  stillSending : Bool
  blockpos : ℕ
  written : List WrittenPart
  deriving DecidableEq

/-- `true`, or `false` with the error that is logged. -/
inductive Received
  | ok
  /-- streaming header too small -/
  | headerTooSmall (len : ℕ)
  /-- received write-ahead log record for offset with no file open -/
  | noFileOpen (xlogoff : ℕ)
  /-- got WAL data offset, expected -/
  | unexpectedOffset (xlogoff currpos : ℕ)
  /-- Logged by `open_walfile`. -/
  | openFailed
  /-- could not write bytes to WAL file -/
  | writeFailed
  /-- Logged by `close_walfile`. -/
  | closeFailed
  /-- could not send copy-end packet -/
  | copyEndFailed
  deriving DecidableEq

/-! ### The loop -/

/-- `open_walfile`, if no file is open. -/
def Receiver.file (sz : WalSegSz) (c : StreamCtl) (rc : Receiver) : Option Walfile :=
  match rc.walfile with
  | some f => some f
  | none =>
    let segno := rc.blockpos / sz.size
    if c.openWalfile segno then some ⟨segno, 0⟩ else none

/-- The encryption of a part. -/
def encryptPart (w : World) (aes : BlockCipher) (sz : WalSegSz) (c : StreamCtl)
    (segno xlogoff : ℕ) (part : List UInt8) : X (List UInt8) :=
  if c.encrypt then do
    let a : SegPos := ⟨c.timeline, segno, xlogoff⟩
    let _ ← ensureXlogKeyLocation (a.location sz) false
    xLogCryptBuffer w aes sz a true part
  else pure part

/-- The receiver once `n` bytes of a part were written to the file. -/
def Receiver.wrote (rc : Receiver) (f : Walfile) (n : ℕ) (part bytes : List UInt8) : Receiver :=
  { rc with
    walfile := some { f with currpos := f.currpos + n }
    blockpos := (rc.blockpos + n) % 2 ^ 64
    written := rc.written ++ [⟨f.segno, f.currpos, part.take n, bytes.take n⟩] }

/-- The loop of `ProcessXLogDataMsg`, for at most so many turns; every turn takes at least one
byte. -/
def processParts (w : World) (aes : BlockCipher) (sz : WalSegSz) (c : StreamCtl) (segno : ℕ) :
    ℕ → ℕ → List UInt8 → Receiver → X (Received × Receiver)
  | 0, _, _, rc => pure (.ok, rc)
  | turns + 1, xlogoff, data, rc =>
    if data = [] then pure (.ok, rc)
    else match rc.file sz c with
      | none => pure (.openFailed, rc)
      | some f => do
        let count := if sz.size < xlogoff + data.length then sz.size - xlogoff else data.length
        let part := data.take count
        let bytes ← encryptPart w aes sz c segno xlogoff part
        let n := min (c.write f count) count
        let rc := rc.wrote f n part bytes
        if n ≠ count then pure (.writeFailed, rc)
        else if xLogSegmentOffset sz rc.blockpos ≠ 0 then
          processParts w aes sz c segno turns (xlogoff + count) (data.drop count) rc
        else
          let rc := { rc with walfile := none }
          if c.closeWalfile f.segno = false then pure (.closeFailed, rc)
          else if rc.stillSending && c.streamStop rc.blockpos then
            if c.putCopyEnd then pure (.ok, { rc with stillSending := false })
            else pure (.copyEndFailed, rc)
          else processParts w aes sz c segno turns 0 (data.drop count) rc

/-- The length of the header: type, start, end and time. -/
def xLogDataHdrLen : ℕ := 1 + 8 + 8 + 8

/-- `fe_recvint64` of the field `dataStart`. -/
def dataStart (copybuf : List UInt8) : ℕ := beValue ((copybuf.drop 1).take 8)

/-- `ProcessXLogDataMsg`. -/
def processXLogDataMsg (w : World) (aes : BlockCipher) (sz : WalSegSz) (c : StreamCtl)
    (copybuf : List UInt8) (rc : Receiver) : X (Received × Receiver) :=
  if rc.stillSending = false then pure (.ok, rc)
  else if copybuf.length < xLogDataHdrLen then pure (.headerTooSmall copybuf.length, rc)
  else
    let start := dataStart copybuf
    let rc := { rc with blockpos := start }
    let xlogoff := xLogSegmentOffset sz start
    let segno := start / sz.size
    let data := copybuf.drop xLogDataHdrLen
    match rc.walfile with
    | none =>
      if xlogoff ≠ 0 then pure (.noFileOpen xlogoff, rc)
      else processParts w aes sz c segno data.length xlogoff data rc
    | some f =>
      if f.currpos ≠ xlogoff then pure (.unexpectedOffset xlogoff f.currpos, rc)
      else processParts w aes sz c segno data.length xlogoff data rc

/-! ### What is asked of the parts -/

/-- A message of an encrypted stream: it continues the file that is open, and its positions are
numbered by 64 bits from 1 on. -/
structure Streamed (sz : WalSegSz) (c : StreamCtl) (copybuf : List UInt8) (rc : Receiver) :
    Prop where
  encrypt : c.encrypt = true
  timeline : 0 < c.timeline ∧ c.timeline < 2 ^ 32
  start : 0 < dataStart copybuf
  stop : dataStart copybuf + (copybuf.length - xLogDataHdrLen) < 2 ^ 64
  file : ∀ f ∈ rc.walfile, f.segno = dataStart copybuf / sz.size

/-- The parts are transformed as `TDEXLogCryptBuffer` transforms the bytes at their places, and a
reader of the key file reads the bytes of the message. -/
def PartsOk (w : World) (aes : BlockCipher) (sz : WalSegSz) (c : StreamCtl) (y : WalState)
    (parts : List WrittenPart) : Prop :=
  ∀ p ∈ parts,
    p.bytes = cryptKeys aes sz ⟨c.timeline, p.segno, p.offset⟩ true y.process.cache p.data ∧
    ∀ out z, tdeheapXlogSegRead w aes sz ⟨c.timeline, p.segno, p.offset⟩ p.bytes
      ⟨y.server, invalidWalLocation, .initial⟩ = .ok out z → out = p.data

/-- The message goes on after the segment it starts in, and some of that is written: nothing fails
before, and the stream is not ended at the boundary. -/
def Crosses (sz : WalSegSz) (c : StreamCtl) (copybuf : List UInt8) (rc : Receiver) : Prop :=
  let start := dataStart copybuf
  let len := copybuf.length - xLogDataHdrLen
  let segno := start / sz.size
  let off := start % sz.size
  rc.stillSending = true ∧ sz.size < off + len ∧
    (match rc.walfile with
      | none => off = 0 ∧ c.openWalfile segno = true
      | some f => f.currpos = off) ∧
    sz.size - off ≤ c.write ⟨segno, off⟩ (sz.size - off) ∧ c.closeWalfile segno = true ∧
    c.streamStop ((segno + 1) * sz.size) = false ∧ c.openWalfile (segno + 1) = true ∧
    0 < c.write ⟨segno + 1, 0⟩ (min sz.size (off + len - sz.size))

/-! ### Encrypting a part -/

section Parts

variable {w : World} {aes : BlockCipher} {sz : WalSegSz} {x : WalState} {c : StreamCtl}
  {a : SegPos} {loc loc' : WalLocation} {buf : List UInt8}

theorem NoStartUpTo.congr {y : WalState} (h : NoStartUpTo w x loc) (hk : WalKept w x.server y.server)
    (hs : WalFileOk w x.server) (he : y.encKey = x.encKey) : NoStartUpTo w y loc := by
  unfold NoStartUpTo
  rw [(hk.ranges hs).1, (hk.ranges hs).2, he]
  exact h

/-- Where a write at `loc'` does not give the last range its start, one before it does not. -/
theorem ensureXlogKeyLocation_of_settled (h : x.Ok w) (hs : NoStartUpTo w x loc') (hle : loc ≤ loc')
    (crashRecovery : Bool) : ∃ b, ensureXlogKeyLocation loc crashRecovery x = .ok b x := by
  have hnot : ¬(x.process.current.type ≠ .invalid ∧ ¬x.encKey.lsn ≠ 0 ∧
      walLocationCmp x.encKey loc ≠ .gt ∧ crashRecovery = false ∧
      ∀ last ∈ x.process.cache.getLast?, walLocationCmp last.start loc = .lt) := by
    rintro ⟨htype, hlsn, hafter, -, hlast⟩
    obtain hne | hlt | hnone | ⟨r, hr, hler⟩ := hs
    · exact hlsn hne
    · rw [Ne, walLocationCmp_gt] at hafter
      exact hafter (hle.trans_lt hlt)
    · exact htype (h.process.none hnone)
    · obtain hchain | ⟨hnil, -⟩ := h.process.upToDate h.shared.fileOk (not_not.1 hlsn)
      · -- the last range that has a start does not start before any other
        obtain ⟨ranges, last, hranges⟩ : ∃ ranges last, walRanges w x.server = ranges ++ [last] :=
          ⟨_, _, (List.dropLast_append_getLast (List.ne_nil_of_mem hr)).symm⟩
        have hlt := hlast { last with stop := maxWalLocation }
          (by rw [hchain, hranges, getLast?_chain]; rfl)
        rw [walLocationCmp_lt] at hlt
        have hinc := h.shared.increasing
        rw [hranges] at hr hinc
        have hrl : r.start ≤ last.start := by
          obtain hr | hr := List.mem_append.1 hr
          · exact ((List.pairwise_append.1 hinc).2.2 r hr last (by simp)).le
          · rw [List.mem_singleton.1 hr]
        exact absurd hlt (not_lt.2 (hle.trans (hler.trans hrl)))
      · rw [walRanges_of_nil hnil] at hr
        cases hr
  refine ⟨decide (x.encKey.lsn ≠ 0) && decide (walLocationCmp x.encKey loc ≠ .gt), ?_⟩
  unfold ensureXlogKeyLocation
  show (if _ then _ else _ : X Bool) x = _
  rw [if_neg hnot]
  rfl

theorem encryptPart_eq (henc : c.encrypt = true) (segno xlogoff : ℕ) :
    encryptPart w aes sz c segno xlogoff buf = (do
      let _ ← ensureXlogKeyLocation ((⟨c.timeline, segno, xlogoff⟩ : SegPos).location sz) false
      xLogCryptBuffer w aes sz ⟨c.timeline, segno, xlogoff⟩ true buf) := by
  rw [encryptPart, if_pos henc]

/-- The first part: after it the list of ranges is complete, and no part of the message at an
earlier position will give a range its start. -/
theorem encryptPart_spec (h : x.Ok w) (henc : c.encrypt = true) {segno xlogoff : ℕ}
    (hseg : InSegment sz ⟨c.timeline, segno, xlogoff⟩ buf.length)
    (hloc : ProperStart ((⟨c.timeline, segno, xlogoff⟩ : SegPos).location sz)) :
    wp (encryptPart w aes sz c segno xlogoff buf)
      (fun bytes y => y.Ok w ∧ UpToDate w y.server y.process.cache ∧
        NoStartUpTo w y ((⟨c.timeline, segno, xlogoff⟩ : SegPos).location sz) ∧
        bytes = coverBuffer aes sz (walRanges w y.server) ⟨c.timeline, segno, xlogoff⟩ buf)
      (fun _ _ => True) x := by
  rw [encryptPart_eq henc]
  refine (wp_bind ..).2 ((ensureXlogKeyLocation_spec h hloc.2 false).mono (fun _ y hy => ?_)
    fun _ _ _ => trivial)
  obtain ⟨hstep, -, -, hset⟩ := hy
  refine (xLogCryptBuffer_spec hstep.1 hseg true).mono (fun bytes z hz => ?_) fun _ _ _ => trivial
  obtain ⟨⟨hok, hkept, hkey, -⟩, hup, rfl⟩ := hz
  have hfile := hstep.1.shared.fileOk
  refine ⟨hok, (hkept.upToDate hfile).2 hup, (hset (lsn_ne_zero hloc.1) rfl).congr hkept hfile hkey, ?_⟩
  rw [(hkept.ranges hfile).1]

/-- A part at an earlier position. -/
theorem encryptPart_settled_spec (h : x.Ok w) (henc : c.encrypt = true) {segno xlogoff : ℕ}
    (hset : NoStartUpTo w x loc')
    (hle : (⟨c.timeline, segno, xlogoff⟩ : SegPos).location sz ≤ loc')
    (hseg : InSegment sz ⟨c.timeline, segno, xlogoff⟩ buf.length) :
    wp (encryptPart w aes sz c segno xlogoff buf)
      (fun _ y => y.Ok w ∧ WalKept w x.server y.server ∧ UpToDate w y.server y.process.cache)
      (fun _ _ => True) x := by
  obtain ⟨b, hb⟩ := ensureXlogKeyLocation_of_settled h hset hle false
  rw [encryptPart_eq henc, wp_bind]
  unfold wp
  rw [hb]
  refine (xLogCryptBuffer_spec h hseg true).mono (fun bytes z hz => ?_) fun _ _ _ => trivial
  obtain ⟨⟨hok, hkept, -⟩, hup, -⟩ := hz
  exact ⟨hok, hkept, (hkept.upToDate h.shared.fileOk).2 hup⟩

/-- A reader that starts from nothing reads the file. -/
theorem read_from_scratch {s : Server} (hs : WalFileOk w s)
    (hinc : Increasing (·.start) (walRanges w s)) (hseg : InSegment sz a buf.length) :
    wp (tdeheapXlogSegRead w aes sz a buf)
      (fun out _ => out = coverBuffer aes sz (walRanges w s) a buf) (fun _ _ => True)
      ⟨s, invalidWalLocation, .initial⟩ := by
  unfold tdeheapXlogSegRead xLogCryptBuffer refreshWalKeys
  simp only [wp_bind, wp_get, wp_ite, wp_pure]
  refine ⟨fun hc => ?_, fun hc => absurd rfl hc⟩
  refine (fetchAll_spec (x := ⟨s, invalidWalLocation, .initial⟩) hs hc).mono (fun _ y hy => ?_)
    fun _ _ _ => trivial
  obtain ⟨t, cache, hk, hup, rfl⟩ := hy
  unfold fetchNewWalKeys
  simp only [wp_bind, wp_get, wp_ite, wp_pure]
  exact ⟨fun h => absurd rfl h, fun _ => hup.cryptKeys hs hinc hseg true⟩

/-- Bytes that are as the ranges of the file want them are what is asked for. -/
theorem partsOk_of_cover {y : WalState} (h : y.Ok w) (hup : UpToDate w y.server y.process.cache)
    {parts : List WrittenPart}
    (hparts : ∀ p ∈ parts, InSegment sz ⟨c.timeline, p.segno, p.offset⟩ p.data.length ∧
      p.bytes = coverBuffer aes sz (walRanges w y.server) ⟨c.timeline, p.segno, p.offset⟩ p.data) :
    PartsOk w aes sz c y parts := by
  intro p hp
  obtain ⟨hseg, hbytes⟩ := hparts p hp
  have hlen : p.bytes.length = p.data.length := by simp [hbytes, coverBuffer]
  refine ⟨?_, fun out z hread => ?_⟩
  · rw [hbytes, hup.cryptKeys h.shared.fileOk h.shared.increasing hseg true]
  · have hspec : wp (tdeheapXlogSegRead w aes sz ⟨c.timeline, p.segno, p.offset⟩ p.bytes) _ _ _ :=
      read_from_scratch h.shared.fileOk h.shared.increasing (by rw [hlen]; exact hseg)
    rw [hspec.of_ok hread, hbytes]
    apply List.ext_getElem
    · simp [coverBuffer]
    · intro i h₁ h₂
      simp [coverBuffer, coverByte_coverByte]

theorem coverBuffer_take (ranges : List WalEncryptionRange) (n : ℕ) :
    (coverBuffer aes sz ranges a buf).take n = coverBuffer aes sz ranges a (buf.take n) := by
  apply List.ext_getElem
  · simp [coverBuffer]
  · intro i h₁ h₂
    simp [coverBuffer]

theorem processParts_nil (segno turns xlogoff : ℕ) (rc : Receiver) :
    processParts w aes sz c segno turns xlogoff [] rc = pure (.ok, rc) := by
  cases turns <;> simp [processParts]

/-- The position of a message in segments. -/
theorem start_eq (sz : WalSegSz) (start : ℕ) :
    start / sz.size * sz.size + start % sz.size = start ∧ start % sz.size < sz.size :=
  ⟨by rw [Nat.mul_comm]; exact Nat.div_add_mod start sz.size, Nat.mod_lt _ sz.pos⟩

/-- The next turn, in which nothing is written. -/
theorem processParts_next_spec {segno : ℕ} {data : List UInt8} {rc : Receiver} (h : x.Ok w)
    (hup : UpToDate w x.server x.process.cache) (henc : c.encrypt = true)
    (htli : c.timeline < 2 ^ 32) (hset : NoStartUpTo w x loc')
    (hle : (⟨c.timeline, segno, 0⟩ : SegPos).location sz ≤ loc')
    (hpos : rc.blockpos = (segno + 1) * sz.size) (hwalfile : rc.walfile = none)
    (hstop : (segno + 1) * sz.size + data.length < 2 ^ 64)
    (hno : data ≠ [] → c.openWalfile (segno + 1) = true →
      c.write ⟨segno + 1, 0⟩ (min sz.size data.length) = 0) (turns : ℕ) :
    wp (processParts w aes sz c segno turns 0 data rc)
      (fun r z => z.Ok w ∧ UpToDate w z.server z.process.cache ∧
        walRanges w z.server = walRanges w x.server ∧
        ∃ parts, r.2.written = rc.written ++ parts ∧ ∀ p ∈ parts, p.data = [] ∧ p.bytes = [] ∧
          InSegment sz ⟨c.timeline, p.segno, p.offset⟩ 0)
      (fun _ _ => True) x := by
  have hsame : x.Ok w ∧ UpToDate w x.server x.process.cache ∧
      walRanges w x.server = walRanges w x.server ∧
      ∃ parts, rc.written = rc.written ++ parts ∧ ∀ p ∈ parts, p.data = [] ∧ p.bytes = [] ∧
        InSegment sz ⟨c.timeline, p.segno, p.offset⟩ 0 := ⟨h, hup, rfl, [], by simp⟩
  by_cases hdata : data = []
  · rw [hdata, processParts_nil]
    exact hsame
  cases turns with
  | zero => exact hsame
  | succ turns =>
      have hpos' : 0 < data.length := List.length_pos_of_ne_nil hdata
      have hsz := sz.pos
      have hdiv : rc.blockpos / sz.size = segno + 1 := by
        rw [hpos, Nat.mul_div_cancel _ hsz]
      rw [processParts, if_neg hdata]
      cases hopen : c.openWalfile (segno + 1) with
      | false =>
          have hf : rc.file sz c = none := by
            simp [Receiver.file, hwalfile, hdiv, hopen]
          rw [hf]
          exact hsame
      | true =>
          have hf : rc.file sz c = some ⟨segno + 1, 0⟩ := by
            simp [Receiver.file, hwalfile, hdiv, hopen]
          rw [hf]
          dsimp only
          generalize hcount : (if sz.size < 0 + data.length then sz.size - 0 else data.length) =
            count
          have hmin : count = min sz.size data.length := by
            rw [← hcount]
            split <;> omega
          have hlen : (data.take count).length = count := by
            rw [List.length_take]
            omega
          have hmul : (segno + 1) * sz.size = segno * sz.size + sz.size := by
            rw [Nat.add_mul, Nat.one_mul]
          have hseg : InSegment sz ⟨c.timeline, segno, 0⟩ (data.take count).length := by
            rw [hlen]
            exact ⟨htli, by dsimp only; omega, by dsimp only; omega⟩
          rw [wp_bind]
          refine (encryptPart_settled_spec h henc hset hle hseg).mono (fun bytes z hz => ?_)
            fun _ _ _ => trivial
          obtain ⟨hok, hkept, hupz⟩ := hz
          have hzero : min (c.write ⟨segno + 1, 0⟩ count) count = 0 := by
            rw [hmin, hno hdata hopen]
            omega
          rw [hzero, if_pos (by omega)]
          refine ⟨hok, hupz, (hkept.ranges h.shared.fileOk).1, _, rfl, ?_⟩
          intro p hp
          rw [List.mem_singleton.1 hp]
          exact ⟨rfl, rfl, htli, by dsimp only; omega, by dsimp only; omega⟩

/-- The loop, on a message that is not written to beyond its first segment. -/
theorem processParts_spec {start : ℕ} {data : List UInt8} {rc : Receiver} (h : x.Ok w)
    (henc : c.encrypt = true) (htli : 0 < c.timeline ∧ c.timeline < 2 ^ 32) (hstart : 0 < start)
    (hstop : start + data.length < 2 ^ 64) (hpos : rc.blockpos = start)
    (hsend : rc.stillSending = true)
    (hfile : ∀ f, rc.file sz c = some f → f = ⟨start / sz.size, start % sz.size⟩)
    (hcross : sz.size < start % sz.size + data.length → rc.file sz c ≠ none →
      sz.size - start % sz.size ≤
        c.write ⟨start / sz.size, start % sz.size⟩ (sz.size - start % sz.size) →
      c.closeWalfile (start / sz.size) = true →
      c.streamStop ((start / sz.size + 1) * sz.size) = false →
      c.openWalfile (start / sz.size + 1) = true →
      c.write ⟨start / sz.size + 1, 0⟩ (min sz.size (start % sz.size + data.length - sz.size)) = 0) :
    wp (processParts w aes sz c (start / sz.size) data.length (start % sz.size) data rc)
      (fun r y => PartsOk w aes sz c y (r.2.written.drop rc.written.length)) (fun _ _ => True)
      x := by
  obtain ⟨hsum, hoff⟩ := start_eq sz start
  generalize hs : start / sz.size = segno at *
  generalize ho : start % sz.size = off at *
  have hnone : ∀ y, PartsOk w aes sz c y (rc.written.drop rc.written.length) := by
    intro y p hp
    simp at hp
  by_cases hdata : data = []
  · subst hdata
    exact hnone x
  obtain ⟨turns, hturns⟩ : ∃ turns, data.length = turns + 1 :=
    Nat.exists_eq_succ_of_ne_zero (mt List.eq_nil_of_length_eq_zero hdata)
  rw [hturns, processParts, if_neg hdata]
  cases hf : rc.file sz c with
  | none => exact hnone x
  | some f =>
      have hfs := hfile f hf
      subst hfs
      dsimp only
      generalize hcount : (if sz.size < off + data.length then sz.size - off else data.length) =
        count
      have hcount' : 0 < count ∧ count ≤ data.length ∧ off + count ≤ sz.size := by
        split at hcount <;> omega
      have hlen : (data.take count).length = count := by
        rw [List.length_take]
        omega
      have hseg : InSegment sz ⟨c.timeline, segno, off⟩ (data.take count).length := by
        rw [hlen]
        exact ⟨htli.2, hcount'.2.2, by dsimp only; omega⟩
      have hlsn : ((⟨c.timeline, segno, off⟩ : SegPos).location sz).lsn = start := by
        have := hseg.lsn (n := 0) (by omega)
        simp only [SegPos.advance_zero] at this
        rw [this]
        omega
      have hloc : ProperStart ((⟨c.timeline, segno, off⟩ : SegPos).location sz) := by
        refine hseg.properStart ?_
        have h0 : c.timeline ≠ 0 := by omega
        have h1 : start ≠ 0 := by omega
        simp only [walLocationValid, hlsn, Bool.and_eq_true, decide_eq_true_eq]
        exact ⟨h0, h1⟩
      rw [wp_bind]
      refine (encryptPart_spec h henc hseg hloc).mono (fun bytes y hy => ?_) fun _ _ _ => trivial
      obtain ⟨hok, hup, hset, rfl⟩ := hy
      -- the first part is as the ranges want it, as long as the ranges stay
      have hfirst : ∀ {z : WalState} (n : ℕ), z.Ok w → UpToDate w z.server z.process.cache →
          walRanges w z.server = walRanges w y.server → ∀ parts : List WrittenPart,
          (∀ p ∈ parts, p.data = [] ∧ p.bytes = [] ∧
            InSegment sz ⟨c.timeline, p.segno, p.offset⟩ 0) →
          PartsOk w aes sz c z (⟨segno, off, (data.take count).take n,
            (coverBuffer aes sz (walRanges w y.server) ⟨c.timeline, segno, off⟩
              (data.take count)).take n⟩ :: parts) := by
        intro z n hz hzup hr parts hparts
        refine partsOk_of_cover hz hzup fun p hp => ?_
        obtain rfl | hp := List.mem_cons.1 hp
        · refine ⟨⟨hseg.timeline, ?_, ?_⟩, ?_⟩
          · have := hseg.segment
            simp only [List.length_take] at this ⊢
            omega
          · have := hseg.address
            simp only [List.length_take] at this ⊢
            omega
          · rw [hr, coverBuffer_take]
        · obtain ⟨hd, hb, hin⟩ := hparts p hp
          rw [hd, hb]
          exact ⟨hin, rfl⟩
      generalize hn : min (c.write ⟨segno, off⟩ count) count = n
      have hone : ∀ {z}, z = y → PartsOk w aes sz c z ((rc.wrote ⟨segno, off⟩ n (data.take count)
          (coverBuffer aes sz (walRanges w y.server) ⟨c.timeline, segno, off⟩
            (data.take count))).written.drop rc.written.length) := by
        rintro z rfl
        rw [Receiver.wrote, List.drop_left]
        exact hfirst n hok hup rfl [] (by simp)
      split
      · exact hone rfl
      next hall =>
        have hall : n = count := not_not.1 hall
        have hpos' : (rc.wrote ⟨segno, off⟩ n (data.take count) (coverBuffer aes sz
            (walRanges w y.server) ⟨c.timeline, segno, off⟩ (data.take count))).blockpos =
            start + count := by
          rw [Receiver.wrote, hpos, hall]
          exact Nat.mod_eq_of_lt (by omega)
        split
        · -- inside the segment: the message is at its end
          next hne =>
          have hdrop : data.drop count = [] := by
            apply List.drop_eq_nil_of_le
            by_contra hlt
            refine hne ?_
            rw [hpos', xLogSegmentOffset]
            have hfull : start + count = (segno + 1) * sz.size := by
              rw [Nat.add_mul, Nat.one_mul]
              split at hcount <;> omega
            rw [hfull, Nat.mul_mod_left]
          rw [hdrop, processParts_nil]
          exact hone rfl
        · next hzero =>
          split
          · exact hone rfl
          next hclose =>
            split
            · split <;> exact hone rfl
            next hsend' =>
              -- at the boundary: the message ends here or is not written to any further
              have hzero : (start + count) % sz.size = 0 := by
                rw [← hpos']
                exact not_not.1 hzero
              have hfull : off + count = sz.size := by
                rw [← hsum, Nat.add_assoc, Nat.mul_comm, Nat.mul_add_mod] at hzero
                by_contra hne
                rw [Nat.mod_eq_of_lt (by omega)] at hzero
                omega
              have hend : start + count = (segno + 1) * sz.size := by
                rw [Nat.add_mul, Nat.one_mul]
                omega
              have hrest : (data.drop count).length = data.length - count := List.length_drop
              have hle : (⟨c.timeline, segno, 0⟩ : SegPos).location sz ≤
                  (⟨c.timeline, segno, off⟩ : SegPos).location sz := by
                rw [WalLocation.le_iff, hlsn]
                refine .inr ⟨rfl, ?_⟩
                have hlow : ((⟨c.timeline, segno, 0⟩ : SegPos).location sz).lsn ≤
                    segno * sz.size + 0 := Nat.mod_le _ _
                omega
              have hstop' : c.streamStop ((segno + 1) * sz.size) = false := by
                rw [← hend, ← hpos']
                simpa [Receiver.wrote, hsend] using hsend'
              refine (processParts_next_spec hok hup henc htli.2 hset hle ?_ ?_ ?_
                (fun hne hopen => ?_) turns).mono (fun r z hz => ?_) fun _ _ _ => trivial
              · exact hpos'.trans hend
              · rfl
              · omega
              · have hlt : 0 < (data.drop count).length := List.length_pos_of_ne_nil hne
                have hsub : sz.size - off = count := by omega
                have hwrite := hcross (by omega) (by simp [hf]) (by rw [hsub]; omega)
                  (by simpa using hclose) hstop' hopen
                rw [← hwrite]
                congr 2
                omega
              · obtain ⟨hz, hzup, hr, parts, hparts, hempty⟩ := hz
                rw [hparts, Receiver.wrote, List.append_assoc, List.drop_left]
                exact hfirst n hz hzup hr parts hempty

/-- A message that is not written to beyond its first segment. -/
theorem processXLogDataMsg_spec {copybuf : List UInt8} {rc : Receiver}
    (hm : Streamed sz c copybuf rc) (h : x.Ok w) (hcross : ¬Crosses sz c copybuf rc) :
    wp (processXLogDataMsg w aes sz c copybuf rc)
      (fun r y => PartsOk w aes sz c y (r.2.written.drop rc.written.length)) (fun _ _ => True)
      x := by
  have hnone : PartsOk w aes sz c x (rc.written.drop rc.written.length) := by
    intro p hp
    simp at hp
  unfold processXLogDataMsg
  split
  · exact hnone
  next hsend =>
    have hsend : rc.stillSending = true := by simpa using hsend
    split
    · exact hnone
    dsimp only
    have hparts : ∀ rc' : Receiver, rc' = { rc with blockpos := dataStart copybuf } →
        (∀ f, rc'.file sz c = some f →
          f = ⟨dataStart copybuf / sz.size, dataStart copybuf % sz.size⟩) →
        (rc'.file sz c ≠ none → match rc.walfile with
          | none => dataStart copybuf % sz.size = 0 ∧
              c.openWalfile (dataStart copybuf / sz.size) = true
          | some f => f.currpos = dataStart copybuf % sz.size) →
        wp (processParts w aes sz c (dataStart copybuf / sz.size)
          (copybuf.drop xLogDataHdrLen).length (dataStart copybuf % sz.size)
          (copybuf.drop xLogDataHdrLen) rc')
          (fun r y => PartsOk w aes sz c y (r.2.written.drop rc.written.length))
          (fun _ _ => True) x := by
      rintro rc' rfl hfile hopen
      refine processParts_spec h hm.encrypt hm.timeline hm.start
        (by rw [List.length_drop]; exact hm.stop) rfl hsend hfile ?_
      intro h₁ h₂ h₃ h₄ h₅ h₆
      rw [List.length_drop] at h₁ ⊢
      by_contra hwrite
      exact hcross ⟨hsend, h₁, hopen h₂, h₃, h₄, h₅, h₆, Nat.pos_of_ne_zero hwrite⟩
    cases hw : rc.walfile with
    | none =>
        dsimp only
        split
        · exact hnone
        next hoff =>
          have hoff : dataStart copybuf % sz.size = 0 := not_not.1 hoff
          refine hparts _ (by rw [hw]) (fun f hf => ?_) fun hf => ?_
          · simp only [Receiver.file, Option.ite_none_right_eq_some, Option.some.injEq] at hf
            rw [← hf.2, hoff]
          · rw [hw]
            refine ⟨hoff, ?_⟩
            by_contra hopen
            exact hf (by simp [Receiver.file, hopen])
    | some f =>
        dsimp only
        split
        · exact hnone
        next hoff =>
          have hoff : f.currpos = dataStart copybuf % sz.size := not_not.1 hoff
          refine hparts _ (by rw [hw]) (fun f' hf => ?_) fun _ => ?_
          · simp only [Receiver.file, Option.some.injEq] at hf
            have hseg := hm.file f hw
            obtain ⟨segno, currpos⟩ := f
            dsimp only at hoff hseg
            rw [← hf, hoff, hseg]
          · rw [hw]
            exact hoff

end Parts

/-! ### A message that goes on in the next segment -/

section Crossing

variable {w : World} {aes : BlockCipher} {sz : WalSegSz} {x : WalState} {c : StreamCtl}
  {r : WalEncryptionRange} {data : List UInt8} {rc : Receiver}

/-- The process has one range in its list, the one it writes with. -/
structure OneRange (x : WalState) (r : WalEncryptionRange) : Prop where
  cache : x.process.cache = [r]
  start : r.start = x.encKey
  lsn : x.encKey.lsn ≠ 0

/-- Such a process encrypts without looking at the key file. -/
theorem OneRange.encryptPart_spec (h : OneRange x r) (henc : c.encrypt = true)
    (segno xlogoff : ℕ) :
    wp (encryptPart w aes sz c segno xlogoff data)
      (fun bytes y => y = x ∧
        bytes = cryptKeys aes sz ⟨c.timeline, segno, xlogoff⟩ true x.process.cache data)
      (fun _ _ => False) x := by
  have hlt : ¬walLocationCmp r.start x.encKey = .lt := by
    rw [walLocationCmp_lt, h.start]
    exact lt_irrefl _
  rw [encryptPart_eq henc]
  unfold ensureXlogKeyLocation xLogCryptBuffer refreshWalKeys fetchNewWalKeys
  simp [h.cache, h.lsn, hlt]

/-- A turn writes its part, and the turns after it keep that. -/
theorem OneRange.turn_spec (h : OneRange x r) (henc : c.encrypt = true)
    {segno turns xlogoff count : ℕ} {f : Walfile} (hdata : data ≠ [])
    (hf : rc.file sz c = some f)
    (hcount : (if sz.size < xlogoff + data.length then sz.size - xlogoff else data.length) = count)
    (ih : ∀ xlogoff data rc, wp (processParts w aes sz c segno turns xlogoff data rc)
      (fun res y => y = x ∧ rc.written <+: res.2.written) (fun _ _ => False) x) :
    wp (processParts w aes sz c segno (turns + 1) xlogoff data rc)
      (fun res y => y = x ∧
        (rc.wrote f (min (c.write f count) count) (data.take count)
          (cryptKeys aes sz ⟨c.timeline, segno, xlogoff⟩ true x.process.cache
            (data.take count))).written <+: res.2.written)
      (fun _ _ => False) x := by
  rw [processParts, if_neg hdata, hf]
  dsimp only
  rw [hcount, wp_bind]
  refine (h.encryptPart_spec henc segno xlogoff).mono (fun bytes y hy => ?_) fun _ _ he => he
  obtain ⟨rfl, rfl⟩ := hy
  split
  · exact ⟨rfl, List.prefix_rfl⟩
  split
  · exact ih _ _ _
  split
  · exact ⟨rfl, List.prefix_rfl⟩
  split
  · split <;> exact ⟨rfl, List.prefix_rfl⟩
  · exact ih _ _ _

/-- The loop ends, and keeps what was written before. -/
theorem OneRange.processParts_spec (h : OneRange x r) (henc : c.encrypt = true)
    (segno turns xlogoff : ℕ) (data : List UInt8) (rc : Receiver) :
    wp (processParts w aes sz c segno turns xlogoff data rc)
      (fun res y => y = x ∧ rc.written <+: res.2.written) (fun _ _ => False) x := by
  induction turns generalizing xlogoff data rc with
  | zero => exact ⟨rfl, List.prefix_rfl⟩
  | succ turns ih =>
      by_cases hdata : data = []
      · rw [hdata, processParts_nil]
        exact ⟨rfl, List.prefix_rfl⟩
      cases hf : rc.file sz c with
      | none =>
          rw [processParts, if_neg hdata, hf]
          exact ⟨rfl, List.prefix_rfl⟩
      | some f =>
          refine (h.turn_spec henc hdata hf rfl ih).mono (fun res y hy => ⟨hy.1, ?_⟩)
            fun _ _ he => he
          exact (List.prefix_append _ _).trans hy.2

/-- Two turns: one to the end of the segment and one into the next. -/
theorem OneRange.two_turns_spec (h : OneRange x r) (henc : c.encrypt = true) {segno off : ℕ}
    (hpos : rc.blockpos = segno * sz.size + off) (hoff : off < sz.size)
    (hbound : rc.blockpos + data.length < 2 ^ 64) (hf : rc.file sz c = some ⟨segno, off⟩)
    (hlen : sz.size < off + data.length)
    (hwrite : sz.size - off ≤ c.write ⟨segno, off⟩ (sz.size - off))
    (hclose : c.closeWalfile segno = true) (hstop : c.streamStop ((segno + 1) * sz.size) = false)
    (hopen : c.openWalfile (segno + 1) = true)
    (hnext : 0 < c.write ⟨segno + 1, 0⟩ (min sz.size (off + data.length - sz.size))) :
    wp (processParts w aes sz c segno data.length off data rc)
      (fun res y => y = x ∧ ∃ n part, 0 < n ∧ part ≠ [] ∧
        part.length ≤ sz.size ∧ (segno + 1) * sz.size + part.length < 2 ^ 64 ∧
        (⟨segno + 1, 0, part.take n, (cryptKeys aes sz ⟨c.timeline, segno, 0⟩ true
          x.process.cache part).take n⟩ : WrittenPart) ∈ res.2.written.drop rc.written.length)
      (fun _ _ => False) x := by
  have hsz := sz.pos
  have hmul : (segno + 1) * sz.size = segno * sz.size + sz.size := by rw [Nat.add_mul, Nat.one_mul]
  have hne : data ≠ [] := by
    rintro rfl
    simp only [List.length_nil] at hlen
    omega
  obtain ⟨turns, hturns⟩ : ∃ turns, data.length = turns + 1 + 1 :=
    ⟨data.length - 2, by omega⟩
  rw [hturns, processParts, if_neg hne, hf]
  dsimp only
  rw [if_pos hlen, wp_bind]
  generalize hcount : sz.size - off = count at *
  refine (h.encryptPart_spec henc segno off).mono (fun bytes y hy => ?_) fun _ _ he => he
  obtain ⟨rfl, rfl⟩ := hy
  have hmin : min (c.write ⟨segno, off⟩ count) count = count := by omega
  rw [hmin, if_neg (not_not.2 rfl)]
  have hblock : (rc.wrote ⟨segno, off⟩ count (data.take count) (cryptKeys aes sz
      ⟨c.timeline, segno, off⟩ true y.process.cache (data.take count))).blockpos =
      (segno + 1) * sz.size := by
    show (rc.blockpos + count) % 2 ^ 64 = _
    rw [Nat.mod_eq_of_lt (by omega)]
    omega
  have hzero : xLogSegmentOffset sz ((segno + 1) * sz.size) = 0 := Nat.mul_mod_left _ _
  rw [if_neg (by rw [hblock]; exact not_not.2 hzero), if_neg (by simp [hclose]),
    if_neg (by simp [hblock, hstop])]
  have hlen₂ : (data.drop count).length = off + data.length - sz.size := by
    rw [List.length_drop]
    omega
  have hne₂ : data.drop count ≠ [] := by
    intro hnil
    rw [hnil] at hlen₂
    simp only [List.length_nil] at hlen₂
    omega
  have hf₂ : Receiver.file sz c { (rc.wrote ⟨segno, off⟩ count (data.take count) (cryptKeys aes sz
      ⟨c.timeline, segno, off⟩ true y.process.cache (data.take count))) with walfile := none } =
      some ⟨segno + 1, 0⟩ := by
    simp only [Receiver.file, hblock, Nat.mul_div_cancel _ hsz, hopen, if_true]
  have hcount₂ : (if sz.size < 0 + (data.drop count).length then sz.size - 0
      else (data.drop count).length) = min sz.size (off + data.length - sz.size) := by
    rw [hlen₂]
    split <;> omega
  refine (h.turn_spec henc hne₂ hf₂ hcount₂ (h.processParts_spec henc segno turns)).mono
    (fun res z hz => ?_) fun _ _ he => he
  obtain ⟨rfl, hpre⟩ := hz
  refine ⟨rfl, min (c.write ⟨segno + 1, 0⟩ (min sz.size (off + data.length - sz.size)))
    (min sz.size (off + data.length - sz.size)), (data.drop count).take
      (min sz.size (off + data.length - sz.size)), by omega, ?_, ?_, ?_, ?_⟩
  · intro hnil
    have := congrArg List.length hnil
    rw [List.length_take, hlen₂, List.length_nil] at this
    omega
  · rw [List.length_take]
    omega
  · rw [List.length_take]
    omega
  · obtain ⟨l, hl⟩ := hpre
    rw [← hl, Receiver.wrote, Receiver.wrote]
    simp only [List.append_assoc, List.drop_left]
    simp

/-- A message that crosses the boundary leaves a part in the next segment that was encrypted as if
it stood at the beginning of the segment before. -/
theorem OneRange.crossing_spec {copybuf : List UInt8} (h : OneRange x r)
    (hm : Streamed sz c copybuf rc) (hcross : Crosses sz c copybuf rc) :
    wp (processXLogDataMsg w aes sz c copybuf rc)
      (fun res y => y = x ∧ ∃ n part, 0 < n ∧ part ≠ [] ∧
        part.length ≤ sz.size ∧
        (dataStart copybuf / sz.size + 1) * sz.size + part.length < 2 ^ 64 ∧
        (⟨dataStart copybuf / sz.size + 1, 0, part.take n,
          (cryptKeys aes sz ⟨c.timeline, dataStart copybuf / sz.size, 0⟩ true x.process.cache
            part).take n⟩ : WrittenPart) ∈ res.2.written.drop rc.written.length)
      (fun _ _ => False) x := by
  obtain ⟨hsend, hlen, hfile, hwrite, hclose, hstop, hopen, hnext⟩ := hcross
  obtain ⟨hsum, hoff⟩ := start_eq sz (dataStart copybuf)
  have hdlen : (copybuf.drop xLogDataHdrLen).length = copybuf.length - xLogDataHdrLen :=
    List.length_drop
  have hbound := hm.stop
  rw [← hdlen] at hlen hnext hbound
  have hxlogoff : xLogSegmentOffset sz (dataStart copybuf) = dataStart copybuf % sz.size := rfl
  unfold processXLogDataMsg
  rw [if_neg (by simp [hsend]), if_neg (by omega)]
  dsimp only
  rw [hxlogoff]
  cases hw : rc.walfile with
  | none =>
      rw [hw] at hfile
      dsimp only at hfile ⊢
      rw [if_neg (not_not.2 hfile.1)]
      refine h.two_turns_spec hm.encrypt hsum.symm hoff hbound ?_ hlen hwrite hclose hstop hopen hnext
      simp [Receiver.file, hfile.1, hfile.2]
  | some f =>
      rw [hw] at hfile
      dsimp only at hfile ⊢
      rw [if_neg (not_not.2 hfile)]
      refine h.two_turns_spec hm.encrypt hsum.symm hoff hbound ?_ hlen hwrite hclose hstop hopen hnext
      have hseg := hm.file f hw
      obtain ⟨segno, currpos⟩ := f
      dsimp only at hfile hseg
      simp [Receiver.file, hfile, hseg]

/-- A block cipher that tells the first block of a segment from all others. -/
def firstBlockCipher (tli segno : ℕ) (baseIv : List UInt8) : BlockCipher := fun _ block _ =>
  if block = counterBlock (calcXLogPageIVPrefix tli segno baseIv) 0 then 1 else 0

/-- With an encrypted range from the first position on, the first byte of the next segment is not
encrypted as it should be. -/
theorem OneRange.not_partsOk {copybuf : List UInt8} (h : OneRange x r)
    (hm : Streamed sz c copybuf rc) (hcross : Crosses sz c copybuf rc)
    (htype : r.type = .encrypted) (hstart : r.start = ⟨1, 1⟩) (hstop : r.stop = maxWalLocation) :
    ∃ aes res, processXLogDataMsg w aes sz c copybuf rc x = .ok res x ∧
      ¬PartsOk w aes sz c x (res.2.written.drop rc.written.length) := by
  have hspec : wp (processXLogDataMsg w (firstBlockCipher c.timeline
      (dataStart copybuf / sz.size + 1) r.key.baseIv) sz c copybuf rc) _ _ x :=
    h.crossing_spec hm hcross
  generalize dataStart copybuf / sz.size = segno at hspec
  refine ⟨firstBlockCipher c.timeline (segno + 1) r.key.baseIv, ?_⟩
  cases hrun : processXLogDataMsg w (firstBlockCipher c.timeline (segno + 1) r.key.baseIv) sz c
      copybuf rc x with
  | error e y => exact (hspec.of_error hrun).elim
  | ok res y =>
      obtain ⟨rfl, n, part, hn, hne, hlen, haddr, hmem⟩ := hspec.of_ok hrun
      refine ⟨res, rfl, fun hok => ?_⟩
      obtain ⟨b, rest, rfl⟩ := List.exists_cons_of_ne_nil hne
      obtain ⟨n, rfl⟩ := Nat.exists_eq_succ_of_ne_zero (Nat.pos_iff_ne_zero.1 hn)
      have hbytes := (hok _ hmem).1
      have hsz := sz.pos
      have hmul : (segno + 1) * sz.size = segno * sz.size + sz.size := by
        rw [Nat.add_mul, Nat.one_mul]
      have hr : ∀ r' ∈ [r], walLocationValid r'.start = true → r'.start ≤ r'.stop := by
        simp [hstart, hstop, WalLocation.le_iff, maxWalLocation]
      have hseg₁ : InSegment sz ⟨c.timeline, segno, 0⟩ (b :: rest).length :=
        ⟨hm.timeline.2, by dsimp only; omega, by dsimp only; omega⟩
      have hlen' : ((b :: rest).take (n + 1)).length ≤ (b :: rest).length := by
        rw [List.length_take]
        omega
      have hseg₂ : InSegment sz ⟨c.timeline, segno + 1, 0⟩ ((b :: rest).take (n + 1)).length :=
        ⟨hm.timeline.2, by dsimp only; omega, by dsimp only; omega⟩
      rw [h.cache, cryptKeys_eq hseg₁ true hr, cryptKeys_eq hseg₂ true hr] at hbytes
      have hbyte : cryptByte (firstBlockCipher c.timeline (segno + 1) r.key.baseIv) sz true [r]
          ⟨c.timeline, segno, 0⟩ b = cryptByte (firstBlockCipher c.timeline (segno + 1)
            r.key.baseIv) sz true [r] ⟨c.timeline, segno + 1, 0⟩ b := by
        simpa [SegPos.advance] using congrArg List.head? hbytes
      -- the stale counter block gives 0, the right one 1
      have hsmall : segno + 1 < 2 ^ 64 := by
        have : segno + 1 ≤ (segno + 1) * sz.size := Nat.le_mul_of_pos_right _ hsz
        omega
      have hold : r.stream (firstBlockCipher c.timeline (segno + 1) r.key.baseIv)
          ⟨c.timeline, segno, 0⟩ = 0 := by
        simp only [WalEncryptionRange.stream, keystreamByte, firstBlockCipher, Nat.zero_div]
        exact if_neg (counterBlock_succ_ne c.timeline hsmall r.key.baseIv 0)
      have hnew : r.stream (firstBlockCipher c.timeline (segno + 1) r.key.baseIv)
          ⟨c.timeline, segno + 1, 0⟩ = 1 := by
        simp only [WalEncryptionRange.stream, keystreamByte, firstBlockCipher, Nat.zero_div,
          if_true]
      have hcovers : r.Covers ((⟨c.timeline, segno + 1, 0⟩ : SegPos).location sz) := by
        have hlsn : ((⟨c.timeline, segno + 1, 0⟩ : SegPos).location sz).lsn =
            (segno + 1) * sz.size + 0 := by
          apply Nat.mod_eq_of_lt
          dsimp only
          omega
        have htli := hm.timeline
        refine ⟨by rw [hstart]; rfl, htype, ?_, ?_⟩
        · rw [hstart, WalLocation.le_iff, hlsn]
          dsimp only [SegPos.location]
          omega
        · rw [hstop, WalLocation.lt_iff, hlsn]
          dsimp only [SegPos.location, maxWalLocation]
          simp only [List.length_cons] at haddr
          omega
      have hxor : ∀ b : UInt8, b ≠ b ^^^ 1 := by
        intro b hb
        have h : b ^^^ b = b ^^^ (b ^^^ 1) := congrArg (b ^^^ ·) hb
        rw [← UInt8.xor_assoc, UInt8.xor_self, UInt8.zero_xor] at h
        exact absurd h (by decide)
      simp only [cryptByte, List.foldl_cons, List.foldl_nil, if_pos hcovers, hold, hnew, if_true,
        UInt8.xor_zero, ite_self] at hbyte
      exact hxor b hbyte

end Crossing

/-! ### The condition is exact -/

/-- The sample server after a byte was written at the first position there is: what a process sees
that has read it. -/
def sampleWalReader : WalState :=
  let y := walRun sampleWorld (fun _ _ _ => 1) sampleSegSz (sampleWalRun ⟨1, 0, 1⟩) sampleSystem
  y.view ((y.procs 1).getD .initial)

theorem sampleWalReader_ok : sampleWalReader.Ok sampleWorld := by
  have hseg : InSegment sampleSegSz ⟨1, 0, 1⟩ 1 := ⟨by decide, by decide, by decide⟩
  have hrun : WalSystem.Ok sampleWorld (fun _ _ _ => 1) sampleSegSz (walRun sampleWorld
      (fun _ _ _ => 1) sampleSegSz (sampleWalRun ⟨1, 0, 1⟩) sampleSystem) := by
    refine walRun_ok (sampleWalRun ⟨1, 0, 1⟩) ?_ sampleSystem_fresh.ok
    simp only [sampleWalRun, List.forall_mem_cons]
    exact ⟨trivial, trivial, ⟨hseg, by decide⟩, hseg, by simp⟩
  obtain ⟨p, hp⟩ : ∃ p, (walRun sampleWorld (fun _ _ _ => 1) sampleSegSz (sampleWalRun ⟨1, 0, 1⟩)
      sampleSystem).procs 1 = some p := Option.isSome_iff_exists.1 (by decide +kernel)
  rw [sampleWalReader, hp]
  exact hrun.running 1 p hp

theorem sampleWalReader_oneRange : ∃ r, OneRange sampleWalReader r ∧ r.type = .encrypted ∧
    r.start = ⟨1, 1⟩ ∧ r.stop = maxWalLocation := by
  have hcache : sampleWalReader.process.cache.map (fun r => (r.type, r.start, r.stop)) =
      [(.encrypted, ⟨1, 1⟩, maxWalLocation)] := by decide +kernel
  have hkey : sampleWalReader.encKey = ⟨1, 1⟩ := by decide +kernel
  obtain ⟨r, hr, hfields⟩ := List.map_eq_singleton_iff.1 hcache
  simp only [Prod.mk.injEq] at hfields
  refine ⟨r, ⟨hr, ?_, ?_⟩, hfields.1, hfields.2.1, hfields.2.2⟩
  · rw [hkey, hfields.2.1]
  · rw [hkey]
    decide

/-- A message of a stream is encrypted as the key file says, whatever the key file says, if and only
if nothing of it is written beyond the segment it starts in. -/
theorem streamed_wal_encryption (sz : WalSegSz) (c : StreamCtl) (copybuf : List UInt8)
    (rc : Receiver) (hm : Streamed sz c copybuf rc) :
    (∀ w aes x, x.Ok w → ∀ res y, processXLogDataMsg w aes sz c copybuf rc x = .ok res y →
      PartsOk w aes sz c y (res.2.written.drop rc.written.length)) ↔ ¬Crosses sz c copybuf rc := by
  refine ⟨fun h hcross => ?_, fun hcross w aes x hx res y hrun => ?_⟩
  · obtain ⟨r, hone, htype, hstart, hstop⟩ := sampleWalReader_oneRange
    obtain ⟨aes, res, hrun, hnot⟩ :=
      hone.not_partsOk (w := sampleWorld) hm hcross htype hstart hstop
    exact hnot (h sampleWorld aes sampleWalReader sampleWalReader_ok res sampleWalReader hrun)
  · have hspec : wp (processXLogDataMsg w aes sz c copybuf rc) _ _ x :=
      processXLogDataMsg_spec hm hx hcross
    exact hspec.of_ok hrun

/-- A stream of the first timeline in which nothing fails. -/
def sampleStream : StreamCtl where
  timeline := 1
  encrypt := true
  openWalfile _ := true
  write _ count := count
  closeWalfile _ := true
  streamStop _ := false
  putCopyEnd := true

/-- Two bytes of WAL from the position `start` on. -/
def sampleMessage (start : ℕ) : List UInt8 :=
  119 :: beBytes 8 start ++ List.replicate 16 0 ++ [7, 7]

/-- The first segment is open at `currpos`. -/
def sampleReceiver (currpos : ℕ) : Receiver := ⟨some ⟨1, currpos⟩, true, 0, []⟩

theorem streamed_wal_encryption_sample :
    Streamed sampleSegSz sampleStream (sampleMessage (2 ^ 20 + 16)) (sampleReceiver 16) ∧
    ∀ w aes x, x.Ok w → ∀ res y, processXLogDataMsg w aes sampleSegSz sampleStream
      (sampleMessage (2 ^ 20 + 16)) (sampleReceiver 16) x = .ok res y →
      PartsOk w aes sampleSegSz sampleStream y res.2.written := by
  have hm : Streamed sampleSegSz sampleStream (sampleMessage (2 ^ 20 + 16)) (sampleReceiver 16) :=
    ⟨rfl, by decide, by decide +kernel, by decide +kernel, by decide +kernel⟩
  refine ⟨hm, (streamed_wal_encryption _ _ _ _ hm).2 fun hcross => ?_⟩
  exact absurd hcross.2.1 (by decide +kernel)

/-- Two bytes, one of which is the last of its segment: the other one is encrypted with the counter
block of the beginning of that segment. -/
theorem streamed_wal_encryption_fails_across_segments :
    Streamed sampleSegSz sampleStream (sampleMessage (2 ^ 21 - 1)) (sampleReceiver (2 ^ 20 - 1)) ∧
    sampleWalReader.Ok sampleWorld ∧
    ∃ aes res, processXLogDataMsg sampleWorld aes sampleSegSz sampleStream
      (sampleMessage (2 ^ 21 - 1)) (sampleReceiver (2 ^ 20 - 1)) sampleWalReader =
        .ok res sampleWalReader ∧
      ¬PartsOk sampleWorld aes sampleSegSz sampleStream sampleWalReader res.2.written := by
  have hm : Streamed sampleSegSz sampleStream (sampleMessage (2 ^ 21 - 1))
      (sampleReceiver (2 ^ 20 - 1)) :=
    ⟨rfl, by decide, by decide +kernel, by decide +kernel, by decide +kernel⟩
  have hcross : Crosses sampleSegSz sampleStream (sampleMessage (2 ^ 21 - 1))
      (sampleReceiver (2 ^ 20 - 1)) :=
    ⟨rfl, by decide +kernel,
      show 2 ^ 20 - 1 = dataStart (sampleMessage (2 ^ 21 - 1)) % sampleSegSz.size by decide +kernel,
      by decide +kernel, rfl, rfl, rfl, by decide +kernel⟩
  obtain ⟨r, hone, htype, hstart, hstop⟩ := sampleWalReader_oneRange
  exact ⟨hm, sampleWalReader_ok, hone.not_partsOk hm hcross htype hstart hstop⟩

end OpenPgTde
