import OpenPgTde.KeyMap.Migration
import OpenPgTde.PrincipalKey.Lifecycle
import OpenPgTde.Xlog.Process

/-!
Runs of a server that writes and reads encrypted WAL.

A system is the server with its shared memory, the processes with their own memory, and the WAL on
disk. Starts, children, writes and reads follow each other in any order. The history of a run says
what was written and read and when a range was given its start; from it alone one can say which byte
a read should see. What ties the disk to the history is that a byte on disk is the byte that was
written last, as the range that is in force at its place makes it.
-/

namespace OpenPgTde

open Lib.Effect Lib.Breakpoints

/-! ### Histories -/

inductive WalEvent
  /-- The last range was given its start. -/
  | located (loc : WalLocation)
  | wrote (a : SegPos) (buf : List UInt8)
  | returned (a : SegPos) (buf : List UInt8)
  deriving DecidableEq

/-- The byte that a buffer at `a` has for the place `p`. -/
def byteAt (a : SegPos) (buf : List UInt8) (p : SegPos) : Option UInt8 :=
  if p.tli = a.tli ∧ p.segno = a.segno ∧ a.offset ≤ p.offset then buf[p.offset - a.offset]?
  else none

/-- The byte of the last write to `p`, unless a range was given a start at or before `p` since. -/
def expected (sz : WalSegSz) (trace : List WalEvent) (p : SegPos) : Option UInt8 :=
  trace.foldl (fun old e => match e with
    | .located loc => if loc ≤ p.location sz then none else old
    | .wrote a buf => (byteAt a buf p).or old
    | .returned _ _ => old) none

/-- Every byte that was read and that was to be expected was the expected one. -/
def ReadsOk (sz : WalSegSz) (trace : List WalEvent) : Prop :=
  ∀ before a buf rest, trace = before ++ .returned a buf :: rest →
    ∀ i c b, buf[i]? = some c → expected sz before (a.advance i) = some b → c = b

/-! ### Systems -/

structure WalSystem where
  server : Server
  encKey : WalLocation
  /-- The processes by number; 0 is the postmaster. -/
  procs : ℕ → Option WalProcess
  disk : SegPos → UInt8
  trace : List WalEvent

inductive WalOp
  /-- The postmaster starts; a soft start is one after the crash of a child, and keeps the memory of
  the postmaster. -/
  | start (r : Restart) (soft encryptXlog : Bool) (keyLen : ℕ)
  /-- A child that inherits the memory of its parent. -/
  | fork (parent child : ℕ)
  /-- A child that does not (`EXEC_BACKEND`). -/
  | execChild (child : ℕ) (encryptXlog : Bool) (keyLen : ℕ)
  | write (pid : ℕ) (a : SegPos) (crashRecovery : Bool) (buf : List UInt8)
  | read (pid : ℕ) (a : SegPos) (count : ℕ)

/-- What a process sees. -/
def WalSystem.view (y : WalSystem) (p : WalProcess) : WalState := ⟨y.server, y.encKey, p⟩

/-- What a process leaves. -/
def WalSystem.put (y : WalSystem) (pid : ℕ) (x : WalState) : WalSystem :=
  { y with
    server := x.server, encKey := x.encKey
    procs := Function.update y.procs pid (some x.process) }

/-- The start that the last range was given between two states of the key file. -/
def startGiven (s t : Server) : List WalEvent :=
  let start (s : Server) := (walEntries s).getLast?.map (·.rangeStart)
  if start s = start t then [] else (start t).toList.map .located

def WalSystem.start (w : World) (r : Restart) (soft encryptXlog : Bool) (keyLen : ℕ)
    (y : WalSystem) : WalSystem :=
  let p := if soft then (y.procs 0).getD .initial else .initial
  let y' := { y with
    server := r.start y.server, encKey := invalidWalLocation, procs := fun _ => none }
  match xLogSmgrInitWrite w encryptXlog keyLen false (y'.view p) with
  | .ok _ x => y'.put 0 x
  | .error _ x => { y' with server := x.server }

def WalSystem.fork (parent child : ℕ) (y : WalSystem) : WalSystem :=
  match y.procs parent with
  | none => y
  | some p => { y with procs := Function.update y.procs child (some p) }

def WalSystem.execChild (w : World) (child : ℕ) (encryptXlog : Bool) (keyLen : ℕ) (y : WalSystem) :
    WalSystem :=
  if y.procs 0 = none then y
  else match xLogSmgrInitWrite w encryptXlog keyLen true (y.view .initial) with
    | .ok _ x => y.put child x
    | .error _ x => { y with server := x.server, procs := Function.update y.procs child none }

def WalSystem.write (w : World) (aes : BlockCipher) (sz : WalSegSz) (pid : ℕ) (a : SegPos)
    (crashRecovery : Bool) (buf : List UInt8) (y : WalSystem) : WalSystem :=
  match y.procs pid with
  | none => y
  | some p =>
    match tdeheapXlogSegWrite w aes sz a crashRecovery buf (y.view p) with
    | .ok bytes x => { y.put pid x with
        disk := fun p => (byteAt a bytes p).getD (y.disk p)
        trace := y.trace ++ startGiven y.server x.server ++ [.wrote a buf] }
    | .error _ x => { y.put pid x with trace := y.trace ++ startGiven y.server x.server }

def WalSystem.read (w : World) (aes : BlockCipher) (sz : WalSegSz) (pid : ℕ) (a : SegPos)
    (count : ℕ) (y : WalSystem) : WalSystem :=
  match y.procs pid with
  | none => y
  | some p =>
    let buf := (List.range count).map fun i => y.disk (a.advance i)
    match tdeheapXlogSegRead w aes sz a buf (y.view p) with
    | .ok bytes x => { y.put pid x with trace := y.trace ++ [.returned a bytes] }
    | .error _ x => y.put pid x

def WalOp.exec (w : World) (aes : BlockCipher) (sz : WalSegSz) (y : WalSystem) : WalOp → WalSystem
  | start r soft encryptXlog keyLen => y.start w r soft encryptXlog keyLen
  | fork parent child => y.fork parent child
  | execChild child encryptXlog keyLen => y.execChild w child encryptXlog keyLen
  | write pid a crashRecovery buf => y.write w aes sz pid a crashRecovery buf
  | read pid a count => y.read w aes sz pid a count

def walRun (w : World) (aes : BlockCipher) (sz : WalSegSz) (ops : List WalOp) (y : WalSystem) :
    WalSystem :=
  ops.foldl (WalOp.exec w aes sz) y

/-- A server that has never encrypted WAL and is not running. -/
structure WalSystem.Fresh (w : World) (y : WalSystem) : Prop where
  consistent : Consistent w y.server
  entries : walEntries y.server = []
  procs : ∀ pid, y.procs pid = none
  trace : y.trace = []

/-- The place of the buffer is in one segment, and, for a write, not the one that stands for no
location. -/
def WalOp.InPlace (sz : WalSegSz) : WalOp → Prop
  | write _ a _ buf => InSegment sz a buf.length ∧ walLocationValid (a.location sz) = true
  | read _ a count => InSegment sz a count
  | _ => True

/-! ### What histories say -/

section Histories

variable {sz : WalSegSz} {trace : List WalEvent} {a p : SegPos} {buf : List UInt8}

@[simp] theorem expected_nil : expected sz [] p = none := rfl

theorem expected_located (loc : WalLocation) :
    expected sz (trace ++ [.located loc]) p =
      if loc ≤ p.location sz then none else expected sz trace p := by
  rw [expected, List.foldl_append]
  rfl

theorem expected_wrote :
    expected sz (trace ++ [.wrote a buf]) p = (byteAt a buf p).or (expected sz trace p) := by
  rw [expected, List.foldl_append]
  rfl

theorem expected_returned :
    expected sz (trace ++ [.returned a buf]) p = expected sz trace p := by
  rw [expected, List.foldl_append]
  rfl

theorem readsOk_nil : ReadsOk sz [] := by
  intro before a buf rest h
  simp at h

/-- An event that is not a read is no obligation. -/
theorem ReadsOk.concat {e : WalEvent} (h : ReadsOk sz trace)
    (he : ∀ a buf, e = .returned a buf →
      ∀ i c b, buf[i]? = some c → expected sz trace (a.advance i) = some b → c = b) :
    ReadsOk sz (trace ++ [e]) := by
  intro before a buf rest htrace
  induction rest using List.reverseRecOn with
  | nil =>
      obtain ⟨rfl, hlast⟩ := List.append_inj' htrace rfl
      exact he a buf (by simpa using hlast)
  | append_singleton rest e' _ =>
      rw [← List.cons_append, ← List.append_assoc] at htrace
      obtain ⟨rfl, -⟩ := List.append_inj' htrace rfl
      exact h before a buf rest rfl

theorem byteAt_advance (i : ℕ) : byteAt a buf (a.advance i) = buf[i]? := by
  simp [byteAt, SegPos.advance]

/-- The places that a buffer has a byte for. -/
theorem exists_advance_of_byteAt {b : UInt8} (h : byteAt a buf p = some b) :
    ∃ i < buf.length, p = a.advance i ∧ buf[i]? = some b := by
  unfold byteAt at h
  split at h
  · next hp =>
      obtain ⟨htli, hseg, hoff⟩ := hp
      refine ⟨p.offset - a.offset, (List.getElem?_eq_some_iff.1 h).1, ?_, h⟩
      obtain ⟨tli, segno, offset⟩ := p
      simp only [SegPos.advance, SegPos.mk.injEq]
      exact ⟨htli, hseg, by dsimp only at hoff ⊢; omega⟩
  · cases h

end Histories

/-! ### The invariant of a run -/

variable {w : World} {aes : BlockCipher} {sz : WalSegSz} {y : WalSystem} {s t : Server}
  {encKey encKey' : WalLocation}

/-- A byte on disk is the expected byte, as the range in force makes it. -/
def DiskOk (aes : BlockCipher) (sz : WalSegSz) (ranges : List WalEncryptionRange)
    (disk : SegPos → UInt8) (trace : List WalEvent) : Prop :=
  ∀ p b, expected sz trace p = some b → disk p = coverByte aes sz ranges p b

/-- The key file, shared memory and the processes of a system fit together. -/
structure WalSystem.Formed (w : World) (y : WalSystem) : Prop where
  fileOk : WalFileOk w y.server
  increasing : Increasing (·.start) (walRanges w y.server)
  running : ∀ pid p, y.procs pid = some p → (y.view p).Ok w

structure WalSystem.Ok (w : World) (aes : BlockCipher) (sz : WalSegSz) (y : WalSystem) : Prop
    extends y.Formed w where
  settled : ∀ l ∈ (walStarts y.server).getLast?, KeySettled l
  disk : DiskOk aes sz (walRanges w y.server) y.disk y.trace
  reads : ReadsOk sz y.trace

theorem WalSystem.Fresh.formed (h : y.Fresh w) : y.Formed w where
  fileOk := by
    refine ⟨h.consistent, ?_, ?_, ?_⟩ <;> simp [h.entries]
  increasing := by
    rw [walRanges_of_nil h.entries]
    exact List.Pairwise.nil
  running pid p hp := by
    rw [h.procs] at hp
    cases hp

theorem WalSystem.Fresh.ok (h : y.Fresh w) : y.Ok w aes sz where
  toFormed := h.formed
  settled l hl := by
    rw [walStarts, h.entries] at hl
    cases hl
  disk p b hb := by
    rw [h.trace] at hb
    cases hb
  reads := by
    rw [h.trace]
    exact readsOk_nil

/-- Disk and history have no part in it. -/
theorem WalSystem.Formed.congr {y' : WalSystem} (h : y.Formed w) (hs : y'.server = y.server)
    (he : y'.encKey = y.encKey) (hp : y'.procs = y.procs) : y'.Formed w := by
  refine ⟨by rw [hs]; exact h.fileOk, by rw [hs]; exact h.increasing, fun pid p hpid => ?_⟩
  rw [hp] at hpid
  rw [WalSystem.view, hs, he]
  exact h.running pid p hpid

/-- What one process does to the shared state concerns the others as far as `WalStep` says. -/
theorem WalSystem.Formed.stepped {x : WalState} {p : WalProcess} (h : y.Formed w)
    (hx : Stepped w (y.view p) x) (pid : ℕ) : (y.put pid x).Formed w := by
  obtain ⟨hok, hstep⟩ := hx
  refine ⟨hok.shared.fileOk, hok.shared.increasing, fun pid' p' hp' => ?_⟩
  by_cases hpid : pid' = pid
  · subst hpid
    simp only [WalSystem.put, Function.update_self, Option.some.injEq] at hp'
    subst hp'
    exact hok
  · simp only [WalSystem.put, Function.update_of_ne hpid] at hp'
    have hother := h.running pid' p' hp'
    exact ⟨hother.shared.step hstep, hother.process.step hother.shared hstep⟩

theorem WalSystem.Ok.keySettled {pid : ℕ} {p : WalProcess} (h : y.Ok w aes sz)
    (hp : y.procs pid = some p) : KeySettled y.encKey := by
  have hshared := (h.running pid p hp).shared
  cases hl : lastRange w y.server with
  | none =>
      have hnone : y.encKey = invalidWalLocation := hshared.none hl
      rw [hnone]
      exact fun hlsn => absurd rfl hlsn
  | some r =>
      have hlast : r.start = y.encKey := hshared.last r hl
      rw [← hlast]
      refine h.settled r.start ?_
      rw [h.fileOk.getLast?_walStarts, hl]
      rfl

/-- The event of a step: none, or the start that was given. -/
theorem WalStep.startGiven_eq (h : WalStep w s encKey t encKey') (hs : SharedOk w s encKey)
    (hm : encKey' = encKey ∨ walLocationValid encKey' = true) :
    startGiven s t = [] ∧ walRanges w t = walRanges w s ∨
      startGiven s t = [.located encKey'] ∧
        ∃ r, walRanges w t = walRanges w s ++ [r] ∧ r.start = encKey' := by
  have hlast : ∀ {s r}, WalFileOk w s → lastRange w s = some r →
      (walEntries s).getLast?.map (·.rangeStart) = some r.start := by
    intro s r hs hr
    rw [← List.getLast?_map]
    exact hs.getLast?_walStarts.trans (by rw [hr]; rfl)
  cases h with
  | kept hk he =>
      left
      refine ⟨?_, (hk.ranges hs.fileOk).1⟩
      simp [startGiven, hk.entries]
  | located r h₁ h₂ h₃ h₄ h₅ h₆ h₇ =>
      have hold := hs.last r h₂
      obtain rfl | hvalid := hm
      · -- the location that stands for none was given again
        have hnot : ¬walLocationValid encKey' = true := fun hv => lsn_ne_zero hv h₁
        left
        rw [withStart, if_neg hnot] at h₆
        refine ⟨?_, h₆⟩
        simp [startGiven, hlast hs.fileOk h₂, hlast h₅ h₇, hold]
      · right
        rw [withStart, if_pos hvalid] at h₆
        refine ⟨?_, _, h₆, rfl⟩
        have hne : encKey ≠ encKey' := by
          rintro rfl
          exact lsn_ne_zero hvalid h₁
        simp [startGiven, hlast hs.fileOk h₂, hlast h₅ h₇, hold, hne]

/-- After a start was given, what is still expected is not affected by it. -/
theorem DiskOk.startGiven {disk : SegPos → UInt8} {trace : List WalEvent}
    (h : DiskOk aes sz (walRanges w s) disk trace) (hst : WalStep w s encKey t encKey')
    (hs : SharedOk w s encKey) (hm : encKey' = encKey ∨ walLocationValid encKey' = true) :
    DiskOk aes sz (walRanges w t) disk (trace ++ startGiven s t) := by
  obtain ⟨hev, hr⟩ | ⟨hev, r, hr, hstart⟩ := hst.startGiven_eq hs hm
  · rw [hev, hr, List.append_nil]
    exact h
  · intro p b hb
    rw [hev, expected_located] at hb
    split at hb
    · cases hb
    · next hlt =>
        rw [h p b hb, hr]
        unfold coverByte
        rw [cover_concat, if_neg (by rwa [hstart])]

theorem DiskOk.wrote {ranges : List WalEncryptionRange} {disk : SegPos → UInt8}
    {trace : List WalEvent} {a : SegPos} {buf : List UInt8} (h : DiskOk aes sz ranges disk trace) :
    DiskOk aes sz ranges (fun p => (byteAt a (coverBuffer aes sz ranges a buf) p).getD (disk p))
      (trace ++ [.wrote a buf]) := by
  have hbyte : ∀ p, byteAt a (coverBuffer aes sz ranges a buf) p =
      (byteAt a buf p).map (coverByte aes sz ranges p) := by
    intro p
    by_cases hp : p.tli = a.tli ∧ p.segno = a.segno ∧ a.offset ≤ p.offset
    · have hadv : a.advance (p.offset - a.offset) = p := by
        obtain ⟨tli, segno, offset⟩ := p
        obtain ⟨rfl, rfl, hoff⟩ := hp
        simp only [SegPos.advance, SegPos.mk.injEq, true_and]
        dsimp only at hoff
        omega
      simp only [byteAt, if_pos hp, coverBuffer, List.getElem?_mapIdx, hadv]
    · simp [byteAt, hp]
  intro p b hb
  rw [expected_wrote] at hb
  dsimp only
  rw [hbyte]
  cases hp : byteAt a buf p with
  | none =>
      rw [hp] at hb
      exact h p b hb
  | some c =>
      rw [hp] at hb
      cases hb
      rfl

theorem ReadsOk.startGiven {trace : List WalEvent} (h : ReadsOk sz trace) (s t : Server) :
    ReadsOk sz (trace ++ startGiven s t) := by
  unfold OpenPgTde.startGiven
  dsimp only
  split
  · simpa using h
  · cases (walEntries t).getLast?.map (·.rangeStart) with
    | none => simpa using h
    | some loc => exact h.concat fun a buf he => by cases he

theorem InSegment.properStart {a : SegPos} {n : ℕ} (h : InSegment sz a n)
    (hvalid : walLocationValid (a.location sz) = true) : ProperStart (a.location sz) := by
  refine ⟨hvalid, ?_⟩
  have htli := h.timeline
  have haddr := h.address
  have hlsn : (a.location sz).lsn = a.segno * sz.size + a.offset := h.lsn (n := 0) (by omega)
  have htli' : (a.location sz).tli = a.tli := rfl
  rw [WalLocation.le_iff, hlsn, htli']
  simp only [maxWalLocation]
  omega

/-! ### Steps and runs -/

theorem WalSystem.Ok.write {a : SegPos} {buf : List UInt8} (h : y.Ok w aes sz) (pid : ℕ)
    (crashRecovery : Bool) (hseg : InSegment sz a buf.length)
    (hvalid : walLocationValid (a.location sz) = true) :
    (y.write w aes sz pid a crashRecovery buf).Ok w aes sz := by
  unfold WalSystem.write
  cases hp : y.procs pid with
  | none => exact h
  | some p =>
      have hok := h.running pid p hp
      have hkey := h.keySettled hp
      have hspec : wp (tdeheapXlogSegWrite w aes sz a crashRecovery buf) _ _ (y.view p) :=
        tdeheapXlogSegWrite_spec hok hkey hseg (hseg.properStart hvalid) crashRecovery
      have hset : ∀ {x : WalState}, x.Ok w → KeyMoved (y.view p) x →
          ∀ l ∈ (walStarts x.server).getLast?, KeySettled l := by
        intro x hx hm l hl
        rw [hx.shared.fileOk.getLast?_walStarts] at hl
        obtain ⟨r, hr, rfl⟩ := Option.map_eq_some_iff.1 hl
        rw [hx.shared.last r hr]
        exact hkey.moved hm
      dsimp only
      cases hrun : tdeheapXlogSegWrite w aes sz a crashRecovery buf (y.view p) with
      | ok bytes x =>
          obtain ⟨⟨hx, hm⟩, rfl⟩ := hspec.of_ok hrun
          refine ⟨(h.stepped hx pid).congr rfl rfl rfl, hset hx.1 hm, ?_, ?_⟩
          · exact (h.disk.startGiven hx.2 hok.shared hm).wrote
          · exact (h.reads.startGiven _ _).concat fun _ _ he => by cases he
      | error e x =>
          obtain ⟨hx, hm⟩ := hspec.of_error hrun
          exact ⟨(h.stepped hx pid).congr rfl rfl rfl, hset hx.1 hm,
            h.disk.startGiven hx.2 hok.shared hm, h.reads.startGiven _ _⟩

theorem Refreshed.stepped {x z : WalState} (h : Refreshed w x z) : Stepped w x z :=
  ⟨h.1, .kept h.2.1 h.2.2.1⟩

theorem WalSystem.Ok.read {a : SegPos} {count : ℕ} (h : y.Ok w aes sz) (pid : ℕ)
    (hseg : InSegment sz a count) : (y.read w aes sz pid a count).Ok w aes sz := by
  unfold WalSystem.read
  cases hp : y.procs pid with
  | none => exact h
  | some p =>
      have hok := h.running pid p hp
      dsimp only
      generalize hbuf : (List.range count).map (fun i => y.disk (a.advance i)) = buf
      have hlen : buf.length = count := by simp [← hbuf]
      have hspec : wp (tdeheapXlogSegRead w aes sz a buf) _ _ (y.view p) :=
        tdeheapXlogSegRead_spec hok (by rwa [hlen])
      cases hrun : tdeheapXlogSegRead w aes sz a buf (y.view p) with
      | ok bytes x =>
          obtain ⟨hx, rfl⟩ := hspec.of_ok hrun
          have hr : walRanges w x.server = walRanges w y.server :=
            (hx.2.1.ranges hok.shared.fileOk).1
          refine ⟨(h.stepped hx.stepped pid).congr rfl rfl rfl, hx.2.1.starts ▸ h.settled,
            fun p' b hb => ?_, h.reads.concat fun a' buf' he => ?_⟩
          · dsimp only [WalSystem.put] at hb ⊢
            rw [expected_returned] at hb
            rw [hr]
            exact h.disk p' b hb
          · cases he
            intro i c b hc hb
            -- the byte on disk is the expected one, crypted; reading crypts it again
            rw [coverBuffer, List.getElem?_mapIdx] at hc
            obtain ⟨d, hd, rfl⟩ := Option.map_eq_some_iff.1 hc
            have hdisk : d = y.disk (a.advance i) := by
              rw [← hbuf, List.getElem?_map] at hd
              obtain ⟨j, hj, rfl⟩ := Option.map_eq_some_iff.1 hd
              rw [(List.getElem?_eq_some_iff.1 hj).2.symm, List.getElem_range]
            rw [hdisk, h.disk _ b hb]
            exact coverByte_coverByte b
      | error e x =>
          have hx := hspec.of_error hrun
          refine ⟨h.stepped hx.stepped pid, hx.2.1.starts ▸ h.settled, ?_, h.reads⟩
          have hr : walRanges w x.server = walRanges w y.server :=
            (hx.2.1.ranges hok.shared.fileOk).1
          show DiskOk aes sz (walRanges w x.server) y.disk y.trace
          rw [hr]
          exact h.disk

/-- A restart keeps the files. -/
theorem Restart.walKept (r : Restart) (hs : WalFileOk w s) : WalKept w s (r.start s) := by
  have hcons : Consistent w (r.start s) :=
    ⟨fun scope => (hs.consistent.scopes scope).uncached (fun _ => rfl) (fun _ => rfl)
      (fun _ => rfl) rfl, hs.consistent.providers, hs.consistent.databases⟩
  exact ⟨⟨hcons, hs.stamped, hs.starts, hs.last⟩, rfl, fun _ hk => hk⟩

/-- A start of the server, whether it succeeds or not. -/
theorem WalSystem.Formed.start (h : y.Formed w) (r : Restart) (soft encryptXlog : Bool)
    (keyLen : ℕ) : (y.start w r soft encryptXlog keyLen).Formed w ∧
      FileStarted w y.server (y.start w r soft encryptXlog keyLen).server := by
  have hkept := Restart.walKept r h.fileOk
  obtain ⟨hranges, hlast⟩ := hkept.ranges h.fileOk
  -- the memory the postmaster starts with
  generalize hp : (if soft then (y.procs 0).getD .initial else .initial) = p
  have hnone : lastRange w (r.start y.server) = none → p.current.type = .invalid := by
    intro hn
    rw [hlast] at hn
    cases soft with
    | false =>
        subst hp
        rfl
    | true =>
        cases hp0 : y.procs 0 with
        | none =>
            rw [hp0] at hp
            subst hp
            rfl
        | some p0 =>
            rw [hp0] at hp
            subst hp
            exact (h.running 0 p0 hp0).process.none hn
  have hspec := xLogSmgrInitWrite_spec (x := ⟨r.start y.server, invalidWalLocation, p⟩)
    hkept.fileOk (by rw [hranges]; exact h.increasing) rfl hnone encryptXlog keyLen
  have hback : ∀ {u}, FileStarted w (r.start y.server) u → FileStarted w y.server u := fun hu =>
    ⟨hu.1, hu.2.1.trans hranges, by rw [← hkept.starts]; exact hu.2.2⟩
  have hinc : ∀ {u}, FileStarted w y.server u → Increasing (·.start) (walRanges w u) := by
    intro u hu
    rw [hu.2.1]
    exact h.increasing
  unfold WalSystem.start WalSystem.view
  dsimp only
  rw [hp]
  cases hrun : xLogSmgrInitWrite w encryptXlog keyLen false
      ⟨r.start y.server, invalidWalLocation, p⟩ with
  | ok a x =>
      obtain ⟨hok, hstarted⟩ := hspec.of_ok hrun
      refine ⟨⟨hstarted.1, hinc (hback hstarted), fun pid p' hp' => ?_⟩, hback hstarted⟩
      by_cases hpid : pid = 0
      · subst hpid
        simp only [WalSystem.put, Function.update_self, Option.some.injEq] at hp'
        subst hp'
        exact hok
      · simp [WalSystem.put, Function.update_of_ne hpid] at hp'
  | error e x =>
      have hstarted := hspec.of_error hrun
      exact ⟨⟨hstarted.1, hinc (hback hstarted), fun pid p' hp' => (by cases hp')⟩,
        hback hstarted⟩

theorem WalSystem.start_disk (r : Restart) (soft encryptXlog : Bool) (keyLen : ℕ) :
    (y.start w r soft encryptXlog keyLen).disk = y.disk ∧
      (y.start w r soft encryptXlog keyLen).trace = y.trace := by
  unfold WalSystem.start
  dsimp only
  split <;> exact ⟨rfl, rfl⟩

theorem WalSystem.Ok.start (h : y.Ok w aes sz) (r : Restart) (soft encryptXlog : Bool)
    (keyLen : ℕ) : (y.start w r soft encryptXlog keyLen).Ok w aes sz := by
  obtain ⟨hformed, -, hranges, hstarts⟩ := h.toFormed.start r soft encryptXlog keyLen
  obtain ⟨hdisk, htrace⟩ := WalSystem.start_disk (w := w) (y := y) r soft encryptXlog keyLen
  refine ⟨hformed, fun l hl => ?_, ?_, by rw [htrace]; exact h.reads⟩
  · obtain heq | heq := hstarts
    · rw [heq] at hl
      exact h.settled l hl
    · -- the new range has no start
      rw [heq] at hl
      obtain rfl : invalidWalLocation = l := by simpa using hl
      exact fun hlsn => absurd rfl hlsn
  · rw [hranges, hdisk, htrace]
    exact h.disk

theorem WalSystem.Formed.fork (h : y.Formed w) (parent child : ℕ) :
    (y.fork parent child).Formed w ∧ (y.fork parent child).server = y.server := by
  unfold WalSystem.fork
  cases hp : y.procs parent with
  | none => exact ⟨h, rfl⟩
  | some p =>
      refine ⟨⟨h.fileOk, h.increasing, fun pid' p' hp' => ?_⟩, rfl⟩
      by_cases hpid : pid' = child
      · subst hpid
        simp only [Function.update_self, Option.some.injEq] at hp'
        subst hp'
        exact h.running parent p hp
      · simp only [Function.update_of_ne hpid] at hp'
        exact h.running pid' p' hp'

theorem WalSystem.fork_disk (parent child : ℕ) :
    (y.fork parent child).disk = y.disk ∧ (y.fork parent child).trace = y.trace := by
  unfold WalSystem.fork
  split <;> exact ⟨rfl, rfl⟩

theorem WalSystem.Formed.execChild (h : y.Formed w) (child : ℕ) (encryptXlog : Bool)
    (keyLen : ℕ) : (y.execChild w child encryptXlog keyLen).Formed w ∧
      WalKept w y.server (y.execChild w child encryptXlog keyLen).server := by
  unfold WalSystem.execChild
  split
  · exact ⟨h, .refl h.fileOk⟩
  · next h0 =>
      obtain ⟨p, hp⟩ := Option.ne_none_iff_exists'.1 h0
      have hshared := (h.running 0 p hp).shared
      have hspec := xLogSmgrInitWrite_child_spec (x := y.view .initial) hshared rfl encryptXlog
        keyLen
      have hother : ∀ {u pid' p'}, WalKept w y.server u → y.procs pid' = some p' →
          WalState.Ok w ⟨u, y.encKey, p'⟩ := fun hu hp' =>
        (h.running _ _ hp').keptServer hu
      cases hrun : xLogSmgrInitWrite w encryptXlog keyLen true (y.view .initial) with
      | ok a x =>
          obtain ⟨hok, hkept, hkey⟩ := hspec.of_ok hrun
          refine ⟨⟨hok.shared.fileOk, hok.shared.increasing, fun pid' p' hp' => ?_⟩, hkept⟩
          by_cases hpid : pid' = child
          · subst hpid
            simp only [WalSystem.put, Function.update_self, Option.some.injEq] at hp'
            subst hp'
            exact hok
          · simp only [WalSystem.put, Function.update_of_ne hpid] at hp'
            have := hother hkept hp'
            rw [show y.encKey = x.encKey from hkey.symm] at this
            exact this
      | error e x =>
          obtain ⟨hkept, hkey⟩ := hspec.of_error hrun
          have hfirst := hother hkept hp
          refine ⟨⟨hkept.fileOk, hfirst.shared.increasing, fun pid' p' hp' => ?_⟩, hkept⟩
          by_cases hpid : pid' = child
          · subst hpid
            simp at hp'
          · simp only [Function.update_of_ne hpid] at hp'
            exact hother hkept hp'

theorem WalSystem.execChild_disk (child : ℕ) (encryptXlog : Bool) (keyLen : ℕ) :
    (y.execChild w child encryptXlog keyLen).disk = y.disk ∧
      (y.execChild w child encryptXlog keyLen).trace = y.trace := by
  unfold WalSystem.execChild
  split
  · exact ⟨rfl, rfl⟩
  · split <;> exact ⟨rfl, rfl⟩

/-- A step that keeps the file and has no part in the WAL. -/
theorem WalSystem.Ok.kept {y' : WalSystem} (h : y.Ok w aes sz) (hf : y'.Formed w)
    (hk : WalKept w y.server y'.server) (hd : y'.disk = y.disk ∧ y'.trace = y.trace) :
    y'.Ok w aes sz := by
  refine ⟨hf, hk.starts ▸ h.settled, ?_, by rw [hd.2]; exact h.reads⟩
  rw [(hk.ranges h.fileOk).1, hd.1, hd.2]
  exact h.disk

theorem WalOp.exec_ok (op : WalOp) (hop : op.InPlace sz) (h : y.Ok w aes sz) :
    (op.exec w aes sz y).Ok w aes sz := by
  cases op with
  | start r soft encryptXlog keyLen => exact h.start r soft encryptXlog keyLen
  | fork parent child =>
      obtain ⟨hformed, hserver⟩ := h.toFormed.fork parent child
      exact h.kept hformed (hserver.symm ▸ .refl h.fileOk) (WalSystem.fork_disk parent child)
  | execChild child encryptXlog keyLen =>
      obtain ⟨hformed, hkept⟩ := h.toFormed.execChild child encryptXlog keyLen
      exact h.kept hformed hkept (WalSystem.execChild_disk child encryptXlog keyLen)
  | write pid a crashRecovery buf => exact h.write pid crashRecovery hop.1 hop.2
  | read pid a count => exact h.read pid hop

theorem walRun_ok (ops : List WalOp) (hops : ∀ op ∈ ops, op.InPlace sz) (h : y.Ok w aes sz) :
    (walRun w aes sz ops y).Ok w aes sz := by
  induction ops generalizing y with
  | nil => exact h
  | cons op ops ih =>
      exact ih (fun op' hop' => hops op' (List.mem_cons_of_mem op hop'))
        (op.exec_ok (hops op List.mem_cons_self) h)

/-- Read after write. In every run of starts, children, writes and reads at places that have a
location, a byte that is read is the byte of the last write to its place, unless a range was given a
start at or before that place in between. -/
theorem wal_read_after_write (w : World) (aes : BlockCipher) (sz : WalSegSz) (y : WalSystem)
    (hy : y.Fresh w) (ops : List WalOp) (hops : ∀ op ∈ ops, op.InPlace sz) :
    ReadsOk sz (walRun w aes sz ops y).trace :=
  (walRun_ok ops hops hy.ok).reads

/-- A server with a server key, not running. -/
def sampleSystem : WalSystem where
  server := sampleWalServer
  encKey := invalidWalLocation
  procs _ := none
  disk _ := 0
  trace := []

theorem sampleSystem_fresh : sampleSystem.Fresh sampleWorld where
  consistent := LifecycleOp.exec_consistent (.setServerKeyUsingGlobalKeyProvider (sampleCall [65]))
    sampleServer_fresh.consistent
  entries := by decide +kernel
  procs _ := rfl
  trace := rfl

/-- Segments of 1 MB. -/
def sampleSegSz : WalSegSz := ⟨2 ^ 20, 20, by decide, rfl⟩

/-- The server starts with encryption, its first process writes a byte, and a child that was there
before the write reads it. -/
def sampleWalRun (a : SegPos) : List WalOp :=
  [.start (sampleRestart fun _ => true) false true 16, .fork 0 1, .write 0 a false [7], .read 1 a 1]

theorem wal_read_after_write_sample :
    (walRun sampleWorld (fun _ _ _ => 1) sampleSegSz (sampleWalRun ⟨1, 1, 16⟩) sampleSystem).trace =
      [.located ⟨2 ^ 20 + 16, 1⟩, .wrote ⟨1, 1, 16⟩ [7], .returned ⟨1, 1, 16⟩ [7]] ∧
    ReadsOk sampleSegSz
      (walRun sampleWorld (fun _ _ _ => 1) sampleSegSz (sampleWalRun ⟨1, 1, 16⟩)
        sampleSystem).trace := by
  have hseg : InSegment sampleSegSz ⟨1, 1, 16⟩ 1 := ⟨by decide, by decide, by decide⟩
  refine ⟨by decide +kernel, wal_read_after_write sampleWorld _ sampleSegSz sampleSystem
    sampleSystem_fresh (sampleWalRun ⟨1, 1, 16⟩) ?_⟩
  simp only [sampleWalRun, List.forall_mem_cons]
  exact ⟨trivial, trivial, ⟨hseg, by decide⟩, hseg, by simp⟩

/-- At the first byte of the first segment there is no location: the range gets a start that counts
as none, and what is written there encrypted is read back as it lies on disk. The same happens at
the last byte that 64 bits can number, where the end of the buffer is position 0. -/
theorem wal_read_after_write_fails_at_the_ends :
    sampleSystem.Fresh sampleWorld ∧
    ¬ReadsOk sampleSegSz
      (walRun sampleWorld (fun _ _ _ => 1) sampleSegSz (sampleWalRun ⟨1, 0, 0⟩)
        sampleSystem).trace ∧
    ¬ReadsOk sampleSegSz
      (walRun sampleWorld (fun _ _ _ => 1) sampleSegSz (sampleWalRun ⟨1, 2 ^ 44 - 1, 2 ^ 20 - 1⟩)
        sampleSystem).trace := by
  refine ⟨sampleSystem_fresh, fun h => ?_, fun h => ?_⟩
  · have hrun : (walRun sampleWorld (fun _ _ _ => 1) sampleSegSz (sampleWalRun ⟨1, 0, 0⟩)
        sampleSystem).trace = [.located ⟨0, 1⟩, .wrote ⟨1, 0, 0⟩ [7]] ++
          .returned ⟨1, 0, 0⟩ [6] :: [] := by decide +kernel
    exact absurd (h _ _ _ _ hrun 0 6 7 rfl (by decide +kernel)) (by decide)
  · have hrun : (walRun sampleWorld (fun _ _ _ => 1) sampleSegSz
        (sampleWalRun ⟨1, 2 ^ 44 - 1, 2 ^ 20 - 1⟩) sampleSystem).trace =
          [.located ⟨2 ^ 64 - 1, 1⟩, .wrote ⟨1, 2 ^ 44 - 1, 2 ^ 20 - 1⟩ [7]] ++
            .returned ⟨1, 2 ^ 44 - 1, 2 ^ 20 - 1⟩ [6] :: [] := by decide +kernel
    exact absurd (h _ _ _ _ hrun 0 6 7 rfl (by decide +kernel)) (by decide)

end OpenPgTde
