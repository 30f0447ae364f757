import OpenPgTde.Smgr.Runs

/-!
Asynchronous reads (`tde_mdstartreadv` and `tde_readv_complete` of `smgr/open_pg_tde_smgr.c`).

A read is started by one process and completed by whichever process notices that it is done. The key
travels through a slot in shared memory that belongs to the I/O handle: the start puts it there, the
completion decrypts the pages with it and wipes the slot. The result comes from `md.c`, is looked at
by the completion of this storage manager, and then by the buffer manager, which takes every block
that was read for valid unless the result is an error.

The completion decrypts only if the read was done in full. A read that was cut short leaves the
pages in front as they came from disk, and the buffer manager accepts them. A start that fails after
the key is in the slot leaves it there, since no completion follows.
-/

namespace OpenPgTde

open Lib.Effect

variable {w : World} {c : PageCipher}

/-! ### Results -/

/-- `PgAioResultStatus`. -/
inductive PgAioResultStatus
  | rsUnknown
  | rsOk
  | rsPartial
  | rsWarning
  | rsError
  deriving DecidableEq, Repr

/-- A result, with the number of blocks that were read. -/
structure PgAioResult where
  status : PgAioResultStatus
  result : ℤ
  deriving DecidableEq, Repr

/-- What the buffer manager takes for valid: block `i` of the read, if the read is no error and got
that far. -/
def PgAioResult.Accepts (r : PgAioResult) (i : ℕ) : Prop := r.status ≠ .rsError ∧ (i : ℤ) < r.result

/-! ### State -/

/-- A read that is under way. `begun` is the state in which it was started. -/
structure AioRead where
  begun : SmgrState
  rel : RelFileLocatorBackend
  forkNum : ForkNumber
  blockNum : ℕ
  /-- Whether the callback of this storage manager was registered. -/
  registered : Bool

/-- A read that is done: what came from disk, what the result was, and what is in the buffers. -/
structure Completion where
  read : AioRead
  prior : PgAioResult
  disk : List Page
  buffers : List Page

structure AioState where
  smgr : SmgrState
  /-- The handles that are in use. -/
  handles : ℕ → Option AioRead
  /-- `tde_io_handle_keys`; a slot that was wiped holds no key. -/
  ioHandleKeys : ℕ → Option InternalKey

/-! ### The routines -/

/-- What is in a slot that was wiped. -/
def wipedKey : InternalKey :=
  ⟨.aes128, List.replicate 16 0, List.replicate 16 0, List.length_replicate⟩

/-- `tde_readv_complete`: the buffers and the slot afterwards. -/
def tdeReadvComplete (c : PageCipher) (slot : Option InternalKey) (forkNum : ForkNumber)
    (blockNum : ℕ) (prior : PgAioResult) (buffers : List Page) : List Page × Option InternalKey :=
  if prior.status ≠ .rsOk then (buffers, none)
  else
    (buffers.mapIdx fun i page =>
      if prior.result ≤ i then page
      else tdeDecryptSmgrBlock c (slot.getD wipedKey) forkNum (blockNum + i) page, none)

/-- `tde_mdstartreadv` by process `p` on an idle handle. If `mdstartreadv` raises an error the
handle is released. -/
def tdeMdstartreadv (w : World) (p h : ℕ) (rel : RelFileLocatorBackend) (forkNum : ForkNumber)
    (blockNum : ℕ) (mdFails : Bool) (a : AioState) : AioState :=
  match tdeSmgrResolveEncryptionStatus w p rel a.smgr with
  | .error _ y => { a with smgr := y }
  | .ok status y =>
    let keys := match status with
      | .encrypted k => Function.update a.ioHandleKeys h (some k)
      | _ => a.ioHandleKeys
    let registered := match status with
      | .encrypted _ => true
      | _ => false
    let handles := if mdFails then a.handles
      else Function.update a.handles h (some ⟨a.smgr, rel, forkNum, blockNum, registered⟩)
    ⟨y, handles, keys⟩

/-- The completion of a read, by whichever process. -/
def completeReadv (c : PageCipher) (h : ℕ) (read : AioRead) (prior : PgAioResult) (disk : List Page)
    (a : AioState) : AioState × Completion :=
  let done := if read.registered then
      tdeReadvComplete c (a.ioHandleKeys h) read.forkNum read.blockNum prior disk
    else (disk, a.ioHandleKeys h)
  (⟨a.smgr, Function.update a.handles h none, Function.update a.ioHandleKeys h done.2⟩,
    ⟨read, prior, disk, done.1⟩)

/-! ### Runs -/

inductive AioStep
  /-- A process does something else with the storage manager. -/
  | smgr (p : ℕ) (op : SmgrOp)
  | start (p h : ℕ) (rel : RelFileLocatorBackend) (forkNum : ForkNumber) (blockNum : ℕ)
      (mdFails : Bool)
  /-- A read is done: with this result of `md.c`, and these pages in the buffers. -/
  | complete (h : ℕ) (prior : PgAioResult) (disk : List Page)

/-- The state, the operations of the storage manager so far, and the completions so far. -/
structure AioRun where
  state : AioState
  history : List SmgrOp
  log : List Completion

/-- One step. A handle that is in use is not handed out, and one that is not has nothing to
complete. -/
def aioStep (w : World) (c : PageCipher) (r : AioRun) : AioStep → AioRun
  | .smgr p op =>
    let r' := smgrStep w c ⟨r.state.smgr, r.history⟩ (p, op)
    ⟨{ r.state with smgr := r'.state }, r'.history, r.log⟩
  | .start p h rel forkNum blockNum mdFails =>
    match r.state.handles h with
    | some _ => r
    | none => { r with state := tdeMdstartreadv w p h rel forkNum blockNum mdFails r.state }
  | .complete h prior disk =>
    match r.state.handles h with
    | none => r
    | some read =>
      let done := completeReadv c h read prior disk r.state
      { r with state := done.1, log := r.log ++ [done.2] }

def aioRun (w : World) (c : PageCipher) (steps : List AioStep) (a : AioState) : AioRun :=
  steps.foldl (aioStep w c) ⟨a, [], []⟩

/-- A step as a use of a relation; to start a read is one. -/
def AioStep.use : AioStep → Option (ℕ × SmgrOp)
  | smgr p op => some (p, op)
  | start p _ rel forkNum blockNum _ => some (p, .readv rel forkNum blockNum 0)
  | complete .. => none

/-- What it takes for a step not to go wrong. The completion of a read of an encrypted relation has
a result that is plainly good or an error, or nothing was read at all; and a start does not fail
once it has put a key into the slot. -/
def AioStep.Fine (w : World) (a : AioState) : AioStep → Prop
  | smgr _ _ => True
  | start _ _ rel _ _ mdFails => mdFails = true → relKeyOf w a.smgr rel = none
  | complete h prior _ => ∀ read, a.handles h = some read → read.registered = true →
    prior.status = .rsOk ∨ prior.status = .rsError ∨ prior.result ≤ 0

/-- The blocks that the buffer manager accepts have been decrypted, under the key that their
relation had when the read was started, and with their own fork and block number. -/
def Completion.Decrypted (w : World) (c : PageCipher) (d : Completion) : Prop :=
  d.buffers.length = d.disk.length ∧ ∀ i page, d.disk[i]? = some page → d.prior.Accepts i →
    d.buffers[i]? = some (readPage c (relKeyOf w d.read.begun d.read.rel) d.read.forkNum
      (d.read.blockNum + i) page)

/-- Nothing is under way, and nothing in the slots. -/
structure AioFresh (w : World) (a : AioState) : Prop where
  smgr : SmgrFresh w a.smgr
  handles : ∀ h, a.handles h = none
  ioHandleKeys : ∀ h, a.ioHandleKeys h = none

/-! ### The invariant -/

/-- The slot of a read that is under way holds the key of its relation, and the callback that will
use it is registered; if there is no key the slot is empty. -/
structure SlotOk (w : World) (read : AioRead) (slot : Option InternalKey) : Prop where
  key : slot = relKeyOf w read.begun read.rel
  registered : read.registered = slot.isSome

structure AioOk (w : World) (c : PageCipher) (steps : List AioStep) (r : AioRun) : Prop where
  runOk : RunOk w c (steps.filterMap AioStep.use) ⟨r.state.smgr, r.history⟩
  slots : ∀ h read, r.state.handles h = some read → SlotOk w read (r.state.ioHandleKeys h)
  idle : ∀ h, r.state.handles h = none → r.state.ioHandleKeys h = none
  log : ∀ d ∈ r.log, d.Decrypted w c

variable {a : AioState} {steps : List AioStep} {r : AioRun}

/-- Process `p` has looked for the key of a relation. As a step of the storage manager that is a
read of no blocks. -/
theorem Resolved.runOk {ops : List (ℕ × SmgrOp)} {x y : SmgrState} {history : List SmgrOp} {p : ℕ}
    {rel : RelFileLocatorBackend} {forkNum : ForkNumber} {bn : ℕ} (h : Resolved w p rel x y)
    (ho : Own p rel) (hr : RunOk w c ops ⟨x, history⟩) :
    RunOk w c (ops ++ [(p, .readv rel forkNum bn 0)]) ⟨y, history⟩ := by
  have h' : Resolved w p (SmgrOp.readv rel forkNum bn 0).rel x y := h
  exact (h'.stepOn hr ho rfl fun _ _ => rfl).runOk (.inr rfl) hr

/-! ### One step -/

/-- What a start on an idle handle does, if it does not go wrong: it looks for the key, and then
fails, or puts the key into the slot and registers the read. -/
theorem tdeMdstartreadv_cases {p : ℕ} {rel : RelFileLocatorBackend} {mdFails : Bool}
    (hx : KeysOk w a.smgr.server) (ho : Own p rel) (hs : StatusOk w a.smgr p rel) (h : ℕ)
    (hslot : a.ioHandleKeys h = none) (hfine : mdFails = true → relKeyOf w a.smgr rel = none)
    (forkNum : ForkNumber) (blockNum : ℕ) :
    ∃ y, Resolved w p rel a.smgr y ∧
      (tdeMdstartreadv w p h rel forkNum blockNum mdFails a = { a with smgr := y } ∨
        tdeMdstartreadv w p h rel forkNum blockNum mdFails a =
          ⟨y, Function.update a.handles h (some ⟨a.smgr, rel, forkNum, blockNum,
              (relKeyOf w a.smgr rel).isSome⟩),
            Function.update a.ioHandleKeys h (relKeyOf w a.smgr rel)⟩) := by
  have hspec := tdeSmgrResolveEncryptionStatus_spec hx ho hs
  unfold tdeMdstartreadv
  cases hres : tdeSmgrResolveEncryptionStatus w p rel a.smgr with
  | error e y => exact ⟨y, (hspec.of_error hres).1, .inl rfl⟩
  | ok status y =>
      obtain ⟨hy, rfl⟩ := hspec.of_ok hres
      refine ⟨y, hy, ?_⟩
      cases hkey : relKeyOf w a.smgr rel with
      | none =>
          have hsame : Function.update a.ioHandleKeys h none = a.ioHandleKeys := by
            rw [← hslot, Function.update_eq_self]
          rw [hsame]
          cases mdFails with
          | true => exact .inl rfl
          | false => exact .inr rfl
      | some k =>
          cases mdFails with
          | true =>
              have hnone := hfine rfl
              rw [hkey] at hnone
              cases hnone
          | false => exact .inr rfl

theorem AioOk.start {p h : ℕ} {rel : RelFileLocatorBackend} {mdFails : Bool}
    (hr : AioOk w c steps r) (ho : Own p rel) (hidle : r.state.handles h = none)
    (hfine : mdFails = true → relKeyOf w r.state.smgr rel = none) (forkNum : ForkNumber)
    (blockNum : ℕ) :
    AioOk w c (steps ++ [AioStep.start p h rel forkNum blockNum mdFails])
      { r with state := tdeMdstartreadv w p h rel forkNum blockNum mdFails r.state } := by
  obtain ⟨y, hy, heq⟩ := tdeMdstartreadv_cases hr.runOk.keysOk ho (hr.runOk.statusOk p rel ho) h
    (hr.idle h hidle) hfine forkNum blockNum
  have hrun : RunOk w c ((steps ++ [AioStep.start p h rel forkNum blockNum mdFails]).filterMap
      AioStep.use) ⟨y, r.history⟩ := by
    rw [List.filterMap_append]
    exact hy.runOk ho hr.runOk
  obtain heq | heq := heq
  · rw [heq]
    exact ⟨hrun, hr.slots, hr.idle, hr.log⟩
  · rw [heq]
    refine ⟨hrun, fun h' read hread => ?_, fun h' hh' => ?_, hr.log⟩
    · show SlotOk w read (Function.update r.state.ioHandleKeys h _ h')
      by_cases hh : h' = h
      · subst hh
        simp only [Function.update_self, Option.some.injEq] at hread
        rw [Function.update_self, ← hread]
        exact ⟨rfl, rfl⟩
      · rw [Function.update_of_ne hh]
        exact hr.slots h' read (by simpa [hh] using hread)
    · show Function.update r.state.ioHandleKeys h _ h' = none
      by_cases hh : h' = h
      · subst hh
        simp at hh'
      · rw [Function.update_of_ne hh]
        exact hr.idle h' (by simpa [hh] using hh')

/-- The buffers after the callback, for a result that is not one of the bad ones. -/
theorem tdeReadvComplete_decrypted {k : InternalKey} {forkNum : ForkNumber} {blockNum : ℕ}
    {prior : PgAioResult} {disk : List Page}
    (hfine : prior.status = .rsOk ∨ prior.status = .rsError ∨ prior.result ≤ 0) :
    (tdeReadvComplete c (some k) forkNum blockNum prior disk).2 = none ∧
      (tdeReadvComplete c (some k) forkNum blockNum prior disk).1.length = disk.length ∧
      ∀ i page, disk[i]? = some page → prior.Accepts i →
        (tdeReadvComplete c (some k) forkNum blockNum prior disk).1[i]? =
          some (tdeDecryptSmgrBlock c k forkNum (blockNum + i) page) := by
  unfold tdeReadvComplete
  by_cases hok : prior.status = .rsOk
  · simp only [hok, ne_eq, not_true_eq_false, if_false, Option.getD_some]
    refine ⟨trivial, by simp, fun i page hi hacc => ?_⟩
    have hlt : ¬prior.result ≤ i := by
      have := hacc.2
      omega
    simp [hi, hlt]
  · simp only [ne_eq, hok, not_false_eq_true, if_true, true_and]
    intro i page _ hacc
    exfalso
    obtain h | h | h := hfine
    · exact hok h
    · exact hacc.1 h
    · have := hacc.2
      omega

theorem AioOk.complete {h : ℕ} {read : AioRead} {prior : PgAioResult} {disk : List Page}
    (hr : AioOk w c steps r) (hread : r.state.handles h = some read)
    (hfine : read.registered = true →
      prior.status = .rsOk ∨ prior.status = .rsError ∨ prior.result ≤ 0) :
    AioOk w c (steps ++ [AioStep.complete h prior disk])
      { r with
        state := (completeReadv c h read prior disk r.state).1
        log := r.log ++ [(completeReadv c h read prior disk r.state).2] } := by
  have hslot := hr.slots h read hread
  have hrun : RunOk w c ((steps ++ [AioStep.complete h prior disk]).filterMap AioStep.use)
      ⟨r.state.smgr, r.history⟩ := by
    rw [List.filterMap_append]
    show RunOk w c (_ ++ []) _
    rw [List.append_nil]
    exact hr.runOk
  -- the slot of the handle is empty afterwards, and the read is as it should be
  have hdone : (completeReadv c h read prior disk r.state).1.ioHandleKeys h = none ∧
      (completeReadv c h read prior disk r.state).2.Decrypted w c := by
    unfold completeReadv Completion.Decrypted
    cases hkey : relKeyOf w read.begun read.rel with
    | none =>
        have hnone : r.state.ioHandleKeys h = none := hslot.key.trans hkey
        have hreg : read.registered = false := by rw [hslot.registered, hnone]; rfl
        simp only [hreg, Bool.false_eq_true, if_false, Function.update_self, hnone, true_and]
        exact fun i page hi _ => hi
    | some k =>
        have hsome : r.state.ioHandleKeys h = some k := hslot.key.trans hkey
        have hreg : read.registered = true := by rw [hslot.registered, hsome]; rfl
        simp only [hreg, if_true, Function.update_self, hsome]
        exact tdeReadvComplete_decrypted (hfine hreg)
  refine ⟨hrun, fun h' read' hread' => ?_, fun h' hh' => ?_, fun d hd => ?_⟩
  · have hh : h' ≠ h := by
      rintro rfl
      simp [completeReadv] at hread'
    have hold := hr.slots h' read' (by simpa [completeReadv, hh] using hread')
    show SlotOk w read' (Function.update r.state.ioHandleKeys h _ h')
    rwa [Function.update_of_ne hh]
  · by_cases hh : h' = h
    · rw [hh]
      exact hdone.1
    · show Function.update r.state.ioHandleKeys h _ h' = none
      rw [Function.update_of_ne hh]
      exact hr.idle h' (by simpa [completeReadv, hh] using hh')
  · obtain hd | hd := List.mem_append.1 hd
    · exact hr.log d hd
    · rw [List.mem_singleton.1 hd]
      exact hdone.2

/-! ### Runs -/

theorem AioOk.smgr {p : ℕ} {op : SmgrOp} (hr : AioOk w c steps r) (ho : Own p op.rel)
    (hcreate : ∀ mode relold, op = .create mode relold op.rel .main →
      Unused w r.state.smgr op.rel) :
    AioOk w c (steps ++ [AioStep.smgr p op]) (aioStep w c r (.smgr p op)) := by
  have hrun : RunOk w c ((steps ++ [AioStep.smgr p op]).filterMap AioStep.use)
      (smgrStep w c ⟨r.state.smgr, r.history⟩ (p, op)) := by
    rw [List.filterMap_append]
    exact hr.runOk.step ho hcreate
  exact ⟨hrun, hr.slots, hr.idle, hr.log⟩

theorem AioFresh.aioOk (h : AioFresh w a) : AioOk w c [] ⟨a, [], []⟩ :=
  ⟨h.smgr.runOk, fun h' read hread => absurd hread (by rw [h.handles]; simp),
    fun h' _ => h.ioHandleKeys h', by simp⟩

/-- Every step of the run is fine in the state it is taken in. -/
def AllFine (w : World) (c : PageCipher) (steps : List AioStep) (a : AioState) : Prop :=
  ∀ pre step post, steps = pre ++ step :: post → step.Fine w (aioRun w c pre a).state

theorem aioRun_aioOk (ha : AioFresh w a) (hused : WellUsed (steps.filterMap AioStep.use))
    (hfine : AllFine w c steps a) : AioOk w c steps (aioRun w c steps a) := by
  induction steps using List.reverseRecOn with
  | nil => exact ha.aioOk
  | append_singleton steps step ih =>
      rw [List.filterMap_append] at hused
      have hr := ih hused.of_append fun pre st post h => hfine pre st (post ++ [step]) (by simp [h])
      have hstep := hfine steps step [] rfl
      rw [aioRun, List.foldl_append, List.foldl_cons, List.foldl_nil, ← aioRun]
      cases step with
      | smgr p op =>
          refine hr.smgr (hused.own (p, op) (by simp [AioStep.use])) fun mode relold hop => ?_
          exact hr.runOk.unused p op.rel (hused.own (p, op) (by simp [AioStep.use]))
            (hused.created _ p mode relold op.rel [] (by rw [← hop]; rfl))
      | start p h rel forkNum blockNum mdFails =>
          have ho : Own p rel :=
            hused.own (p, .readv rel forkNum blockNum 0) (by simp [AioStep.use])
          cases hh : (aioRun w c steps a).state.handles h with
          | none =>
              simp only [aioStep, hh]
              exact hr.start ho hh hstep forkNum blockNum
          | some read =>
              simp only [aioStep, hh]
              have hsame : Resolved w p rel (aioRun w c steps a).state.smgr _ :=
                ⟨.refl hr.runOk.keysOk, rfl, rfl, fun _ _ => rfl, hr.runOk.statusOk p rel ho⟩
              refine ⟨?_, hr.slots, hr.idle, hr.log⟩
              rw [List.filterMap_append]
              exact hsame.runOk ho hr.runOk
      | complete h prior disk =>
          cases hh : (aioRun w c steps a).state.handles h with
          | none =>
              simp only [aioStep, hh]
              refine ⟨?_, hr.slots, hr.idle, hr.log⟩
              rw [List.filterMap_append]
              show RunOk w c (_ ++ []) _
              rw [List.append_nil]
              exact hr.runOk
          | some read =>
              simp only [aioStep, hh]
              exact hr.complete hh (hstep read hh)

/-- In every run in which every step is fine: each block that the buffer manager accepts has been
decrypted with the key of the relation whose read it was, its fork and its number, and the slot of
a handle that can be handed out holds no key. -/
theorem async_reads_decrypted (w : World) (c : PageCipher) (a : AioState) (steps : List AioStep)
    (ha : AioFresh w a) (hused : WellUsed (steps.filterMap AioStep.use))
    (hfine : AllFine w c steps a) :
    (∀ d ∈ (aioRun w c steps a).log, d.Decrypted w c) ∧
      ∀ h, (aioRun w c steps a).state.handles h = none →
        (aioRun w c steps a).state.ioHandleKeys h = none := by
  have hok := aioRun_aioOk ha hused hfine
  exact ⟨hok.log, hok.idle⟩

def sampleAio : AioState := ⟨sampleSmgr, fun _ => none, fun _ => none⟩

/-- An encrypted relation of two blocks is read by another process, with the given result. -/
def sampleAioSteps (prior : PgAioResult) : List AioStep :=
  [.smgr 0 (.create .encrypt ⟨0, 0, 0⟩ sampleRelation .main),
    .smgr 0 (.extend sampleRelation .main 0 fun _ => 7),
    .smgr 0 (.extend sampleRelation .main 1 fun _ => 7),
    .start 1 0 sampleRelation .main 0 false,
    .complete 0 prior [fun _ => 248, fun _ => 248]]

theorem sampleAio_fresh : AioFresh sampleWorld sampleAio :=
  ⟨⟨sampleKeyed_keysOk, fun _ _ => rfl, fun _ _ => rfl, fun _ _ => rfl⟩, fun _ => rfl, fun _ => rfl⟩

theorem sampleAioSteps_wellUsed (prior : PgAioResult) :
    WellUsed ((sampleAioSteps prior).filterMap AioStep.use) := by
  show WellUsed ((0, .create .encrypt ⟨0, 0, 0⟩ sampleRelation .main) ::
    [(0, .extend sampleRelation .main 0 fun _ => 7), (0, .extend sampleRelation .main 1 fun _ => 7),
      (1, .readv sampleRelation .main 0 0)])
  refine wellUsed_of_created (fun a ha => ?_) fun a ha mode relold rel => ?_
  · simp only [List.mem_cons, List.not_mem_nil, or_false] at ha
    rcases ha with rfl | rfl | rfl <;> rfl
  · simp only [List.mem_cons, List.not_mem_nil, or_false] at ha
    rcases ha with rfl | rfl | rfl <;> simp

theorem async_reads_decrypted_sample :
    AllFine sampleWorld samplePageCipher (sampleAioSteps ⟨.rsOk, 2⟩) sampleAio ∧
      ∀ d ∈ (aioRun sampleWorld samplePageCipher (sampleAioSteps ⟨.rsOk, 2⟩) sampleAio).log,
        d.Decrypted sampleWorld samplePageCipher := by
  have hfine : AllFine sampleWorld samplePageCipher (sampleAioSteps ⟨.rsOk, 2⟩) sampleAio := by
    intro pre step post h
    have hmem : step ∈ sampleAioSteps ⟨.rsOk, 2⟩ := by
      rw [h]
      simp
    simp only [sampleAioSteps, List.mem_cons, List.not_mem_nil, or_false] at hmem
    rcases hmem with rfl | rfl | rfl | rfl | rfl
    · trivial
    · trivial
    · trivial
    · exact fun hfail => by cases hfail
    · exact fun _ _ _ => .inl rfl
  exact ⟨hfine, (async_reads_decrypted sampleWorld samplePageCipher sampleAio _ sampleAio_fresh
    (sampleAioSteps_wellUsed _) hfine).1⟩

/-- Whether the first block was accepted as it came from disk although its relation is encrypted,
seen at its first byte. -/
def Completion.firstBlockRaw (w : World) (c : PageCipher) (d : Completion) : Bool :=
  match d.disk, d.buffers with
  | page :: _, page' :: _ =>
    d.prior.status ≠ .rsError && decide (0 < d.prior.result) &&
      page' ⟨0, by decide⟩ ≠ readPage c (relKeyOf w d.read.begun d.read.rel) d.read.forkNum
        (d.read.blockNum + 0) page ⟨0, by decide⟩
  | _, _ => false

theorem Completion.firstBlockRaw_not_decrypted {d : Completion} (h : d.firstBlockRaw w c = true) :
    ¬d.Decrypted w c := by
  rintro ⟨-, hdec⟩
  unfold firstBlockRaw at h
  cases hd : d.disk with
  | nil => simp [hd] at h
  | cons page disk =>
      cases hb : d.buffers with
      | nil => simp [hd, hb] at h
      | cons page' buffers =>
          simp only [hd, hb, Bool.and_eq_true, decide_eq_true_eq] at h
          obtain ⟨⟨hst, hres⟩, hne⟩ := h
          have := hdec 0 page (by simp [hd]) ⟨hst, hres⟩
          rw [hb, List.getElem?_cons_zero, Option.some.injEq] at this
          exact hne (congrFun this _)

/-- The read is cut short after the first block, which is then accepted and still encrypted. -/
theorem async_reads_not_decrypted_partial :
    AioFresh sampleWorld sampleAio ∧
    WellUsed ((sampleAioSteps ⟨.rsPartial, 1⟩).filterMap AioStep.use) ∧
    ¬((∀ d ∈ (aioRun sampleWorld samplePageCipher (sampleAioSteps ⟨.rsPartial, 1⟩) sampleAio).log,
        d.Decrypted sampleWorld samplePageCipher) ∧
      ∀ h, (aioRun sampleWorld samplePageCipher (sampleAioSteps ⟨.rsPartial, 1⟩)
          sampleAio).state.handles h = none →
        (aioRun sampleWorld samplePageCipher (sampleAioSteps ⟨.rsPartial, 1⟩)
          sampleAio).state.ioHandleKeys h = none) := by
  refine ⟨sampleAio_fresh, sampleAioSteps_wellUsed _, fun h => ?_⟩
  have hraw : ((aioRun sampleWorld samplePageCipher (sampleAioSteps ⟨.rsPartial, 1⟩)
      sampleAio).log.any (Completion.firstBlockRaw sampleWorld samplePageCipher)) = true := by
    decide +kernel
  obtain ⟨d, hd, hbad⟩ := List.any_eq_true.1 hraw
  exact Completion.firstBlockRaw_not_decrypted hbad (h.1 d hd)

end OpenPgTde
