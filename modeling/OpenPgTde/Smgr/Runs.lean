import Mathlib.Data.List.GetD
import OpenPgTde.Smgr.Specs

/-!
A read returns what was last written.

Processes create, open and close relations, extend them, write and read blocks, in any order; an
unlogged relation is reset by a raw copy of its init fork. The last write to a block is read off the
history of the operations that succeeded. Along every run a block on disk holds the page of its
last write, encrypted under the key its relation has now, or zeros if the file was only extended
over it; so a reader, who asks for that key, gets the page back.
-/

namespace OpenPgTde

open Lib.Effect

variable {w : World} {c : PageCipher}

/-! ### Operations -/

inductive SmgrOp
  | create (mode : TDEEncryptMode) (relold : RelFileLocator) (rel : RelFileLocatorBackend)
      (forknum : ForkNumber)
  | opened (rel : RelFileLocatorBackend)
  | close (rel : RelFileLocatorBackend) (forknum : ForkNumber)
  | extend (rel : RelFileLocatorBackend) (forknum : ForkNumber) (bn : ℕ) (page : Page)
  | zeroextend (rel : RelFileLocatorBackend) (forknum : ForkNumber) (bn nblocks : ℕ)
  | writev (rel : RelFileLocatorBackend) (forknum : ForkNumber) (bn : ℕ) (pages : List Page)
  | readv (rel : RelFileLocatorBackend) (forknum : ForkNumber) (bn nblocks : ℕ)
  | copyInit (rel : RelFileLocatorBackend)

def SmgrOp.rel : SmgrOp → RelFileLocatorBackend
  | create _ _ rel _ => rel
  | opened rel => rel
  | close rel _ => rel
  | extend rel _ _ _ => rel
  | zeroextend rel _ _ _ => rel
  | writev rel _ _ _ => rel
  | readv rel _ _ _ => rel
  | copyInit rel => rel

/-- Whether an operation is a use of the relation; to open it and to close it is none. -/
def SmgrOp.isUse : SmgrOp → Bool
  | opened _ => false
  | close _ _ => false
  | _ => true

/-- The operation, done by process `p`; a read returns pages. -/
def SmgrOp.exec (w : World) (c : PageCipher) (p : ℕ) : SmgrOp → SM (List Page)
  | create mode relold rel forknum => do
    tdeMdcreate w p mode relold rel forknum false
    pure []
  | opened rel => do
    tdeMdopen p rel
    pure []
  | close rel forknum => do
    tdeMdclose p rel forknum
    pure []
  | extend rel forknum bn page => do
    tdeMdextend w c p rel forknum bn page
    pure []
  | zeroextend rel forknum bn nblocks => do
    mdzeroextend rel forknum bn nblocks
    pure []
  | writev rel forknum bn pages => do
    tdeMdwritev w c p rel forknum bn pages
    pure []
  | readv rel forknum bn nblocks => tdeMdreadv w c p rel forknum bn nblocks
  | copyInit rel => do
    copyInitFork rel
    pure []

/-- A state and the operations that succeeded on the way to it, the last one first. -/
structure SmgrRun where
  state : SmgrState
  history : List SmgrOp

/-- One operation; an operation that fails is none that happened. -/
def smgrStep (w : World) (c : PageCipher) (r : SmgrRun) (a : ℕ × SmgrOp) : SmgrRun :=
  match a.2.exec w c a.1 r.state with
  | .ok _ y => ⟨y, a.2 :: r.history⟩
  | .error _ y => ⟨y, r.history⟩

def smgrRun (w : World) (c : PageCipher) (ops : List (ℕ × SmgrOp)) (x : SmgrState) : SmgrRun :=
  ops.foldl (smgrStep w c) ⟨x, []⟩

/-! ### The last write -/

/-- What a block got: a page, or nothing but its place in the file. -/
inductive BlockEvent
  | written (page : Page)
  | zeroed

/-- What an operation stores in a block. -/
def SmgrOp.stores (rel : RelFileLocatorBackend) (forknum : ForkNumber) (bn : ℕ) :
    SmgrOp → Option BlockEvent
  | extend r f b page =>
    if r = rel ∧ f = forknum ∧ b = bn then some (.written page) else none
  | zeroextend r f b n =>
    if r = rel ∧ f = forknum ∧ b ≤ bn ∧ bn < b + n then some .zeroed else none
  | writev r f b pages =>
    if r = rel ∧ f = forknum ∧ b ≤ bn ∧ bn < b + pages.length then
      some (.written (pages.getD (bn - b) 0))
    else none
  | _ => none

/-- The last write to a block. After a raw copy of the init fork the blocks of the main fork are
those of the init fork. -/
def lastWrite : List SmgrOp → RelFileLocatorBackend → ForkNumber → ℕ → Option BlockEvent
  | [], _, _, _ => none
  | .copyInit r :: history, rel, forknum, bn =>
    lastWrite history rel (if r = rel ∧ forknum = .main then .init else forknum) bn
  | op :: history, rel, forknum, bn =>
    (op.stores rel forknum bn).or (lastWrite history rel forknum bn)

/-! ### Runs -/

/-- Each process works with relations of its own or of databases, and no relation is used before
its main fork is created. -/
structure WellUsed (ops : List (ℕ × SmgrOp)) : Prop where
  own : ∀ a ∈ ops, Own a.1 a.2.rel
  created : ∀ pre p mode relold rel post, ops = pre ++ (p, .create mode relold rel .main) :: post →
    ∀ a ∈ pre, a.2.isUse = true → a.2.rel ≠ rel

/-- Before the run: no relation is there and no process knows of any; keys of relations that are
long gone may be left over in the key files. -/
structure SmgrFresh (w : World) (x : SmgrState) : Prop where
  keysOk : KeysOk w x.server
  files : ∀ rel forknum, x.files rel forknum = none
  status : ∀ p rel, (x.processes p).status rel = .unknown
  tempRelKeys : ∀ p rel, (x.processes p).tempRelKeys rel = none

/-- What is on disk for a block that got `e`. -/
def BlockEvent.stored (c : PageCipher) (k : Option InternalKey) (forknum : ForkNumber) (bn : ℕ) :
    BlockEvent → Page
  | written page => storedPage c k forknum bn page
  | zeroed => 0

/-- The blocks of a relation are as the history says. -/
def BlocksOk (w : World) (c : PageCipher) (r : SmgrRun) (rel : RelFileLocatorBackend) : Prop :=
  ∀ forknum bn e, lastWrite r.history rel forknum bn = some e → ∃ f,
    r.state.files rel forknum = some f ∧ bn < f.nblocks ∧
    f.get bn = e.stored c (relKeyOf w r.state rel) forknum bn

/-- Nobody has used the relation yet. -/
structure Unused (w : World) (x : SmgrState) (rel : RelFileLocatorBackend) : Prop where
  files : ∀ forknum, x.files rel forknum = none
  status : ∀ p, (x.processes p).status rel = .unknown
  temp : rel.backend ≠ none → relKeyOf w x rel = none

/-- What holds after the operations `ops`. -/
structure RunOk (w : World) (c : PageCipher) (ops : List (ℕ × SmgrOp)) (r : SmgrRun) : Prop where
  keysOk : KeysOk w r.state.server
  statusOk : ∀ p rel, Own p rel → StatusOk w r.state p rel
  blocksOk : ∀ p rel, Own p rel → BlocksOk w c r rel
  unused : ∀ p rel, Own p rel → (∀ a ∈ ops, a.2.isUse = true → a.2.rel ≠ rel) →
    Unused w r.state rel

/-! ### One step -/

variable {x y : SmgrState} {history : List SmgrOp} {rel : RelFileLocatorBackend}
  {ops : List (ℕ × SmgrOp)} {p : ℕ} {op : SmgrOp}

theorem lastWrite_of_ne (hne : rel ≠ op.rel) (forknum : ForkNumber) (bn : ℕ) :
    lastWrite (op :: history) rel forknum bn = lastWrite history rel forknum bn := by
  cases op <;> simp_all [lastWrite, SmgrOp.stores, SmgrOp.rel, eq_comm]

/-- The other relations after an operation that touched one. -/
theorem Touched.blocksOk {history' : List SmgrOp} {q : ℕ} (h : Touched w op.rel x y)
    (ho : Own q rel) (hne : rel ≠ op.rel)
    (hh : history' = op :: history ∨ history' = history) (hb : BlocksOk w c ⟨x, history⟩ rel) :
    BlocksOk w c ⟨y, history'⟩ rel := by
  intro forknum bn e he
  have he' : lastWrite history rel forknum bn = some e := by
    obtain rfl | rfl := hh
    · rwa [lastWrite_of_ne hne] at he
    · exact he
  obtain ⟨f, hf, hbn, hget⟩ := hb forknum bn e he'
  refine ⟨f, ?_, hbn, ?_⟩
  · rw [← hf]
    exact congrFun (h.files rel hne) forknum
  · rw [hget]
    show _ = e.stored c (relKeyOf w y rel) forknum bn
    rw [h.keys q rel ho hne]

theorem Touched.unused {q : ℕ} (h : Touched w op.rel x y) (ho : Own q rel) (hne : rel ≠ op.rel)
    (hu : Unused w x rel) : Unused w y rel := by
  refine ⟨fun forknum => ?_, fun p => ?_, fun hb => ?_⟩
  · rw [congrFun (h.files rel hne) forknum, hu.files]
  · rw [h.status p rel hne, hu.status]
  · rw [h.keys q rel ho hne, hu.temp hb]

/-- What an operation does to the relation it is about. -/
structure StepOn (w : World) (c : PageCipher) (op : SmgrOp) (x y : SmgrState)
    (history history' : List SmgrOp) : Prop where
  touched : Touched w op.rel x y
  statusOk : ∀ q, Own q op.rel → StatusOk w y q op.rel
  blocksOk : BlocksOk w c ⟨y, history'⟩ op.rel
  unused : op.isUse = false → Unused w x op.rel → Unused w y op.rel

theorem StepOn.runOk {history' : List SmgrOp} (h : StepOn w c op x y history history')
    (hh : history' = op :: history ∨ history' = history) (hr : RunOk w c ops ⟨x, history⟩) :
    RunOk w c (ops ++ [(p, op)]) ⟨y, history'⟩ := by
  refine ⟨h.touched.keysOk, fun q rel ho => ?_, fun q rel ho => ?_, fun q rel ho hno => ?_⟩
  · by_cases hrel : rel = op.rel
    · subst hrel
      exact h.statusOk q ho
    · exact h.touched.statusOk ho hrel (hr.statusOk q rel ho)
  · by_cases hrel : rel = op.rel
    · subst hrel
      exact h.blocksOk
    · exact h.touched.blocksOk ho hrel hh (hr.blocksOk q rel ho)
  · have hu : Unused w x rel := hr.unused q rel ho fun a ha => hno a (by simp [ha])
    by_cases hrel : rel = op.rel
    · subst hrel
      refine h.unused ?_ hu
      have hop := hno (p, op) (by simp)
      cases huse : op.isUse with
      | false => rfl
      | true => exact absurd rfl (hop huse)
    · exact h.touched.unused ho hrel hu

/-- Looking for a key writes nothing. -/
theorem Resolved.stepOn {history' : List SmgrOp} (h : Resolved w p op.rel x y)
    (hr : RunOk w c ops ⟨x, history⟩) (ho : Own p op.rel) (huse : op.isUse = true)
    (hlast : ∀ forknum bn, lastWrite history' op.rel forknum bn =
      lastWrite history op.rel forknum bn) :
    StepOn w c op x y history history' := by
  refine ⟨h.touched, fun q hq => ?_, fun forknum bn e he => ?_, fun hno => by simp [huse] at hno⟩
  · by_cases hqp : q = p
    · subst hqp
      exact h.statusOk
    · have hst := hr.statusOk q op.rel hq
      unfold StatusOk at hst ⊢
      rw [h.status q hqp, h.key]
      exact hst
  · rw [hlast] at he
    obtain ⟨f, hf, hbn, hget⟩ := hr.blocksOk p op.rel ho forknum bn e he
    refine ⟨f, ?_, hbn, ?_⟩
    · rw [← hf]
      exact congrFun (congrFun h.files op.rel) forknum
    · rw [hget]
      show _ = e.stored c (relKeyOf w y op.rel) forknum bn
      rw [h.key]

/-- A write, seen block by block: `pages` are what is stored for the pages of the history. -/
theorem Wrote.stepOn {forknum : ForkNumber} {bn : ℕ} {pages : List Page}
    (h : Wrote w p op.rel forknum bn pages x y) (hr : RunOk w c ops ⟨x, history⟩)
    (ho : Own p op.rel) (huse : op.isUse = true)
    (hlast : ∀ fork' i e, lastWrite (op :: history) op.rel fork' i = some e →
      (fork' = forknum ∧ bn ≤ i ∧ i < bn + pages.length ∧
        pages.getD (i - bn) 0 = e.stored c (relKeyOf w x op.rel) forknum i) ∨
      (¬(fork' = forknum ∧ bn ≤ i ∧ i < bn + pages.length) ∧
        lastWrite history op.rel fork' i = some e)) :
    StepOn w c op x y history (op :: history) := by
  obtain ⟨f, z, hf, hz, rfl⟩ := h
  have hstep : StepOn w c op x z history history :=
    hz.stepOn hr ho huse fun _ _ => rfl
  refine ⟨hz.touched.trans (touched_putFile z op.rel forknum hz.touched.keysOk _),
    fun q hq => hstep.statusOk q hq, fun fork' i e he => ?_, fun hno => by simp [huse] at hno⟩
  show ∃ f', (z.putFile op.rel forknum (f.put bn pages)).files op.rel fork' = some f' ∧ _ ∧
    _ = e.stored c (relKeyOf w z op.rel) fork' i
  obtain ⟨rfl, hlo, hhi, hpage⟩ | ⟨hout, hold⟩ := hlast fork' i e he
  · refine ⟨_, files_putFile_self z op.rel fork' _, ?_, ?_⟩
    · show i < max f.nblocks (bn + pages.length)
      omega
    · rw [MdFile.get_put, if_pos ⟨hlo, hhi⟩, hpage, hz.key]
  · obtain ⟨f', hf', hi, hget⟩ := hstep.blocksOk fork' i e hold
    have hf'' : x.files op.rel fork' = some f' := by rw [← hz.files]; exact hf'
    by_cases hfork : fork' = forknum
    · subst hfork
      obtain rfl : f = f' := by simpa [hf] using hf''
      refine ⟨_, files_putFile_self z op.rel fork' _, ?_, ?_⟩
      · show i < max f.nblocks (bn + pages.length)
        omega
      · rw [MdFile.get_put, if_neg fun hin => hout ⟨rfl, hin⟩]
        exact hget
    · exact ⟨f', by rw [files_putFile_of_ne z op.rel forknum hfork]; exact hf', hi, hget⟩

/-- A process forgets what it knows of a relation. -/
theorem stepOn_setStatus {history' : List SmgrOp} (hr : RunOk w c ops ⟨x, history⟩)
    (ho : Own p op.rel)
    (hlast : ∀ forknum bn, lastWrite history' op.rel forknum bn =
      lastWrite history op.rel forknum bn) :
    StepOn w c op x (x.setStatus p op.rel .unknown) history history' := by
  have hst : ∀ q, ((x.setStatus p op.rel .unknown).processes q).status op.rel =
      if q = p then .unknown else (x.processes q).status op.rel := by
    intro q
    by_cases hq : q = p
    · subst hq
      simp
    · rw [status_setStatus_of_ne x p op.rel (.inl hq), if_neg hq]
  refine ⟨touched_setStatus x p op.rel hr.keysOk _, fun q hq => ?_, fun forknum bn e he => ?_,
    fun _ hu => ⟨hu.files, fun q => ?_, fun hb => ?_⟩⟩
  · have hold := hr.statusOk q op.rel hq
    unfold StatusOk at hold ⊢
    rw [hst, relKeyOf_setStatus]
    split_ifs
    · trivial
    · exact hold
  · rw [hlast] at he
    obtain ⟨f, hf, hbn, hget⟩ := hr.blocksOk p op.rel ho forknum bn e he
    refine ⟨f, hf, hbn, ?_⟩
    rw [hget]
    show _ = e.stored c (relKeyOf w (x.setStatus p op.rel .unknown) op.rel) forknum bn
    rw [relKeyOf_setStatus]
  · rw [hst, hu.status]
    split_ifs <;> rfl
  · rw [relKeyOf_setStatus, hu.temp hb]

/-- A relation that nobody used is created; there was nothing to read in it before. -/
theorem Created.stepOn {history' : List SmgrOp} (h : Created w p op.rel x y)
    (hr : RunOk w c ops ⟨x, history⟩) (ho : Own p op.rel) (huse : op.isUse = true)
    (hu : Unused w x op.rel)
    (hlast : ∀ forknum bn, lastWrite history' op.rel forknum bn =
      lastWrite history op.rel forknum bn) :
    StepOn w c op x y history history' := by
  refine ⟨h.touched, fun q hq => ?_, fun forknum bn e he => ?_, fun hno => by simp [huse] at hno⟩
  · by_cases hqp : q = p
    · subst hqp
      exact h.statusOk
    · unfold StatusOk
      rw [h.status q hqp, hu.status]
      trivial
  · rw [hlast] at he
    obtain ⟨f, hf, -⟩ := hr.blocksOk p op.rel ho forknum bn e he
    exact absurd hf (by rw [show (SmgrRun.mk x history).state = x from rfl, hu.files]; simp)

/-- A file takes the place of a fork, for reasons that have nothing to do with keys. -/
theorem stepOn_putFile {history' : List SmgrOp} {forknum : ForkNumber} {f : MdFile}
    (hr : RunOk w c ops ⟨x, history⟩) (ho : Own p op.rel) (huse : op.isUse = true)
    (hother : ∀ fork', fork' ≠ forknum → ∀ bn, lastWrite history' op.rel fork' bn =
      lastWrite history op.rel fork' bn)
    (hfork : ∀ bn e, lastWrite history' op.rel forknum bn = some e → bn < f.nblocks ∧
      f.get bn = e.stored c (relKeyOf w x op.rel) forknum bn) :
    StepOn w c op x (x.putFile op.rel forknum f) history history' := by
  refine ⟨touched_putFile x op.rel forknum hr.keysOk f, fun q hq => hr.statusOk q op.rel hq,
    fun fork' bn e he => ?_, fun hno => by simp [huse] at hno⟩
  by_cases hf : fork' = forknum
  · subst hf
    exact ⟨f, files_putFile_self x op.rel fork' f, hfork bn e he⟩
  · rw [hother fork' hf] at he
    obtain ⟨f', hf', hget⟩ := hr.blocksOk p op.rel ho fork' bn e he
    exact ⟨f', (files_putFile_of_ne x op.rel forknum hf f).trans hf', hget⟩

/-! ### Every operation is such a step -/

theorem copyInitFork_spec :
    wp (copyInitFork rel)
      (fun _ y => ∃ f, x.files rel .init = some f ∧ y = x.putFile rel .main f)
      (fun _ y => y = x) x := by
  rw [copyInitFork, wp_bind]
  refine mdopenfork_spec.mono (fun f y hy => ?_) fun _ y hy => hy.1
  obtain ⟨rfl, hf⟩ := hy
  exact ⟨f, hf, rfl⟩

theorem SmgrOp.exec_spec (hr : RunOk w c ops ⟨x, history⟩) (ho : Own p op.rel)
    (hcreate : ∀ mode relold, op = .create mode relold op.rel .main → Unused w x op.rel) :
    wp (op.exec w c p) (fun _ y => StepOn w c op x y history (op :: history))
      (fun _ y => StepOn w c op x y history history) x := by
  have hx := hr.keysOk
  have hs := hr.statusOk p op.rel ho
  have hsame : Resolved w p op.rel x x := ⟨.refl hx, rfl, rfl, fun _ _ => rfl, hs⟩
  cases op with
  | create mode relold rel forknum =>
      rw [exec, wp_bind]
      by_cases hfork : forknum = .main
      · subst hfork
        have hu : Unused w x rel := hcreate mode relold rfl
        refine (tdeMdcreate_main_spec hx ho (hu.status p) hu.temp mode relold).mono
          (fun _ y hy => ?_) fun _ y hy => ?_
        · exact hy.stepOn hr ho rfl hu fun _ _ => rfl
        · exact hy.stepOn hr ho rfl hu fun _ _ => rfl
      · refine (tdeMdcreate_fork_spec hfork mode relold).mono (fun _ y hy => ?_) fun _ y hy => ?_
        · obtain ⟨hnone, rfl⟩ := hy
          refine stepOn_putFile hr ho rfl (fun _ _ _ => rfl) fun bn e he => ?_
          obtain ⟨f, hf, -⟩ := hr.blocksOk p rel ho forknum bn e he
          exact absurd (hnone.symm.trans hf) (by simp)
        · rw [hy]
          exact hsame.stepOn hr ho rfl fun _ _ => rfl
  | opened rel =>
      exact stepOn_setStatus hr ho fun _ _ => rfl
  | close rel forknum =>
      rw [exec, wp_bind, tdeMdclose, wp_ite]
      refine ⟨fun _ => stepOn_setStatus hr ho fun _ _ => rfl, fun _ => ?_⟩
      exact ⟨.refl hx, fun q hq => hr.statusOk q rel hq, hr.blocksOk p rel ho, fun _ hu => hu⟩
  | extend rel forknum bn page =>
      rw [exec, wp_bind]
      refine (tdeMdextend_spec hx ho hs bn page).mono (fun _ y hy => ?_) fun _ y hy =>
        hy.stepOn hr ho rfl fun _ _ => rfl
      refine hy.stepOn hr ho rfl fun fork' i e he => ?_
      change (if rel = rel ∧ forknum = fork' ∧ bn = i then some (BlockEvent.written page)
        else none).or (lastWrite history rel fork' i) = some e at he
      by_cases hin : forknum = fork' ∧ bn = i
      · obtain ⟨rfl, rfl⟩ := hin
        obtain rfl : BlockEvent.written page = e := by simpa using he
        refine .inl ⟨rfl, le_rfl, by simp, by simp [BlockEvent.stored]⟩
      · refine .inr ⟨fun h => hin ⟨h.1.symm, ?_⟩, ?_⟩
        · have := h.2.2
          simp only [List.length_singleton] at this
          omega
        · rw [if_neg fun h => hin h.2, Option.none_or] at he
          exact he
  | zeroextend rel forknum bn nblocks =>
      rw [exec, wp_bind]
      refine (mdzeroextend_spec bn nblocks).mono (fun _ y hy => ?_) fun _ y hy => ?_
      · obtain ⟨f, hf, rfl⟩ := hy
        have hw : Wrote w p rel forknum bn (List.replicate nblocks 0) x _ := ⟨f, x, hf, hsame, rfl⟩
        refine hw.stepOn hr ho rfl fun fork' i e he => ?_
        change (if rel = rel ∧ forknum = fork' ∧ bn ≤ i ∧ i < bn + nblocks then
          some BlockEvent.zeroed else none).or (lastWrite history rel fork' i) = some e at he
        by_cases hin : forknum = fork' ∧ bn ≤ i ∧ i < bn + nblocks
        · obtain ⟨rfl, hlo, hhi⟩ := hin
          obtain rfl : BlockEvent.zeroed = e := by simpa [hlo, hhi] using he
          refine .inl ⟨rfl, hlo, by simpa using hhi, ?_⟩
          rw [List.getD_eq_getElem _ _ (by simp; omega)]
          simp [BlockEvent.stored]
        · refine .inr ⟨fun h => hin ⟨h.1.symm, h.2.1, by simpa using h.2.2⟩, ?_⟩
          rw [if_neg fun h => hin h.2, Option.none_or] at he
          exact he
      · rw [hy]
        exact hsame.stepOn hr ho rfl fun _ _ => rfl
  | writev rel forknum bn pages =>
      rw [exec, wp_bind]
      refine (tdeMdwritev_spec hx ho hs bn pages).mono (fun _ y hy => ?_) fun _ y hy =>
        hy.stepOn hr ho rfl fun _ _ => rfl
      refine hy.stepOn hr ho rfl fun fork' i e he => ?_
      change (if rel = rel ∧ forknum = fork' ∧ bn ≤ i ∧ i < bn + pages.length then
        some (BlockEvent.written (pages.getD (i - bn) 0)) else none).or
          (lastWrite history rel fork' i) = some e at he
      by_cases hin : forknum = fork' ∧ bn ≤ i ∧ i < bn + pages.length
      · obtain ⟨rfl, hlo, hhi⟩ := hin
        obtain rfl : BlockEvent.written (pages.getD (i - bn) 0) = e := by
          simpa [hlo, hhi] using he
        refine .inl ⟨rfl, hlo, by simpa using hhi, ?_⟩
        rw [List.getD_eq_getElem _ _ (by simp; omega), List.getElem_mapIdx,
          List.getD_eq_getElem _ _ (by omega), Nat.add_sub_cancel' hlo]
        rfl
      · refine .inr ⟨fun h => hin ⟨h.1.symm, h.2.1, by simpa using h.2.2⟩, ?_⟩
        rw [if_neg fun h => hin h.2, Option.none_or] at he
        exact he
  | readv rel forknum bn nblocks =>
      exact (tdeMdreadv_spec hx ho hs bn nblocks).mono
        (fun _ y hy => hy.1.stepOn hr ho rfl fun _ _ => rfl)
        fun _ y hy => hy.1.stepOn hr ho rfl fun _ _ => rfl
  | copyInit rel =>
      rw [exec, wp_bind]
      refine copyInitFork_spec.mono (fun _ y hy => ?_) fun _ y hy => ?_
      · obtain ⟨f, hf, rfl⟩ := hy
        refine stepOn_putFile hr ho rfl (fun fork' hne bn => ?_) fun bn e he => ?_
        · rw [lastWrite, if_neg fun h => hne h.2]
        · -- the init fork is stored with the tweaks of the main fork
          rw [lastWrite, if_pos ⟨rfl, rfl⟩] at he
          obtain ⟨f', hf', hbn, hget⟩ := hr.blocksOk p rel ho .init bn e he
          obtain rfl : f = f' := by simpa [hf] using hf'
          refine ⟨hbn, hget.trans ?_⟩
          cases e with
          | written page => exact storedPage_init _ bn page
          | zeroed => rfl
      · rw [hy]
        exact hsame.stepOn hr ho rfl fun _ _ => rfl

/-! ### Runs -/

theorem SmgrFresh.runOk (h : SmgrFresh w x) : RunOk w c [] ⟨x, []⟩ := by
  refine ⟨h.keysOk, fun p rel _ => ?_, fun p rel _ forknum bn e he => by simp [lastWrite] at he,
    fun p rel _ _ => ⟨h.files rel, fun q => h.status q rel, fun hb => ?_⟩⟩
  · unfold StatusOk
    rw [h.status]
    trivial
  · obtain ⟨b, hb⟩ := Option.ne_none_iff_exists'.1 hb
    simp only [relKeyOf, hb]
    exact h.tempRelKeys b _

theorem WellUsed.of_append {ops' : List (ℕ × SmgrOp)} (h : WellUsed (ops ++ ops')) :
    WellUsed ops := by
  refine ⟨fun a ha => h.own a (List.mem_append_left _ ha), ?_⟩
  rintro pre p mode relold rel post rfl
  exact h.created pre p mode relold rel (post ++ ops') (by simp)

theorem RunOk.step {r : SmgrRun} (hr : RunOk w c ops r) (ho : Own p op.rel)
    (hcreate : ∀ mode relold, op = .create mode relold op.rel .main → Unused w r.state op.rel) :
    RunOk w c (ops ++ [(p, op)]) (smgrStep w c r (p, op)) := by
  have hspec := SmgrOp.exec_spec hr ho hcreate
  rw [smgrStep]
  dsimp only
  cases hrun : op.exec w c p r.state with
  | ok pages y => exact (hspec.of_ok hrun).runOk (.inl rfl) hr
  | error e y => exact (hspec.of_error hrun).runOk (.inr rfl) hr

theorem smgrRun_runOk (hx : SmgrFresh w x) (h : WellUsed ops) :
    RunOk w c ops (smgrRun w c ops x) := by
  induction ops using List.reverseRecOn with
  | nil => exact hx.runOk
  | append_singleton ops a ih =>
      obtain ⟨p, op⟩ := a
      have hr := ih h.of_append
      have ho : Own p op.rel := h.own (p, op) (by simp)
      have hcreate : ∀ mode relold, op = .create mode relold op.rel .main →
          Unused w (smgrRun w c ops x).state op.rel := by
        intro mode relold hop
        exact hr.unused p op.rel ho (h.created ops p mode relold op.rel [] (by rw [← hop]))
      rw [smgrRun, List.foldl_append, List.foldl_cons, List.foldl_nil, ← smgrRun]
      exact hr.step ho hcreate

/-! ### Reading -/

/-- A page that was read is the one the history asks for. -/
def ReadsBack (c : PageCipher) (k : Option InternalKey) (forknum : ForkNumber) (bn : ℕ)
    (page : Page) : Option BlockEvent → Prop
  | none => True
  | some (.written page') => NoZeroPrefix c k forknum bn page' → page = page'
  | some .zeroed => page = 0

/-- After any operations of any processes, a read that returns gives for every block the page last
written to it, and the zero page where the file was only extended, unless the page was stored as
one that begins like a page that was never written. Where a block of the main fork was last
written by a raw copy of the init fork, the page is that of the init fork. The read does return if
all its blocks have been written and the key can be had. -/
theorem smgr_read_your_writes (w : World) (c : PageCipher) (x : SmgrState)
    (ops : List (ℕ × SmgrOp)) (p : ℕ) (rel : RelFileLocatorBackend) (forknum : ForkNumber)
    (bn nblocks : ℕ) (hx : SmgrFresh w x)
    (hops : WellUsed (ops ++ [(p, .readv rel forknum bn nblocks)])) :
    (∀ pages y, tdeMdreadv w c p rel forknum bn nblocks (smgrRun w c ops x).state =
      .ok pages y → pages.length = nblocks ∧ ∀ i page, pages[i]? = some page →
      ReadsBack c (relKeyOf w (smgrRun w c ops x).state rel) forknum (bn + i) page
        (lastWrite (smgrRun w c ops x).history rel forknum (bn + i))) ∧
    (SmgrKeyAvailable w (smgrRun w c ops x).state rel → 0 < nblocks →
      (∀ i < nblocks, lastWrite (smgrRun w c ops x).history rel forknum (bn + i) ≠ none) →
      ∃ pages y, tdeMdreadv w c p rel forknum bn nblocks (smgrRun w c ops x).state =
        .ok pages y) := by
  have hr : RunOk w c ops (smgrRun w c ops x) := smgrRun_runOk hx hops.of_append
  have ho : Own p rel := hops.own (p, .readv rel forknum bn nblocks) (by simp)
  have hb : BlocksOk w c (smgrRun w c ops x) rel := hr.blocksOk p rel ho
  have hspec : wp (tdeMdreadv w c p rel forknum bn nblocks) _ _ (smgrRun w c ops x).state :=
    tdeMdreadv_spec hr.keysOk ho (hr.statusOk p rel ho) bn nblocks
  refine ⟨fun pages y hread => ?_, fun havail hpos hall => ?_⟩
  · obtain ⟨-, f, hf, -, rfl⟩ := hspec.of_ok hread
    refine ⟨by simp, fun i page hi => ?_⟩
    obtain ⟨hlt, hpage⟩ := List.getElem?_eq_some_iff.1 hi
    obtain rfl : readPage c (relKeyOf w (smgrRun w c ops x).state rel) forknum (bn + i)
        (f.get (bn + i)) = page := by simpa using hpage
    cases he : lastWrite (smgrRun w c ops x).history rel forknum (bn + i) with
    | none => trivial
    | some e =>
        obtain ⟨f', hf', -, hget⟩ := hb forknum (bn + i) e he
        obtain rfl : f = f' := by simpa [hf] using hf'
        rw [hget]
        cases e with
        | written page => exact fun hzero => readPage_storedPage hzero
        | zeroed => exact readPage_zero _ _
  · cases hread : tdeMdreadv w c p rel forknum bn nblocks (smgrRun w c ops x).state with
    | ok pages y => exact ⟨pages, y, rfl⟩
    | error e y =>
        obtain ⟨e', he'⟩ := Option.ne_none_iff_exists'.1 (hall (nblocks - 1) (by omega))
        obtain ⟨f, hf, hlt, -⟩ := hb forknum _ e' he'
        have hend := (hspec.of_error hread).2 havail f hf
        omega

/-- A cipher that inverts every bit. -/
def samplePageCipher : PageCipher := fun _ _ _ =>
  ⟨fun page i => ~~~page i, fun page i => ~~~page i, fun _ => by simp, fun _ => by simp⟩

def sampleSmgr : SmgrState where
  server := sampleKeyed
  files _ _ := none
  processes _ := ⟨fun _ => .unknown, fun _ => none⟩

def sampleRelation : RelFileLocatorBackend := ⟨⟨1663, 5, 16384⟩, none⟩

/-- A process creates an encrypted relation with one written and two empty blocks. -/
def sampleSmgrOps : List (ℕ × SmgrOp) :=
  [(0, .create .encrypt ⟨0, 0, 0⟩ sampleRelation .main),
    (0, .extend sampleRelation .main 0 fun _ => 7), (0, .zeroextend sampleRelation .main 1 2)]

theorem sampleKeyed_keysOk : KeysOk sampleWorld sampleKeyed := by
  refine ⟨sampleKeyed_consistent, fun db => ?_⟩
  have h0 : FileOk sampleServer db.oid := .of_none (.inl rfl)
  obtain h | ⟨-, hk, -⟩ := LifecycleOp.exec_steps (w := sampleWorld)
    (.setKeyUsingGlobalKeyProvider sampleDatabase (sampleCall [65])) rfl sampleServer_fresh.consistent
  · exact h.fileOk h0
  · exact h0.congr (congrFun hk _)

theorem sampleRelation_own (p : ℕ) : Own p sampleRelation :=
  ⟨fun b hb => (by cases hb), fun _ => ⟨by decide, by decide, by decide⟩⟩

/-- A relation is created, and then used in other ways. -/
theorem wellUsed_of_created {p : ℕ} {mode : TDEEncryptMode} {relold : RelFileLocator}
    {ops : List (ℕ × SmgrOp)} (hown : ∀ a ∈ ops, a.2.rel = sampleRelation)
    (hcreate : ∀ a ∈ ops, ∀ mode relold rel, a.2 ≠ .create mode relold rel .main) :
    WellUsed ((p, .create mode relold sampleRelation .main) :: ops) := by
  refine ⟨fun a ha => ?_, fun pre q mode' relold' rel post h => ?_⟩
  · obtain rfl | ha := List.mem_cons.1 ha
    · exact sampleRelation_own _
    · rw [hown a ha]
      exact sampleRelation_own _
  · cases pre with
    | nil => simp
    | cons b pre =>
        obtain ⟨-, rfl⟩ := List.cons.inj h
        exact absurd rfl (hcreate (q, .create mode' relold' rel .main) (by simp) mode' relold' rel)

theorem sampleSmgrOps_wellUsed :
    WellUsed (sampleSmgrOps ++ [(1, .readv sampleRelation .main 0 3)]) := by
  show WellUsed ((0, .create .encrypt ⟨0, 0, 0⟩ sampleRelation .main) ::
    [(0, .extend sampleRelation .main 0 fun _ => 7), (0, .zeroextend sampleRelation .main 1 2),
      (1, .readv sampleRelation .main 0 3)])
  refine wellUsed_of_created (fun a ha => ?_) fun a ha mode relold rel => ?_
  · simp only [List.mem_cons, List.not_mem_nil, or_false] at ha
    rcases ha with rfl | rfl | rfl <;> rfl
  · simp only [List.mem_cons, List.not_mem_nil, or_false] at ha
    rcases ha with rfl | rfl | rfl <;> simp

/-- Another process reads them. -/
theorem smgr_read_your_writes_sample :
    SmgrFresh sampleWorld sampleSmgr ∧
      WellUsed (sampleSmgrOps ++ [(1, .readv sampleRelation .main 0 3)]) ∧
      ∃ pages y, tdeMdreadv sampleWorld samplePageCipher 1 sampleRelation .main 0 3
        (smgrRun sampleWorld samplePageCipher sampleSmgrOps sampleSmgr).state = .ok pages y := by
  have hfresh : SmgrFresh sampleWorld sampleSmgr :=
    ⟨sampleKeyed_keysOk, fun _ _ => rfl, fun _ _ => rfl, fun _ _ => rfl⟩
  have hall : ∀ i < 3, (lastWrite (smgrRun sampleWorld samplePageCipher sampleSmgrOps
      sampleSmgr).history sampleRelation .main (0 + i)).isSome = true := by decide +kernel
  refine ⟨hfresh, sampleSmgrOps_wellUsed, (smgr_read_your_writes sampleWorld samplePageCipher
    sampleSmgr sampleSmgrOps 1 sampleRelation .main 0 3 hfresh sampleSmgrOps_wellUsed).2
    (fun _ => ⟨fun _ => rfl, .inl (by decide +kernel)⟩) (by decide)
    fun i hi => Option.isSome_iff_ne_none.1 (hall i hi)⟩

end OpenPgTde
