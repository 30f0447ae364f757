import OpenPgTde.TempFile.Transparency

/-!
Temporary files that processes share.

The files of a file set have names, and a process that knows the name can open a file that another
one wrote. It finds the salt from the name, as the writer did, and the block number from where it is
in the file. A reader may also join files: the segments of one become the next segments of another,
without a byte being copied, and are read through that one from then on. The salt is then that of
the file they were joined to, and the block number counts from its beginning.
-/

namespace OpenPgTde

open Lib.Splice

/-! ### Salts -/

/-- What a fileset based buffered file is known by: `creator_pid` and `number` of the file set, and
its own name. -/
structure FileSetName where
  creatorPid : UInt32
  number : UInt32
  name : List UInt8
  deriving DecidableEq, Repr

/-- `MAXPGPATH`. -/
def maxPgPath : ℕ := 1024

/-- The seed of the second hash. -/
def secondSeed : UInt64 := 0x9e3779b97f4a7c15

/-- `BufFileInitCryptSalt` of a fileset based file: two hashes of what it is known by. -/
def bufFileInitCryptSalt (hash : List UInt8 → UInt64 → UInt64) (key : FileSetName) : TempIv :=
  let idbuf := leBytes 4 key.creatorPid.toNat ++ leBytes 4 key.number.toNat ++
    key.name.take maxPgPath
  let salt := leBytes 8 (hash idbuf 0).toNat ++ leBytes 8 (hash idbuf secondSeed).toNat
  fun i => salt.getD i.val 0

/-! ### Files and those who have them open -/

/-- A segment file: the buffered file it was made for, and which segment of that. -/
structure SegmentFile where
  key : FileSetName
  segment : ℕ
  deriving DecidableEq, Repr

/-- A buffered file that a process has open: `files` are its segments. -/
structure SharedBufFile where
  key : FileSetName
  cryptSalt : TempIv
  files : List SegmentFile
  readOnly : Bool

/-- A dump behind the last segment makes another one. -/
def SharedBufFile.extended (f : SharedBufFile) (curFile : ℕ) : SharedBufFile :=
  if curFile < f.files.length then f else { f with files := f.files ++ [⟨f.key, f.files.length⟩] }

/-- What a writer gave to the hook when it dumped a block. -/
structure DumpedBlock where
  salt : TempIv
  blocknum : ℕ
  data : List UInt8

/-- The segment files with their blocks, and the buffered files that processes have open. -/
structure FileSets where
  numSegments : FileSetName → ℕ
  blocks : SegmentFile → ℕ → Option (List UInt8)
  handles : ℕ → Option SharedBufFile
  /-- What the writer of a block gave to the hook. -/
  written : SegmentFile → ℕ → Option DumpedBlock

namespace FileSets

/-- Nothing has been created yet. -/
def init : FileSets where
  numSegments _ := 0
  blocks _ _ := none
  handles _ := none
  written _ _ := none

inductive Op
  /-- `BufFileCreateFileSet`. -/
  | create (fd : ℕ) (key : FileSetName)
  /-- `BufFileOpenFileSet`, to read. -/
  | openFile (fd : ℕ) (key : FileSetName)
  /-- `BufFileAppend`. -/
  | append (target source : ℕ)
  /-- A writer dumps its buffer, which is at a block of a segment. -/
  | dump (fd curFile block : ℕ) (data : List UInt8)

variable (c : TempCipher) (baseIv : TempIv) (hash : List UInt8 → UInt64 → UInt64)

def put (s : FileSets) (fd : ℕ) (f : SharedBufFile) : FileSets :=
  { s with handles := Function.update s.handles fd (some f) }

/-- The block number of a block, as the hooks are given it. -/
def blocknum (curFile block : ℕ) : ℕ := buffileSegSize * curFile + block

/-- Write a block of a segment file. -/
def dump (s : FileSets) (f : SharedBufFile) (file : SegmentFile) (curFile block : ℕ)
    (data : List UInt8) : FileSets :=
  let n := blocknum curFile block
  { s with
    numSegments := Function.update s.numSegments f.key (max (s.numSegments f.key) f.files.length)
    blocks := Function.update s.blocks file (Function.update (s.blocks file) block
      (some (tempfileEncrypt c baseIv f.cryptSalt n data)))
    written := Function.update s.written file (Function.update (s.written file) block
      (some ⟨f.cryptSalt, n, data⟩)) }

/-- One step, where it is possible. A reader joins files that it has opened to read. -/
def step (s : FileSets) : Op → Option FileSets
  | .create fd key =>
      some { s with
        numSegments := Function.update s.numSegments key 1
        blocks := fun file => if file.key = key then fun _ => none else s.blocks file
        written := fun file => if file.key = key then fun _ => none else s.written file
        handles := Function.update s.handles fd
          (some ⟨key, bufFileInitCryptSalt hash key, [⟨key, 0⟩], false⟩) }
  | .openFile fd key =>
      if s.numSegments key = 0 then none
      else some (s.put fd ⟨key, bufFileInitCryptSalt hash key,
        (List.range (s.numSegments key)).map fun i => ⟨key, i⟩, true⟩)
  | .append target source =>
      match s.handles target, s.handles source with
      | some f, some g =>
          if f.readOnly ∧ g.readOnly then some (s.put target { f with files := f.files ++ g.files })
          else none
      | _, _ => none
  | .dump fd curFile block data =>
      match s.handles fd with
      | none => none
      | some f =>
          if f.readOnly then none
          else
            let g := f.extended curFile
            match g.files[curFile]? with
            | none => none
            | some file => some ((s.put fd g).dump c baseIv g file curFile block data)

/-- The states that any processes reach by any steps. -/
inductive Reachable : FileSets → Prop
  | init : Reachable init
  | step {s t : FileSets} (h : Reachable s) (op : Op) (hstep : s.step c baseIv hash op = some t) :
      Reachable t

/-- The state after a list of steps. -/
def run (s : FileSets) : List Op → Option FileSets
  | [] => some s
  | op :: ops => (s.step c baseIv hash op).bind fun t => t.run ops

theorem Reachable.run {s t : FileSets} (h : Reachable c baseIv hash s) (ops : List Op)
    (hrun : s.run c baseIv hash ops = some t) : Reachable c baseIv hash t := by
  induction ops generalizing s with
  | nil =>
      cases hrun
      exact h
  | cons op ops ih =>
      obtain ⟨u, hu, hrest⟩ := Option.bind_eq_some_iff.mp hrun
      exact ih (h.step op hu) hrest

/-- The block that `BufFileLoadBuffer` gets through an open file. -/
def load (s : FileSets) (f : SharedBufFile) (curFile block : ℕ) : Option (List UInt8) :=
  match f.files[curFile]? with
  | none => none
  | some file => (s.blocks file block).map
      (tempfileDecrypt c baseIv f.cryptSalt (blocknum curFile block))

/-! ### What every step keeps -/

variable {c baseIv hash}

/-- An open file has the salt of its name. Its segments are its own, in their own places, or have
been moved to a place further behind. -/
structure Formed (hash : List UInt8 → UInt64 → UInt64) (f : SharedBufFile) : Prop where
  salt : f.cryptSalt = bufFileInitCryptSalt hash f.key
  nonempty : f.files ≠ []
  files : ∀ (i : ℕ) (file : SegmentFile), f.files[i]? = some file →
    file = ⟨f.key, i⟩ ∨ file.segment < i
  writer : f.readOnly = false → ∀ (i : ℕ) (file : SegmentFile), f.files[i]? = some file →
    file = ⟨f.key, i⟩

/-- A block was encrypted with the salt and the block number of the segment it is in. -/
structure Kept (c : TempCipher) (baseIv : TempIv) (hash : List UInt8 → UInt64 → UInt64)
    (s : FileSets) (file : SegmentFile) (block : ℕ) (d : DumpedBlock) : Prop where
  salt : d.salt = bufFileInitCryptSalt hash file.key
  blocknum : d.blocknum = FileSets.blocknum file.segment block
  stored : s.blocks file block = some (tempfileEncrypt c baseIv d.salt d.blocknum d.data)

structure Coherent (c : TempCipher) (baseIv : TempIv) (hash : List UInt8 → UInt64 → UInt64)
    (s : FileSets) : Prop where
  formed : ∀ fd f, s.handles fd = some f → Formed hash f
  kept : ∀ file block d, s.written file block = some d → Kept c baseIv hash s file block d

theorem Formed.extended {f : SharedBufFile} (h : Formed hash f) (hw : f.readOnly = false)
    (curFile : ℕ) : Formed hash (f.extended curFile) ∧ (f.extended curFile).readOnly = false := by
  unfold SharedBufFile.extended
  split
  · exact ⟨h, hw⟩
  · have hown : ∀ (i : ℕ) (file : SegmentFile), (f.files ++ [⟨f.key, f.files.length⟩])[i]? = some file →
        file = ⟨f.key, i⟩ := by
      intro i file hi
      rcases Nat.lt_or_ge i f.files.length with hlt | hge
      · rw [List.getElem?_append_left hlt] at hi
        exact h.writer hw i file hi
      · rw [List.getElem?_append_right hge, List.getElem?_singleton] at hi
        split at hi
        · cases hi
          congr 1
          omega
        · cases hi
    exact ⟨⟨h.salt, by simp, fun i file hi => Or.inl (hown i file hi), fun _ => hown⟩, hw⟩

/-- The segments that are joined to a file come behind at least one of its own. -/
theorem Formed.append {f g : SharedBufFile} (hf : Formed hash f) (hg : Formed hash g)
    (hread : f.readOnly = true) : Formed hash { f with files := f.files ++ g.files } := by
  refine ⟨hf.salt, by simp [hf.nonempty], fun i file hi => ?_, fun hw => ?_⟩
  · rcases Nat.lt_or_ge i f.files.length with hlt | hge
    · rw [List.getElem?_append_left hlt] at hi
      exact hf.files i file hi
    · rw [List.getElem?_append_right hge] at hi
      have hpos := List.length_pos_of_ne_nil hf.nonempty
      refine Or.inr ?_
      rcases hg.files _ file hi with rfl | hlt
      · show i - f.files.length < i
        omega
      · omega
  · rw [hread] at hw
    cases hw

theorem Coherent.put {s : FileSets} {f : SharedBufFile} (h : Coherent c baseIv hash s)
    (hf : Formed hash f) (fd : ℕ) : Coherent c baseIv hash (s.put fd f) := by
  refine ⟨fun fd' f' hf' => ?_, fun file block d hd => ?_⟩
  · unfold FileSets.put at hf'
    by_cases heq : fd' = fd
    · subst heq
      simp only [Function.update_self] at hf'
      cases hf'
      exact hf
    · simp only [Function.update_of_ne heq] at hf'
      exact h.formed fd' f' hf'
  · obtain ⟨hsalt, hnum, hstored⟩ := h.kept file block d hd
    exact ⟨hsalt, hnum, hstored⟩

theorem Coherent.dump {s : FileSets} {f : SharedBufFile} {curFile : ℕ}
    (h : Coherent c baseIv hash s) (hf : Formed hash f) (block : ℕ) (data : List UInt8) :
    Coherent c baseIv hash (s.dump c baseIv f ⟨f.key, curFile⟩ curFile block data) := by
  refine ⟨h.formed, fun file b d hd => ?_⟩
  unfold FileSets.dump at hd
  by_cases hfile : file = ⟨f.key, curFile⟩
  · subst hfile
    by_cases hb : b = block
    · subst hb
      simp only [Function.update_self] at hd
      cases hd
      exact ⟨hf.salt, rfl, by simp [FileSets.dump]⟩
    · simp only [Function.update_self, Function.update_of_ne hb] at hd
      obtain ⟨hsalt, hnum, hstored⟩ := h.kept _ b d hd
      exact ⟨hsalt, hnum, by simpa [FileSets.dump, hb] using hstored⟩
  · simp only [Function.update_of_ne hfile] at hd
    obtain ⟨hsalt, hnum, hstored⟩ := h.kept file b d hd
    exact ⟨hsalt, hnum, by simpa [FileSets.dump, hfile] using hstored⟩

theorem Coherent.step {s t : FileSets} {op : Op} (h : Coherent c baseIv hash s)
    (hstep : s.step c baseIv hash op = some t) : Coherent c baseIv hash t := by
  cases op with
  | create fd key =>
      cases hstep
      have hnew : Formed hash ⟨key, bufFileInitCryptSalt hash key, [⟨key, 0⟩], false⟩ := by
        have hown : ∀ (i : ℕ) (file : SegmentFile), [(⟨key, 0⟩ : SegmentFile)][i]? = some file →
            file = ⟨key, i⟩ := by
          intro i file hi
          rw [List.getElem?_singleton] at hi
          split at hi
          · rename_i hzero
            cases hi
            rw [hzero]
          · cases hi
        exact ⟨rfl, by simp, fun i file hi => Or.inl (hown i file hi), fun _ => hown⟩
      refine ⟨(h.put hnew fd).formed, fun file block d hd => ?_⟩
      by_cases hkey : file.key = key
      · simp only [hkey, if_true] at hd
        cases hd
      · simp only [hkey, if_false] at hd
        obtain ⟨hsalt, hnum, hstored⟩ := h.kept file block d hd
        exact ⟨hsalt, hnum, by simpa only [hkey, if_false] using hstored⟩
  | openFile fd key =>
      simp only [FileSets.step] at hstep
      split at hstep
      · cases hstep
      · rename_i hsome
        cases hstep
        refine h.put ⟨rfl, by simp [hsome], fun i file hi => Or.inl ?_, fun hw => ?_⟩ fd
        · rw [List.getElem?_map, List.getElem?_range] at hi
          · cases hi
            rfl
          · by_contra hge
            rw [List.getElem?_eq_none (by simpa using hge)] at hi
            cases hi
        · cases hw
  | append target source =>
      simp only [FileSets.step] at hstep
      split at hstep
      · rename_i f g hf hg
        split at hstep
        · rename_i hread
          cases hstep
          exact h.put ((h.formed _ f hf).append (h.formed _ g hg) hread.1) target
        · cases hstep
      · cases hstep
  | dump fd curFile block data =>
      simp only [FileSets.step] at hstep
      split at hstep
      · cases hstep
      · rename_i f hf
        split at hstep
        · cases hstep
        · rename_i hwrite
          obtain ⟨hext, hwriter⟩ := (h.formed fd f hf).extended (by simpa using hwrite) curFile
          split at hstep
          · cases hstep
          · rename_i file hfile
            cases hstep
            rw [hext.writer hwriter curFile file hfile]
            exact (h.put hext fd).dump hext block data

theorem Reachable.coherent {s : FileSets} (h : Reachable c baseIv hash s) :
    Coherent c baseIv hash s := by
  induction h with
  | init => exact ⟨fun fd f hf => (by cases hf), fun file block d hd => (by cases hd)⟩
  | step _ op hstep ih => exact ih.step hstep

end FileSets

/-- A block that is read through any file that any processes have opened or joined: the salt and the
block number are those it was written with just when the file it is in has the place in the file it is
read through that it was made for. In that case its bytes are those that were written. -/
theorem shared_files_agree (c : TempCipher) (baseIv : TempIv)
    (hash : List UInt8 → UInt64 → UInt64) (s : FileSets) (hs : FileSets.Reachable c baseIv hash s)
    (fd : ℕ) (f : SharedBufFile) (hf : s.handles fd = some f) (curFile block : ℕ)
    (file : SegmentFile) (hfile : f.files[curFile]? = some file) (d : DumpedBlock)
    (hd : s.written file block = some d) :
    ((f.cryptSalt = d.salt ∧ FileSets.blocknum curFile block = d.blocknum) ↔
        file = ⟨f.key, curFile⟩) ∧
      (file = ⟨f.key, curFile⟩ → s.load c baseIv f curFile block = some d.data) := by
  have hcoherent := hs.coherent
  have hformed := hcoherent.formed fd f hf
  have hkept := hcoherent.kept file block d hd
  have hagree : file = ⟨f.key, curFile⟩ →
      f.cryptSalt = d.salt ∧ FileSets.blocknum curFile block = d.blocknum := by
    intro hown
    rw [hformed.salt, hkept.salt, hkept.blocknum, hown]
    exact ⟨rfl, rfl⟩
  refine ⟨⟨fun hsame => ?_, hagree⟩, fun hown => ?_⟩
  · rcases hformed.files curFile file hfile with hown | hmoved
    · exact hown
    · -- a file that was moved has another block number
      have hnum := hsame.2.trans hkept.blocknum
      unfold FileSets.blocknum buffileSegSize at hnum
      omega
  · obtain ⟨hsalt, hnum⟩ := hagree hown
    unfold FileSets.load
    rw [hfile]
    show (s.blocks file block).map _ = _
    rw [hkept.stored, Option.map_some, hsalt, hnum, tempfileDecrypt_tempfileEncrypt]

/-- A hash that tells short names apart. -/
def sampleHash (buf : List UInt8) (seed : UInt64) : UInt64 :=
  UInt64.ofNat (buf.foldl (fun n b => 31 * n + b.toNat) 0) + seed

/-- Two workers write a tape each. -/
def sampleTapes : List FileSets.Op :=
  [.create 0 ⟨7, 0, [48]⟩, .create 1 ⟨7, 0, [49]⟩, .dump 0 0 0 (List.replicate 16 5),
    .dump 1 0 0 (List.replicate 16 6), .openFile 2 ⟨7, 0, [48]⟩, .openFile 3 ⟨7, 0, [49]⟩]

/-- What there is to see of a block through an open file: the name of that, the file the block is in,
what was written and what is read. -/
def seenThrough (ops : List FileSets.Op) (fd curFile block : ℕ) :
    Option (FileSetName × SegmentFile × List UInt8 × List UInt8) := do
  let s ← FileSets.init.run sampleTempCipher (fun _ => 0) sampleHash ops
  let f ← s.handles fd
  let file ← f.files[curFile]?
  let d ← s.written file block
  let bytes ← s.load sampleTempCipher (fun _ => 0) f curFile block
  pure (f.key, file, d.data, bytes)

theorem exists_of_seenThrough {ops : List FileSets.Op} {fd curFile block : ℕ} {key : FileSetName}
    {file : SegmentFile} {data bytes : List UInt8}
    (h : seenThrough ops fd curFile block = some (key, file, data, bytes)) :
    ∃ s f d, FileSets.Reachable sampleTempCipher (fun _ => 0) sampleHash s ∧
      s.handles fd = some f ∧ f.key = key ∧ f.files[curFile]? = some file ∧
      s.written file block = some d ∧ d.data = data ∧ s.load sampleTempCipher (fun _ => 0) f curFile block = some bytes := by
  obtain ⟨s, hs, h⟩ := Option.bind_eq_some_iff.mp h
  obtain ⟨f, hf, h⟩ := Option.bind_eq_some_iff.mp h
  obtain ⟨file', hfile, h⟩ := Option.bind_eq_some_iff.mp h
  obtain ⟨d, hd, h⟩ := Option.bind_eq_some_iff.mp h
  obtain ⟨bytes', hload, h⟩ := Option.bind_eq_some_iff.mp h
  cases h
  exact ⟨s, f, d, FileSets.Reachable.init.run _ _ _ ops hs, hf, rfl, hfile, hd, rfl, hload⟩

/-- The leader reads the first tape. -/
theorem shared_files_agree_first_tape : ∃ (s : FileSets) (f : SharedBufFile),
    s.handles 2 = some f ∧
      s.load sampleTempCipher (fun _ => 0) f 0 0 = some (List.replicate 16 5) := by
  obtain ⟨s, f, d, hs, hf, hkey, hfile, hd, hdata, -⟩ := exists_of_seenThrough
    (show seenThrough sampleTapes 2 0 0 = some (⟨7, 0, [48]⟩, ⟨⟨7, 0, [48]⟩, 0⟩,
      List.replicate 16 5, List.replicate 16 5) by decide +kernel)
  rw [← hdata]
  exact ⟨s, f, hf, (shared_files_agree sampleTempCipher _ sampleHash s hs 2 f hf 0 0 _ hfile d
    hd).2 (by rw [hkey])⟩

/-- The leader joins the second tape to the first and reads it there: what it gets is not what the
worker wrote. -/
theorem joined_files_disagree : ∃ (s : FileSets) (f : SharedBufFile) (file : SegmentFile)
    (d : DumpedBlock),
    FileSets.Reachable sampleTempCipher (fun _ => 0) sampleHash s ∧ s.handles 2 = some f ∧
      f.files[1]? = some file ∧ s.written file 0 = some d ∧
      ¬(f.cryptSalt = d.salt ∧ FileSets.blocknum 1 0 = d.blocknum) ∧
      s.load sampleTempCipher (fun _ => 0) f 1 0 ≠ some d.data := by
  obtain ⟨s, f, d, hs, hf, hkey, hfile, hd, hdata, hload⟩ := exists_of_seenThrough
    (show seenThrough (sampleTapes ++ [FileSets.Op.append 2 3]) 2 1 0 = some (⟨7, 0, [48]⟩,
      ⟨⟨7, 0, [49]⟩, 0⟩, List.replicate 16 6, List.replicate 16 10) by decide +kernel)
  have hkept := hs.coherent.kept _ _ d hd
  refine ⟨s, f, _, d, hs, hf, hfile, hd, fun hsame => ?_, ?_⟩
  · have hnum : FileSets.blocknum 1 0 = FileSets.blocknum 0 0 := hsame.2.trans hkept.blocknum
    exact absurd hnum (by decide)
  · rw [hload, hdata]
    decide

end OpenPgTde
