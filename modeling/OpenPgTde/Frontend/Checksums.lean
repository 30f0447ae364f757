import OpenPgTde.Frontend.DataDirectory
import OpenPgTde.Rewind.Relations

/-!
Data checksums of a stopped server (`scan_file` and `main` of `pg_checksums/pg_checksums.c`).

A page has its checksum in its header, and the checksum is that of the page as it is before it is encrypted.
To enable checksums, every block of every file is read, decrypted, given its checksum, encrypted again, and
written where it was. If all of that has succeeded, the control file says that there are checksums. The
counters are those of one run.

`pg_checksums_contents` says that no run, however it ends, changes anything but checksums, and
`pg_checksums_enable` that a run that has enabled them leaves nothing for later runs to complain of.
-/

namespace OpenPgTde

open Lib.Effect

/-! ### Page headers -/

/-- `pd_checksum`. -/
def pdChecksum (page : Page) : UInt16 :=
  UInt16.ofNat (leValue [page ⟨8, by decide⟩, page ⟨9, by decide⟩])

def setPdChecksum (page : Page) (csum : UInt16) : Page :=
  Function.update (Function.update page ⟨8, by decide⟩ (UInt8.ofNat csum.toNat)) ⟨9, by decide⟩
    (UInt8.ofNat (csum.toNat / 256))

/-- `PageIsNew`: `pd_upper` is zero. -/
def pageIsNew (page : Page) : Bool := page ⟨14, by decide⟩ = 0 && page ⟨15, by decide⟩ = 0

/-- Two pages that differ in their checksums at most. -/
def SameContents (page page' : Page) : Prop := ∀ i : Fin blckSz, i.val ≠ 8 → i.val ≠ 9 → page' i = page i

section Header

variable {page page' page'' : Page} {csum : UInt16}

theorem setPdChecksum_other {i : Fin blckSz} (h8 : i.val ≠ 8) (h9 : i.val ≠ 9) :
    setPdChecksum page csum i = page i := by
  unfold setPdChecksum
  rw [Function.update_of_ne, Function.update_of_ne]
  · rintro rfl
    exact h8 rfl
  · rintro rfl
    exact h9 rfl

theorem sameContents_set (page : Page) (csum : UInt16) : SameContents page (setPdChecksum page csum) :=
  fun _ h8 h9 => setPdChecksum_other h8 h9

theorem SameContents.refl (page : Page) : SameContents page page := fun _ _ _ => rfl

theorem SameContents.trans (h : SameContents page page') (h' : SameContents page' page'') :
    SameContents page page'' := fun i h8 h9 => (h' i h8 h9).trans (h i h8 h9)

@[simp] theorem pdChecksum_set (page : Page) (csum : UInt16) :
    pdChecksum (setPdChecksum page csum) = csum := by
  have h8 : setPdChecksum page csum ⟨8, by decide⟩ = UInt8.ofNat csum.toNat := by
    unfold setPdChecksum
    rw [Function.update_of_ne (by decide), Function.update_self]
  have h9 : setPdChecksum page csum ⟨9, by decide⟩ = UInt8.ofNat (csum.toNat / 256) :=
    Function.update_self ..
  have hvalue := leValue_leBytes 2 csum.toNat
  have hlt : csum.toNat < 256 ^ 2 := csum.toNat_lt
  rw [Nat.mod_eq_of_lt hlt] at hvalue
  rw [pdChecksum, h8, h9]
  show UInt16.ofNat (leValue (leBytes 2 csum.toNat)) = csum
  rw [hvalue, UInt16.ofNat_toNat]

@[simp] theorem pageIsNew_set (page : Page) (csum : UInt16) :
    pageIsNew (setPdChecksum page csum) = pageIsNew page := by
  unfold pageIsNew
  rw [setPdChecksum_other (by decide) (by decide), setPdChecksum_other (by decide) (by decide)]

@[simp] theorem setPdChecksum_set (page : Page) (csum csum' : UInt16) :
    setPdChecksum (setPdChecksum page csum) csum' = setPdChecksum page csum' := by
  funext i
  by_cases h9 : i = ⟨9, by decide⟩
  · subst h9
    unfold setPdChecksum
    rw [Function.update_self, Function.update_self]
  · by_cases h8 : i = ⟨8, by decide⟩
    · subst h8
      unfold setPdChecksum
      rw [Function.update_of_ne (by decide), Function.update_self, Function.update_of_ne (by decide),
        Function.update_self]
    · rw [setPdChecksum_other (fun h => h8 (Fin.ext h)) fun h => h9 (Fin.ext h),
        setPdChecksum_other (fun h => h8 (Fin.ext h)) fun h => h9 (Fin.ext h),
        setPdChecksum_other (fun h => h8 (Fin.ext h)) fun h => h9 (Fin.ext h)]

end Header

/-! ### State -/

/-- Whole pages, and how many bytes are behind them. -/
structure ChecksumFile where
  pages : List Page
  rest : ℕ

/-- `mode`. -/
inductive PgChecksumMode
  | check
  | disable
  | enable
  deriving DecidableEq, Repr

/-- What a run depends on: the tree of files, the ciphers, `open_pg_tde_get_smgr_key` (`none` is a fatal
error), `pg_checksum_page`, whether the server is shut down, and which blocks can be read and written,
counted from the first one. -/
structure ChecksumEnv where
  scan : DirScan
  root : DirEntries
  c : PageCipher
  getSmgrKey : RelFileLocator → Option (Option InternalKey)
  pgChecksumPage : Page → ℕ → UInt16
  shutDown : Bool
  readOk : ℕ → Bool
  writeOk : ℕ → Bool

structure ChecksumState where
  files : List (List UInt8) → Option ChecksumFile
  dataChecksumVersion : ℕ
  filesScanned : ℕ
  filesWritten : ℕ
  blocksScanned : ℕ
  blocksWritten : ℕ
  badblocks : ℕ

inductive ChecksumError
  | filenodeWithoutCheck
  | notShutDown
  | notEnabled
  | alreadyDisabled
  | alreadyEnabled
  | scan (e : ScanError)
  | couldNotOpen (fn : List (List UInt8))
  | noKey (rlocator : RelFileLocator)
  | couldNotRead (fn : List (List UInt8)) (blockno : ℕ)
  | readPart (fn : List (List UInt8)) (r : ℕ)
  | couldNotWrite (fn : List (List UInt8)) (blockno : ℕ)
  | badblocks
  deriving DecidableEq

abbrev CM := EStateM ChecksumError ChecksumState

def ChecksumState.putBlock (s : ChecksumState) (fn : List (List UInt8)) (blockno : ℕ) (buf : Page) :
    ChecksumState :=
  let file := (s.files fn).map fun file => { file with pages := file.pages.set blockno buf }
  { s with files := Function.update s.files fn file }

/-! ### One file -/

/-- The number that is mixed into the checksum and into the vector. -/
def ScanItem.block (item : ScanItem) (blockno : ℕ) : ℕ :=
  (blockno + item.segmentno.toNat * relSegSize) % 2 ^ 32

/-- The key of a file; one with an unknown fork is taken for one that is not encrypted. -/
def itemKey (env : ChecksumEnv) (item : ScanItem) : CM (Option (InternalKey × ForkNumber)) :=
  match item.forknum with
  | none => pure none
  | some forknum =>
    match env.getSmgrKey item.locator with
    | none => throw (.noKey item.locator)
    | some key => pure (key.map fun key => (key, forknum))

def decryptBlock (env : ChecksumEnv) (key : Option (InternalKey × ForkNumber)) (block : ℕ) (buf : Page) :
    Page :=
  match key with
  | none => buf
  | some (key, forknum) => tdeDecryptSmgrBlock env.c key forknum block buf

def encryptBlock (env : ChecksumEnv) (key : Option (InternalKey × ForkNumber)) (block : ℕ) (buf : Page) :
    Page :=
  match key with
  | none => buf
  | some (key, forknum) => tdeEncryptSmgrBlock env.c key forknum block buf

/-- What the loop of `scan_file` does with a block, and whether it is written. -/
def scanBlock (env : ChecksumEnv) (mode : PgChecksumMode) (item : ScanItem)
    (key : Option (InternalKey × ForkNumber)) (blockno : ℕ) (buf : Page) : CM Bool :=
  let buf := decryptBlock env key (item.block blockno) buf
  let csum := env.pgChecksumPage buf (item.block blockno)
  if pageIsNew buf ∨ csum = pdChecksum buf then pure false
  else
    match mode with
    | .check => do
      modify fun s => { s with badblocks := s.badblocks + 1 }
      pure false
    | .disable => pure false
    | .enable => do
      let buf := encryptBlock env key (item.block blockno) (setPdChecksum buf csum)
      let s ← get
      if env.writeOk s.blocksScanned then do
        set (s.putBlock item.fn blockno buf)
        pure true
      else throw (.couldNotWrite item.fn blockno)

/-- The loop of `scan_file`, and how many blocks were written. -/
def scanBlocks (env : ChecksumEnv) (mode : PgChecksumMode) (item : ScanItem)
    (key : Option (InternalKey × ForkNumber)) : List Page → ℕ → CM ℕ
  | [], _ => pure 0
  | buf :: pages, blockno => do
    let s ← get
    if env.readOk s.blocksScanned then do
      set { s with blocksScanned := s.blocksScanned + 1 }
      let written ← scanBlock env mode item key blockno buf
      let more ← scanBlocks env mode item key pages (blockno + 1)
      pure (if written then more + 1 else more)
    else throw (.couldNotRead item.fn blockno)

/-- `scan_file`. -/
def scanFile (env : ChecksumEnv) (mode : PgChecksumMode) (item : ScanItem) : CM Unit := do
  let s ← get
  match s.files item.fn with
  | none => throw (.couldNotOpen item.fn)
  | some file => do
    set { s with filesScanned := s.filesScanned + 1 }
    let key ← itemKey env item
    let written ← scanBlocks env mode item key file.pages 0
    if file.rest ≠ 0 then throw (.readPart item.fn file.rest)
    else if written = 0 then pure ()
    else modify fun s =>
      { s with filesWritten := s.filesWritten + 1, blocksWritten := s.blocksWritten + written }

/-! ### The whole run -/

def performScan (env : ChecksumEnv) (mode : PgChecksumMode) : ScanStep → CM Unit
  | .scan item => scanFile env mode item
  | .fatal e => throw (.scan e)

/-- What `main` objects to, given what the control file says. -/
def checkMode (env : ChecksumEnv) (mode : PgChecksumMode) (dataChecksumVersion : ℕ) :
    Option ChecksumError :=
  if mode ≠ .check ∧ env.scan.onlyFilenode.isSome then some .filenodeWithoutCheck
  else if env.shutDown = false then some .notShutDown
  else if dataChecksumVersion = 0 ∧ mode = .check then some .notEnabled
  else if dataChecksumVersion = 0 ∧ mode = .disable then some .alreadyDisabled
  else if 0 < dataChecksumVersion ∧ mode = .enable then some .alreadyEnabled
  else none

/-- `main`. -/
def pgChecksums (env : ChecksumEnv) (mode : PgChecksumMode) : CM Unit := do
  let s ← get
  set (⟨s.files, s.dataChecksumVersion, 0, 0, 0, 0, 0⟩ : ChecksumState)
  match checkMode env mode s.dataChecksumVersion with
  | some e => throw e
  | none => do
    if mode = .disable then pure ()
    else forM (scanDataDirectory env.scan env.root) (performScan env mode)
    let s ← get
    if mode = .check then
      if 0 < s.badblocks then throw .badblocks else pure ()
    else set { s with dataChecksumVersion := if mode = PgChecksumMode.enable then 1 else 0 }

/-! ### What happens to a block -/

/-- The key that a file is read with, unless looking for it is a fatal error. -/
def ChecksumEnv.keyOf (env : ChecksumEnv) (item : ScanItem) : Option (Option (InternalKey × ForkNumber)) :=
  match item.forknum with
  | none => some none
  | some forknum => (env.getSmgrKey item.locator).map fun key => key.map fun key => (key, forknum)

/-- A block of a file as it is before it is encrypted. -/
def ChecksumEnv.read (env : ChecksumEnv) (item : ScanItem) (blockno : ℕ) (page : Page) : Page :=
  decryptBlock env ((env.keyOf item).getD none) (item.block blockno) page

def ChecksumEnv.checksum (env : ChecksumEnv) (item : ScanItem) (blockno : ℕ) (page : Page) : UInt16 :=
  env.pgChecksumPage (env.read item blockno page) (item.block blockno)

/-- The block is new, or it has its checksum. -/
def GoodBlock (env : ChecksumEnv) (item : ScanItem) (blockno : ℕ) (page : Page) : Prop :=
  pageIsNew (env.read item blockno page) ∨
    env.checksum item blockno page = pdChecksum (env.read item blockno page)

/-- The block is the same, or it got its checksum. -/
def BlockStep (env : ChecksumEnv) (item : ScanItem) (blockno : ℕ) (page page' : Page) : Prop :=
  page' = page ∨
    env.read item blockno page' =
      setPdChecksum (env.read item blockno page) (env.checksum item blockno page)

/-- With its checksum the block does not look as if it had never been written. -/
def Storable (env : ChecksumEnv) (item : ScanItem) (blockno : ℕ) (page : Page) : Prop :=
  ∀ key forknum, env.keyOf item = some (some (key, forknum)) →
    NoZeroPrefix env.c (some key) forknum (item.block blockno)
      (setPdChecksum (env.read item blockno page) (env.checksum item blockno page))

/-- The checksum of a page does not depend on what stands in its place. -/
def ChecksumEnv.Apart (env : ChecksumEnv) : Prop :=
  ∀ page csum block, env.pgChecksumPage (setPdChecksum page csum) block = env.pgChecksumPage page block

section Block

variable {env : ChecksumEnv} {item : ScanItem} {blockno : ℕ} {page page' page'' : Page}
  {s t : ChecksumState} {key : Option (InternalKey × ForkNumber)}

theorem BlockStep.same (h : BlockStep env item blockno page page') :
    SameContents (env.read item blockno page) (env.read item blockno page') := by
  obtain rfl | h := h
  · exact .refl _
  · rw [h]
    exact sameContents_set _ _

/-- What is there besides the checksum decides what the checksum must be. -/
theorem BlockStep.checksum (hapart : env.Apart) (h : BlockStep env item blockno page page') :
    env.checksum item blockno page' = env.checksum item blockno page ∧
      setPdChecksum (env.read item blockno page') (env.checksum item blockno page') =
        setPdChecksum (env.read item blockno page) (env.checksum item blockno page) := by
  obtain rfl | h := h
  · exact ⟨rfl, rfl⟩
  · have hsum : env.checksum item blockno page' = env.checksum item blockno page := by
      rw [ChecksumEnv.checksum, h, hapart, ← ChecksumEnv.checksum]
    refine ⟨hsum, ?_⟩
    rw [hsum, h, setPdChecksum_set]

theorem BlockStep.trans (hapart : env.Apart) (h : BlockStep env item blockno page page')
    (h' : BlockStep env item blockno page' page'') : BlockStep env item blockno page page'' := by
  obtain rfl | h' := h'
  · exact h
  · rw [(h.checksum hapart).2] at h'
    exact .inr h'

theorem goodBlock_of_read (hapart : env.Apart)
    (h : env.read item blockno page' =
      setPdChecksum (env.read item blockno page) (env.checksum item blockno page)) :
    GoodBlock env item blockno page' := by
  have hstep : BlockStep env item blockno page page' := .inr h
  right
  rw [(hstep.checksum hapart).1, h, pdChecksum_set]

theorem BlockStep.good (hapart : env.Apart) (h : BlockStep env item blockno page page')
    (hgood : GoodBlock env item blockno page) : GoodBlock env item blockno page' := by
  obtain rfl | h := h
  · exact hgood
  · exact goodBlock_of_read hapart h

theorem BlockStep.storable (hapart : env.Apart) (h : BlockStep env item blockno page page')
    (hs : Storable env item blockno page) : Storable env item blockno page' := by
  unfold Storable
  rw [(h.checksum hapart).2]
  exact hs

theorem itemKey_spec : wp (itemKey env item) (fun key t => t = s ∧ env.keyOf item = some key)
    (fun e t => t = s ∧ e = .noKey item.locator) s := by
  unfold itemKey ChecksumEnv.keyOf
  cases item.forknum with
  | none => exact ⟨rfl, rfl⟩
  | some forknum =>
      dsimp only
      cases env.getSmgrKey item.locator with
      | none => exact ⟨rfl, rfl⟩
      | some key => exact ⟨rfl, rfl⟩

theorem decrypt_encryptBlock (hkey : env.keyOf item = some key)
    (hs : Storable env item blockno page) :
    decryptBlock env key (item.block blockno) (encryptBlock env key (item.block blockno)
      (setPdChecksum (env.read item blockno page) (env.checksum item blockno page))) =
        setPdChecksum (env.read item blockno page) (env.checksum item blockno page) := by
  cases key with
  | none => rfl
  | some k => exact readPage_storedPage (hs k.1 k.2 hkey)

/-- A block has its checksum, or it is written with it. -/
theorem scanBlock_enable (hapart : env.Apart) (hkey : env.keyOf item = some key)
    (hs : Storable env item blockno page) :
    wp (scanBlock env .enable item key blockno page)
      (fun written t => t = s ∧ written = false ∧ GoodBlock env item blockno page ∨
        ∃ page', t = s.putBlock item.fn blockno page' ∧ BlockStep env item blockno page page' ∧
          GoodBlock env item blockno page')
      (fun _ t => t = s) s := by
  have hread : decryptBlock env key (item.block blockno) page = env.read item blockno page := by
    rw [ChecksumEnv.read, hkey, Option.getD_some]
  unfold scanBlock
  dsimp only
  rw [hread]
  split
  · next hgood => exact .inl ⟨rfl, rfl, hgood⟩
  · refine (wp_bind ..).2 ((wp_get ..).2 ?_)
    split
    · have hafter : env.read item blockno (encryptBlock env key (item.block blockno)
          (setPdChecksum (env.read item blockno page) (env.checksum item blockno page))) =
            setPdChecksum (env.read item blockno page) (env.checksum item blockno page) := by
        rw [ChecksumEnv.read, hkey, Option.getD_some]
        exact decrypt_encryptBlock hkey hs
      exact (wp_bind ..).2 ((wp_set ..).2 ((wp_pure ..).2
        (.inr ⟨_, rfl, .inr hafter, goodBlock_of_read hapart hafter⟩)))
    · exact rfl

/-- Nothing is done to a block that is as it should be. -/
theorem scanBlock_good (mode : PgChecksumMode) (hkey : env.keyOf item = some key)
    (hgood : GoodBlock env item blockno page) :
    scanBlock env mode item key blockno page = pure false := by
  unfold GoodBlock ChecksumEnv.checksum ChecksumEnv.read at hgood
  rw [hkey, Option.getD_some] at hgood
  exact if_pos hgood

/-- A block that is not as it should be is counted. -/
theorem scanBlock_check (hkey : env.keyOf item = some key) (hbad : ¬ GoodBlock env item blockno page) :
    scanBlock env .check item key blockno page =
      (modify fun s => { s with badblocks := s.badblocks + 1 }) >>= fun _ => pure false := by
  unfold GoodBlock ChecksumEnv.checksum ChecksumEnv.read at hbad
  rw [hkey, Option.getD_some] at hbad
  exact if_neg hbad

end Block

/-! ### What happens to the files -/

/-- The blocks of a file are the same, or got their checksums. -/
structure ChecksumStep (env : ChecksumEnv) (item : ScanItem) (file file' : ChecksumFile) : Prop where
  rest : file'.rest = file.rest
  length : file'.pages.length = file.pages.length
  block : ∀ i page page', file.pages[i]? = some page → file'.pages[i]? = some page' →
    BlockStep env item i page page'

/-- Nothing but the files that are scanned is written, and nothing but checksums is written there. -/
structure OnlyChecksums (env : ChecksumEnv) (s t : ChecksumState) : Prop where
  version : t.dataChecksumVersion = s.dataChecksumVersion
  missing : ∀ fn, s.files fn = none → t.files fn = none
  other : ∀ fn, (∀ item, .scan item ∈ scanDataDirectory env.scan env.root → item.fn ≠ fn) →
    t.files fn = s.files fn
  file : ∀ item file, .scan item ∈ scanDataDirectory env.scan env.root → s.files item.fn = some file →
    ∃ file', t.files item.fn = some file' ∧ ChecksumStep env item file file'

/-- What a run that only looks does to the state. -/
structure Checking (s t : ChecksumState) : Prop where
  files : t.files = s.files
  version : t.dataChecksumVersion = s.dataChecksumVersion
  badblocks : s.badblocks ≤ t.badblocks

theorem Checking.refl (s : ChecksumState) : Checking s s := ⟨rfl, rfl, le_rfl⟩

theorem Checking.trans {s t u : ChecksumState} (h : Checking s t) (h' : Checking t u) : Checking s u :=
  ⟨h'.files.trans h.files, h'.version.trans h.version, h.badblocks.trans h'.badblocks⟩

/-- No block of a file would look as if it had never been written. -/
def AllStorable (env : ChecksumEnv) (s : ChecksumState) : Prop :=
  ∀ item file, .scan item ∈ scanDataDirectory env.scan env.root → s.files item.fn = some file →
    ∀ i page, file.pages[i]? = some page → Storable env item i page

/-- All blocks of a file are as they should be. -/
def GoodFile (env : ChecksumEnv) (item : ScanItem) (s : ChecksumState) : Prop :=
  ∀ file, s.files item.fn = some file → ∀ i page, file.pages[i]? = some page → GoodBlock env item i page

section Files

variable {env : ChecksumEnv} {item : ScanItem} {blockno : ℕ} {page page' : Page}
  {file file' file'' : ChecksumFile} {s t u : ChecksumState} {key : Option (InternalKey × ForkNumber)}

theorem ChecksumStep.refl (env : ChecksumEnv) (item : ScanItem) (file : ChecksumFile) :
    ChecksumStep env item file file :=
  ⟨rfl, rfl, fun _ _ _ h h' => .inl (Option.some.inj (h'.symm.trans h))⟩

theorem ChecksumStep.exists_page (h : ChecksumStep env item file file') {i : ℕ} (hi : file'.pages[i]? = some page') :
    ∃ page, file.pages[i]? = some page := by
  obtain ⟨hlt, -⟩ := List.getElem?_eq_some_iff.1 hi
  exact ⟨_, List.getElem?_eq_getElem (h.length ▸ hlt)⟩

theorem ChecksumStep.trans (hapart : env.Apart) (h : ChecksumStep env item file file')
    (h' : ChecksumStep env item file' file'') : ChecksumStep env item file file'' := by
  refine ⟨h'.rest.trans h.rest, h'.length.trans h.length, fun i page page'' hi hi'' => ?_⟩
  obtain ⟨page', hi'⟩ := h'.exists_page hi''
  exact (h.block i page page' hi hi').trans hapart (h'.block i page' page'' hi' hi'')

theorem OnlyChecksums.refl (env : ChecksumEnv) (s : ChecksumState) : OnlyChecksums env s s :=
  ⟨rfl, fun _ h => h, fun _ _ => rfl, fun item file _ h => ⟨file, h, .refl env item file⟩⟩

theorem OnlyChecksums.trans (hapart : env.Apart) (h : OnlyChecksums env s t) (h' : OnlyChecksums env t u) :
    OnlyChecksums env s u := by
  refine ⟨h'.version.trans h.version, fun fn hfn => h'.missing fn (h.missing fn hfn),
    fun fn hfn => (h'.other fn hfn).trans (h.other fn hfn), fun item file hitem hfile => ?_⟩
  obtain ⟨file', hfile', hstep⟩ := h.file item file hitem hfile
  obtain ⟨file'', hfile'', hstep'⟩ := h'.file item file' hitem hfile'
  exact ⟨file'', hfile'', hstep.trans hapart hstep'⟩

/-- The same files, whatever the counters say. -/
theorem OnlyChecksums.of_files (hfiles : t.files = s.files)
    (hversion : t.dataChecksumVersion = s.dataChecksumVersion) : OnlyChecksums env s t := by
  refine ⟨hversion, fun fn hfn => hfiles ▸ hfn, fun fn _ => congrFun hfiles fn, fun item file _ hfile => ?_⟩
  exact ⟨file, hfiles ▸ hfile, .refl env item file⟩

/-- A block is written where it was read. -/
theorem onlyChecksums_putBlock (hitem : .scan item ∈ scanDataDirectory env.scan env.root)
    (hfile : s.files item.fn = some file) (hpage : file.pages[blockno]? = some page)
    (h : BlockStep env item blockno page page') :
    OnlyChecksums env s (s.putBlock item.fn blockno page') ∧
      (s.putBlock item.fn blockno page').files item.fn =
        some { file with pages := file.pages.set blockno page' } := by
  have hself : (s.putBlock item.fn blockno page').files item.fn =
      some { file with pages := file.pages.set blockno page' } := by
    show Function.update s.files item.fn _ item.fn = _
    rw [Function.update_self, hfile, Option.map_some]
  have hother : ∀ fn, item.fn ≠ fn → (s.putBlock item.fn blockno page').files fn = s.files fn :=
    fun fn hne => Function.update_of_ne hne.symm _ _
  refine ⟨⟨rfl, fun fn hfn => ?_, fun fn hfn => hother fn (hfn item hitem), fun item' file' hitem' hfile' => ?_⟩,
    hself⟩
  · rw [hother fn, hfn]
    rintro rfl
    rw [hfile] at hfn
    cases hfn
  · by_cases hfn : item.fn = item'.fn
    · obtain rfl := scanDataDirectory_fn hitem hitem' hfn
      obtain rfl := Option.some.inj (hfile.symm.trans hfile')
      refine ⟨_, hself, rfl, List.length_set, fun i a b ha hb => ?_⟩
      rw [List.getElem?_set] at hb
      split at hb
      · next hi =>
          subst hi
          obtain rfl := Option.some.inj (hpage.symm.trans ha)
          rw [if_pos (List.getElem?_eq_some_iff.1 ha).1] at hb
          exact Option.some.inj hb ▸ h
      · exact .inl (Option.some.inj (hb.symm.trans ha))
    · exact ⟨file', (hother _ hfn).trans hfile', .refl env item' file'⟩

/-- Every block there is was there, if without its checksum. -/
theorem OnlyChecksums.before (h : OnlyChecksums env s t)
    (hitem : .scan item ∈ scanDataDirectory env.scan env.root) (hfile : t.files item.fn = some file')
    {i : ℕ} (hi : file'.pages[i]? = some page') :
    ∃ file page, s.files item.fn = some file ∧ file.pages[i]? = some page ∧
      BlockStep env item i page page' := by
  cases hbefore : s.files item.fn with
  | none =>
      rw [h.missing _ hbefore] at hfile
      cases hfile
  | some file =>
      obtain ⟨file'', hafter, hstep⟩ := h.file item file hitem hbefore
      obtain rfl := Option.some.inj (hafter.symm.trans hfile)
      obtain ⟨page, hpage⟩ := hstep.exists_page hi
      exact ⟨file, page, rfl, hpage, hstep.block i page page' hpage hi⟩

theorem AllStorable.kept (hapart : env.Apart) (h : OnlyChecksums env s t) (hs : AllStorable env s) :
    AllStorable env t := by
  intro item file' hitem hfile' i page' hi'
  obtain ⟨file, page, hfile, hi, hstep⟩ := h.before hitem hfile' hi'
  exact hstep.storable hapart (hs item file hitem hfile i page hi)

theorem GoodFile.kept (hapart : env.Apart) (hitem : .scan item ∈ scanDataDirectory env.scan env.root)
    (h : OnlyChecksums env s t) (hs : GoodFile env item s) : GoodFile env item t := by
  intro file' hfile' i page' hi'
  obtain ⟨file, page, hfile, hi, hstep⟩ := h.before hitem hfile' hi'
  exact hstep.good hapart (hs file hfile i page hi)

/-- The loop has brought the blocks it has passed into order. -/
theorem scanBlocks_enable (hapart : env.Apart)
    (hitem : .scan item ∈ scanDataDirectory env.scan env.root) (hkey : env.keyOf item = some key)
    (pages : List Page) (hs : AllStorable env s) (hfile : s.files item.fn = some file)
    (hpages : file.pages.drop blockno = pages)
    (hbefore : ∀ i page, i < blockno → file.pages[i]? = some page → GoodBlock env item i page) :
    wp (scanBlocks env .enable item key pages blockno)
      (fun _ t => OnlyChecksums env s t ∧ GoodFile env item t) (fun _ t => OnlyChecksums env s t) s := by
  induction pages generalizing blockno s file with
  | nil =>
      refine (wp_pure ..).2 ⟨.refl env s, fun file' hfile' i page hi => ?_⟩
      obtain rfl := Option.some.inj (hfile.symm.trans hfile')
      exact hbefore i page ((List.getElem?_eq_some_iff.1 hi).1.trans_le (List.drop_eq_nil_iff.1 hpages)) hi
  | cons buf pages ih =>
      have hbuf : file.pages[blockno]? = some buf := by
        rw [← Nat.add_zero blockno, ← List.getElem?_drop, hpages, List.getElem?_cons_zero]
      have hrest : file.pages.drop (blockno + 1) = pages := by
        rw [← List.tail_drop, hpages, List.tail_cons]
      have hgo : ∀ u file' (k : ℕ → ℕ), OnlyChecksums env s u → u.files item.fn = some file' →
          file'.pages.drop (blockno + 1) = pages →
          (∀ page, file'.pages[blockno]? = some page → GoodBlock env item blockno page) →
          wp (scanBlocks env .enable item key pages (blockno + 1) >>= fun more => pure (k more))
            (fun _ t => OnlyChecksums env s t ∧ GoodFile env item t) (fun _ t => OnlyChecksums env s t) u := by
        intro u file' k hstep hfile' hpages' hgood
        refine (wp_bind ..).2 ((ih (hs.kept hapart hstep) hfile' hpages' fun i page hi hpage => ?_).mono
          (fun _ t ht => ⟨hstep.trans hapart ht.1, ht.2⟩) fun _ t ht => hstep.trans hapart ht)
        obtain hi | rfl := Nat.lt_succ_iff_lt_or_eq.1 hi
        · obtain ⟨file₀, page₀, hfile₀, hpage₀, hblock⟩ := hstep.before hitem hfile' hpage
          obtain rfl := Option.some.inj (hfile.symm.trans hfile₀)
          exact hblock.good hapart (hbefore i page₀ hi hpage₀)
        · exact hgood page hpage
      have hcounted : OnlyChecksums env s { s with blocksScanned := s.blocksScanned + 1 } := .of_files rfl rfl
      rw [scanBlocks]
      refine (wp_bind ..).2 ((wp_get ..).2 ?_)
      split
      · refine (wp_bind ..).2 ((wp_set ..).2 ((wp_bind ..).2 ?_))
        refine (scanBlock_enable hapart hkey (hs item file hitem hfile _ _ hbuf)).mono
          (fun written t ht => ?_) fun _ t ht => ht ▸ hcounted
        obtain ⟨rfl, -, hgood⟩ | ⟨page', rfl, hstep, hgood⟩ := ht
        · refine hgo _ file _ hcounted hfile hrest fun page hpage => ?_
          exact Option.some.inj (hbuf.symm.trans hpage) ▸ hgood
        · -- a block that is written changes none of those that are still to be read
          obtain ⟨hput, hself⟩ := @onlyChecksums_putBlock env item blockno buf page' file
            { s with blocksScanned := s.blocksScanned + 1 } hitem hfile hbuf hstep
          refine hgo _ _ _ (hcounted.trans hapart hput) hself ?_ fun page hpage => ?_
          · rw [List.drop_set_of_lt (Nat.lt_succ_self blockno)]
            exact hrest
          · rw [List.getElem?_set_self (List.getElem?_eq_some_iff.1 hbuf).1] at hpage
            exact Option.some.inj hpage ▸ hgood
      · exact .refl env s

/-- `scan_file`, when checksums are enabled. -/
theorem scanFile_enable (hapart : env.Apart) (hitem : .scan item ∈ scanDataDirectory env.scan env.root)
    (hs : AllStorable env s) :
    wp (scanFile env .enable item) (fun _ t => OnlyChecksums env s t ∧ GoodFile env item t)
      (fun _ t => OnlyChecksums env s t) s := by
  unfold scanFile
  refine (wp_bind ..).2 ((wp_get ..).2 ?_)
  split
  · exact .refl env s
  · next file hfile =>
      refine (wp_bind ..).2 ((wp_set ..).2 ((wp_bind ..).2 (itemKey_spec.mono (fun key t ht => ?_)
        fun _ t ht => ht.1 ▸ .of_files rfl rfl)))
      obtain ⟨rfl, hkey⟩ := ht
      have hcounted : OnlyChecksums env s { s with filesScanned := s.filesScanned + 1 } := .of_files rfl rfl
      refine (wp_bind ..).2 ((scanBlocks_enable hapart hitem hkey file.pages (hs.kept hapart hcounted) hfile
        rfl fun i page hi _ => absurd hi (Nat.not_lt_zero i)).mono (fun written u hu => ?_)
        fun _ u hu => hcounted.trans hapart hu)
      have hdone := hcounted.trans hapart hu.1
      split
      · exact hdone
      · split
        · exact ⟨hdone, hu.2⟩
        · exact ⟨hdone.trans hapart (.of_files rfl rfl), hu.2⟩

/-- The pass over the data directory. -/
theorem forM_enable (hapart : env.Apart) (hs : AllStorable env s) :
    wp (forM (scanDataDirectory env.scan env.root) (performScan env .enable))
      (fun _ t => OnlyChecksums env s t ∧
        ∀ item, .scan item ∈ scanDataDirectory env.scan env.root → GoodFile env item t)
      (fun _ t => OnlyChecksums env s t) s := by
  refine (wp_forM_each (fun t => OnlyChecksums env s t)
    (fun step t => ∀ item, step = .scan item → step ∈ scanDataDirectory env.scan env.root →
      GoodFile env item t)
    (performScan env .enable) (scanDataDirectory env.scan env.root) (.refl env s) fun step hstep t ht => ?_).mono
    (fun _ t ht => ⟨ht.1, fun item hitem => ht.2 _ hitem item rfl hitem⟩) fun _ _ h => h
  cases step with
  | fatal e => exact ht
  | scan item =>
      refine (scanFile_enable hapart hstep (hs.kept hapart ht)).mono (fun _ u hu => ?_)
        fun _ u hu => ht.trans hapart hu
      refine ⟨ht.trans hapart hu.1, fun item' hitem' _ => ScanStep.scan.inj hitem' ▸ hu.2, ?_⟩
      rintro step' hgood item' rfl hmem
      exact (hgood item' rfl hmem).kept hapart hmem hu.1

/-- A block that is as it should be is passed over, and one that is not is counted. -/
theorem scanBlocks_check (hkey : env.keyOf item = some key) (pages : List Page) :
    wp (scanBlocks env .check item key pages blockno)
      (fun written t => written = 0 ∧ Checking s t ∧ (t.badblocks = s.badblocks ↔
        ∀ i page, pages[i]? = some page → GoodBlock env item (blockno + i) page))
      (fun e t => Checking s t ∧ e ≠ .badblocks) s := by
  induction pages generalizing blockno s with
  | nil => exact (wp_pure ..).2 ⟨rfl, .refl s, by simp⟩
  | cons buf pages ih =>
      have hcons : (∀ i page, (buf :: pages)[i]? = some page → GoodBlock env item (blockno + i) page) ↔
          GoodBlock env item blockno buf ∧
            ∀ i page, pages[i]? = some page → GoodBlock env item (blockno + 1 + i) page := by
        refine ⟨fun h => ⟨h 0 buf rfl, fun i page hi => ?_⟩, fun h i page hi => ?_⟩
        · rw [Nat.add_assoc, Nat.add_comm 1]
          exact h (i + 1) page hi
        · cases i with
          | zero => exact Option.some.inj hi ▸ h.1
          | succ i =>
              rw [Nat.add_comm i, ← Nat.add_assoc]
              exact h.2 i page hi
      rw [scanBlocks]
      refine (wp_bind ..).2 ((wp_get ..).2 ?_)
      split
      · refine (wp_bind ..).2 ((wp_set ..).2 ?_)
        by_cases hgood : GoodBlock env item blockno buf
        · rw [scanBlock_good .check hkey hgood]
          refine (wp_bind ..).2 ((wp_pure ..).2 ((wp_bind ..).2 (ih.mono (fun more t ht => ?_) ?_)))
          · exact ⟨ht.1, ⟨ht.2.1.files, ht.2.1.version, ht.2.1.badblocks⟩,
              ht.2.2.trans ((and_iff_right hgood).symm.trans hcons.symm)⟩
          · exact fun e t ht => ⟨⟨ht.1.files, ht.1.version, ht.1.badblocks⟩, ht.2⟩
        · rw [scanBlock_check hkey hgood]
          refine (wp_bind ..).2 ((wp_bind ..).2 ((wp_modify ..).2 ((wp_pure ..).2 ((wp_bind ..).2
            (ih.mono (fun more t ht => ?_) ?_)))))
          · have hle : s.badblocks + 1 ≤ t.badblocks := ht.2.1.badblocks
            refine ⟨ht.1, ⟨ht.2.1.files, ht.2.1.version, by omega⟩, ?_⟩
            exact ⟨fun h => absurd h (by omega), fun h => absurd (hcons.1 h).1 hgood⟩
          · intro e t ht
            have hle : s.badblocks + 1 ≤ t.badblocks := ht.1.badblocks
            exact ⟨⟨ht.1.files, ht.1.version, by omega⟩, ht.2⟩
      · exact ⟨.refl s, fun h => by cases h⟩

/-- `scan_file`, when checksums are verified. -/
theorem scanFile_check :
    wp (scanFile env .check item)
      (fun _ t => Checking s t ∧ (t.badblocks = s.badblocks ↔ GoodFile env item s))
      (fun e t => Checking s t ∧ e ≠ .badblocks) s := by
  unfold scanFile
  refine (wp_bind ..).2 ((wp_get ..).2 ?_)
  split
  · exact ⟨.refl s, fun h => by cases h⟩
  · next file hfile =>
      have hgood : GoodFile env item s ↔
          ∀ i page, file.pages[i]? = some page → GoodBlock env item (0 + i) page := by
        refine ⟨fun h i page hi => (Nat.zero_add i).symm ▸ h file hfile i page hi, fun h file' hfile' i page hi => ?_⟩
        obtain rfl := Option.some.inj (hfile.symm.trans hfile')
        exact Nat.zero_add i ▸ h i page hi
      refine (wp_bind ..).2 ((wp_set ..).2 ((wp_bind ..).2 (itemKey_spec.mono (fun key t ht => ?_) ?_)))
      · obtain ⟨rfl, hkey⟩ := ht
        refine (wp_bind ..).2 ((scanBlocks_check hkey file.pages).mono (fun written u hu => ?_) ?_)
        · obtain ⟨rfl, hu, hcount⟩ := hu
          have hsame : Checking s u := ⟨hu.files, hu.version, hu.badblocks⟩
          split
          · exact ⟨hsame, fun h => by cases h⟩
          · exact ⟨hsame, hcount.trans hgood.symm⟩
        · exact fun e u hu => ⟨⟨hu.1.files, hu.1.version, hu.1.badblocks⟩, hu.2⟩
      · rintro e t ⟨rfl, rfl⟩
        exact ⟨⟨rfl, rfl, le_rfl⟩, fun h => by cases h⟩

theorem GoodFile.of_files (hfiles : t.files = s.files) (h : GoodFile env item s) : GoodFile env item t :=
  fun file hfile => h file (hfiles ▸ hfile)

/-- The pass over the data directory, when it only looks. -/
theorem forM_check (plan : List ScanStep) :
    wp (forM plan (performScan env .check))
      (fun _ t => Checking s t ∧
        (t.badblocks = s.badblocks ↔ ∀ item, .scan item ∈ plan → GoodFile env item s))
      (fun e t => Checking s t ∧ e ≠ .badblocks) s := by
  induction plan generalizing s with
  | nil => exact ⟨.refl s, by simp⟩
  | cons step plan ih =>
      rw [List.forM_cons, wp_bind]
      cases step with
      | fatal e => exact ⟨.refl s, fun h => by cases h⟩
      | scan item =>
          refine scanFile_check.mono (fun _ t ht => ih.mono (fun _ u hu => ?_) ?_) fun _ _ h => h
          · have hle := ht.1.badblocks
            have hle' := hu.1.badblocks
            have hsplit : u.badblocks = s.badblocks ↔
                u.badblocks = t.badblocks ∧ t.badblocks = s.badblocks := by omega
            refine ⟨ht.1.trans hu.1, ?_⟩
            rw [hsplit, ht.2, hu.2]
            refine ⟨fun h item' hmem => ?_, fun h => ⟨fun item' hmem => ?_, ?_⟩⟩
            · obtain heq | hmem := List.mem_cons.1 hmem
              · exact ScanStep.scan.inj heq ▸ h.2
              · exact (h.1 item' hmem).of_files ht.1.files.symm
            · exact (h item' (List.mem_cons_of_mem _ hmem)).of_files ht.1.files
            · exact h item List.mem_cons_self
          · exact fun e u hu => ⟨ht.1.trans hu.1, hu.2⟩

end Files

/-! ### The whole run -/

section Main

variable {env : ChecksumEnv} {s : ChecksumState} {mode : PgChecksumMode}

/-- The state in which the pass over the data directory starts. -/
def ChecksumState.fresh (s : ChecksumState) : ChecksumState := ⟨s.files, s.dataChecksumVersion, 0, 0, 0, 0, 0⟩

theorem checkMode_ne_badblocks {version : ℕ} {e : ChecksumError} (h : checkMode env mode version = some e) :
    e ≠ .badblocks := by
  unfold checkMode at h
  grind

/-- Blocks that are not as they should be are reported, and no others. -/
theorem pgChecksums_check :
    wp (pgChecksums env .check) (fun _ t => t.files = s.files ∧ t.dataChecksumVersion = s.dataChecksumVersion ∧
        ∀ item, .scan item ∈ scanDataDirectory env.scan env.root → GoodFile env item s)
      (fun e t => t.files = s.files ∧ t.dataChecksumVersion = s.dataChecksumVersion ∧
        (e = .badblocks → ¬ ∀ item, .scan item ∈ scanDataDirectory env.scan env.root → GoodFile env item s))
      s := by
  unfold pgChecksums
  refine (wp_bind ..).2 ((wp_get ..).2 ((wp_bind ..).2 ((wp_set ..).2 ?_)))
  split
  · next e he => exact ⟨rfl, rfl, fun h => absurd h (checkMode_ne_badblocks he)⟩
  · refine (wp_bind ..).2 ?_
    rw [if_neg (by decide)]
    refine (@forM_check env s.fresh _).mono (fun _ t ht => ?_) fun e t ht =>
      ⟨ht.1.files, ht.1.version, fun h => absurd h ht.2⟩
    refine (wp_bind ..).2 ((wp_get ..).2 ?_)
    rw [if_pos rfl]
    have hcount : t.badblocks = 0 ↔
        ∀ item, .scan item ∈ scanDataDirectory env.scan env.root → GoodFile env item s := ht.2
    split
    · next hbad => exact ⟨ht.1.files, ht.1.version, fun _ h => absurd (hcount.2 h) (by omega)⟩
    · next hbad => exact ⟨ht.1.files, ht.1.version, hcount.1 (by omega)⟩

theorem checkMode_enable {version : ℕ} (h : checkMode env .enable version = none) :
    env.scan.onlyFilenode = none := by
  unfold checkMode at h
  split at h
  · cases h
  · next hnot =>
      rw [← Option.not_isSome_iff_eq_none]
      exact fun hsome => hnot ⟨by decide, hsome⟩

/-- The control file changes only when all that is scanned is in order. -/
theorem pgChecksums_enable (hapart : env.Apart) (hs : AllStorable env s) :
    wp (pgChecksums env .enable)
      (fun _ t => env.scan.onlyFilenode = none ∧ t.dataChecksumVersion = 1 ∧
        (∃ u, OnlyChecksums env s u ∧ u.files = t.files) ∧
        ∀ item, .scan item ∈ scanDataDirectory env.scan env.root → GoodFile env item t)
      (fun _ t => (t.files = s.files ∨ env.scan.onlyFilenode = none) ∧ OnlyChecksums env s t) s := by
  have hfresh : OnlyChecksums env s s.fresh := .of_files rfl rfl
  unfold pgChecksums
  refine (wp_bind ..).2 ((wp_get ..).2 ((wp_bind ..).2 ((wp_set ..).2 ?_)))
  split
  · exact ⟨.inl rfl, hfresh⟩
  · next hmode =>
      have honly := checkMode_enable hmode
      refine (wp_bind ..).2 ?_
      refine (@forM_enable env s.fresh hapart (hs.kept hapart hfresh)).mono (fun _ t ht => ?_)
        fun e t ht => ⟨.inr honly, hfresh.trans hapart ht⟩
      refine (wp_bind ..).2 ((wp_get ..).2 ?_)
      rw [if_neg (fun h : PgChecksumMode.enable = .check => by cases h)]
      exact (wp_set ..).2 ⟨honly, rfl, ⟨t, hfresh.trans hapart ht.1, rfl⟩,
        fun item hitem => (ht.2 item hitem).of_files rfl⟩

/-- What the files may be after a run. -/
def FilesKept (env : ChecksumEnv) (mode : PgChecksumMode) (s t : ChecksumState) : Prop :=
  t.files = s.files ∨ mode = .enable ∧ env.scan.onlyFilenode = none ∧
    ∃ u, OnlyChecksums env s u ∧ u.files = t.files

end Main

/-! ### Relations -/

/-- A database with one relation, which has one block. -/
def sampleChecksumEnv : ChecksumEnv where
  scan :=
    { forknameToNumber := fun name =>
        if name = ascii "main" then some .main
        else if name = ascii "fsm" then some .fsm
        else if name = ascii "vm" then some .visibilityMap
        else if name = ascii "init" then some .init
        else none
      versionDirectory := ascii "PG_18_202506291"
      onlyFilenode := none }
  root := .dir (ascii "base") (.dir (ascii "5") (.file (ascii "16384") .nil) .nil)
    (.dir (ascii "global") .nil (.dir (ascii "pg_tblspc") .nil .nil))
  c := sampleKeyCipher
  getSmgrKey _ := some (some (sampleRelKey 2))
  pgChecksumPage page block := UInt16.ofNat (((page ⟨16, by decide⟩).toNat + block) % 65535 + 1)
  shutDown := true
  readOk _ := true
  writeOk _ := true

def sampleChecksumState (version : ℕ) : ChecksumState :=
  ⟨fun fn => if fn = relPath sampleChecksumEnv.scan sampleLocator .main 0 then some ⟨[fun _ => 5], 0⟩ else none,
    version, 0, 0, 0, 0, 0⟩

theorem sampleChecksumEnv_ok : sampleChecksumEnv.scan.Ok := by
  refine ⟨fun fork hfork => ?_, by decide⟩
  cases fork with
  | main => exact absurd rfl hfork
  | fsm => decide
  | visibilityMap => decide
  | init => decide

theorem sampleChecksumEnv_distinct : sampleChecksumEnv.root.Distinct := by
  simp [sampleChecksumEnv, DirEntries.Distinct, DirEntries.names]
  decide

theorem sampleChecksumEnv_apart : sampleChecksumEnv.Apart := by
  intro page csum block
  have h : setPdChecksum page csum ⟨16, by decide⟩ = page ⟨16, by decide⟩ :=
    setPdChecksum_other (by decide) (by decide)
  show UInt16.ofNat (((setPdChecksum page csum ⟨16, by decide⟩).toNat + block) % 65535 + 1) = _
  rw [h]
  rfl

theorem sampleChecksumEnv_plan : scanDataDirectory sampleChecksumEnv.scan sampleChecksumEnv.root =
    [.scan (relItem sampleChecksumEnv.scan sampleLocator .main 0)] := by
  decide

theorem sampleChecksumState_file (version : ℕ) :
    (sampleChecksumState version).files (relPath sampleChecksumEnv.scan sampleLocator .main 0) =
      some ⟨[fun _ => 5], 0⟩ := by
  unfold sampleChecksumState
  dsimp only
  exact if_pos rfl

theorem sampleChecksumState_storable (version : ℕ) :
    AllStorable sampleChecksumEnv (sampleChecksumState version) := by
  intro item file hitem hfile i page hpage key forknum hkey
  rw [sampleChecksumEnv_plan, List.mem_singleton] at hitem
  obtain rfl := ScanStep.scan.inj hitem
  obtain rfl : key = sampleRelKey 2 := (Prod.mk.inj (Option.some.inj (Option.some.inj hkey))).1.symm
  obtain rfl := Option.some.inj ((sampleChecksumState_file version).symm.trans hfile)
  obtain rfl : page = fun _ => 5 := by
    cases i with
    | zero => exact (Option.some.inj hpage).symm
    | succ i => cases hpage
  intro key' hkey'
  obtain rfl := Option.some.inj hkey'
  rw [startsWithZeros, List.all_eq_false]
  refine ⟨0, List.mem_finRange 0, ?_⟩
  show ¬ decide (setPdChecksum _ _ ⟨0, by decide⟩ ^^^ 2 = 0) = true
  rw [setPdChecksum_other (by decide) (by decide)]
  have hbyte : ¬ decide ((5 ^^^ 2 ^^^ 2 : UInt8) = 0) = true := by decide
  exact hbyte

section Relations

variable {env : ChecksumEnv} {rlocator : RelFileLocator} {fork : ForkNumber} {segNo i : ℕ} {page : Page}
  {s : ChecksumState} {file : ChecksumFile} {key : Option InternalKey} {mode : PgChecksumMode}

/-- The number of a block of a relation is the one that the server counts. -/
theorem relItem_block (hseg : (segNo + 1) * relSegSize ≤ 2 ^ 32) (hi : i < relSegSize) :
    (relItem env.scan rlocator fork segNo).block i = i + segNo * relSegSize := by
  have hmul : (segNo + 1) * relSegSize = segNo * relSegSize + relSegSize := Nat.succ_mul ..
  have hle : segNo ≤ segNo * relSegSize := Nat.le_mul_of_pos_right _ (by decide)
  have hno : (UInt32.ofNat segNo).toNat = segNo := UInt32.toNat_ofNat_of_lt' (show segNo < 2 ^ 32 by omega)
  unfold ScanItem.block relItem
  rw [hno]
  exact Nat.mod_eq_of_lt (by omega)

/-- The server and the tool read the same page. -/
theorem relItem_read (hkey : env.getSmgrKey rlocator = some key)
    (hseg : (segNo + 1) * relSegSize ≤ 2 ^ 32) (hi : i < relSegSize) :
    env.read (relItem env.scan rlocator fork segNo) i page =
      readPage env.c key fork (i + segNo * relSegSize) page := by
  have hof : env.keyOf (relItem env.scan rlocator fork segNo) = some (key.map fun key => (key, fork)) := by
    show (env.getSmgrKey rlocator).map _ = _
    rw [hkey, Option.map_some]
  rw [ChecksumEnv.read, hof, relItem_block hseg hi, Option.getD_some]
  cases key <;> rfl

theorem segNo_lt (hseg : (segNo + 1) * relSegSize ≤ 2 ^ 32) : segNo < 2 ^ 31 := by
  have hsize : relSegSize = 131072 := rfl
  rw [hsize] at hseg
  omega

/-- The file of a segment is the same, or its blocks got their checksums. -/
theorem FilesKept.rel {t : ChecksumState} (h : FilesKept env mode s t) (henv : env.scan.Ok)
    (hrel : rlocator.Placed) (hseg : (segNo + 1) * relSegSize ≤ 2 ^ 32)
    (hfile : s.files (relPath env.scan rlocator fork segNo) = some file) :
    ∃ file', t.files (relPath env.scan rlocator fork segNo) = some file' ∧
      (file' = file ∨ mode = .enable ∧ ChecksumStep env (relItem env.scan rlocator fork segNo) file file') := by
  obtain hfiles | ⟨hmode, honly, u, hstep, hu⟩ := h
  · exact ⟨file, hfiles ▸ hfile, .inl rfl⟩
  · rw [← hu]
    by_cases hscan : ∀ item, .scan item ∈ scanDataDirectory env.scan env.root →
        item.fn ≠ relPath env.scan rlocator fork segNo
    · exact ⟨file, (hstep.other _ hscan).trans hfile, .inl rfl⟩
    · push Not at hscan
      obtain ⟨item, hitem, hfn⟩ := hscan
      obtain rfl := (scanDataDirectory_rel henv honly hrel (segNo_lt hseg)).2 hitem hfn
      obtain ⟨file', hfile', hfstep⟩ := hstep.file _ file hitem hfile
      exact ⟨file', hfile', .inr ⟨hmode, hfstep⟩⟩

/-- A page is new, or its checksum is that of its contents. -/
def PageVerified (env : ChecksumEnv) (key : Option InternalKey) (fork : ForkNumber) (blkno : ℕ)
    (page : Page) : Prop :=
  pageIsNew (readPage env.c key fork blkno page) = true ∨
    env.pgChecksumPage (readPage env.c key fork blkno page) blkno =
      pdChecksum (readPage env.c key fork blkno page)

/-- All pages of all relations in the data directory are new or have their checksums. -/
def RelationsVerified (env : ChecksumEnv) (s : ChecksumState) : Prop :=
  ∀ rlocator fork segNo key file i page, rlocator.Placed → env.getSmgrKey rlocator = some key →
    (segNo + 1) * relSegSize ≤ 2 ^ 32 → env.root.Has (relPath env.scan rlocator fork segNo) →
    s.files (relPath env.scan rlocator fork segNo) = some file → i < relSegSize →
    file.pages[i]? = some page → PageVerified env key fork (i + segNo * relSegSize) page

theorem relationsVerified_of_goodFile (henv : env.scan.Ok) (hroot : env.root.Distinct)
    (hall : env.scan.onlyFilenode = none)
    (h : ∀ item, .scan item ∈ scanDataDirectory env.scan env.root → GoodFile env item s) :
    RelationsVerified env s := by
  intro rlocator fork segNo key file i page hrel hkey hseg hhas hfile hi hpage
  have hscan := (@scanDataDirectory_rel env.scan rlocator fork segNo env.root
    (relItem env.scan rlocator fork segNo) henv hall hrel (segNo_lt hseg)).1 hroot hhas
  have hgood := h _ hscan file hfile i page hpage
  unfold GoodBlock ChecksumEnv.checksum at hgood
  rw [relItem_read hkey hseg hi, relItem_block hseg hi] at hgood
  exact hgood

/-- A run that verifies checksums changes nothing. If it ends well, all pages of all relations are as they
should be, and if it complains of blocks, one of those it has read is not. -/
theorem pg_checksums_check (henv : env.scan.Ok) (hroot : env.root.Distinct)
    (hall : env.scan.onlyFilenode = none) :
    (after (pgChecksums env .check) s).files = s.files ∧
    (after (pgChecksums env .check) s).dataChecksumVersion = s.dataChecksumVersion ∧
    (returns (pgChecksums env .check) s = true → RelationsVerified env s) ∧
    (outcome (pgChecksums env .check) s = .error .badblocks →
      ∃ item file i page, .scan item ∈ scanDataDirectory env.scan env.root ∧
        s.files item.fn = some file ∧ file.pages[i]? = some page ∧ ¬ GoodBlock env item i page) := by
  have hspec := @pgChecksums_check env s
  refine ⟨(hspec.mono (fun _ _ h => h.1) fun _ _ h => h.1).after,
    (hspec.mono (fun _ _ h => h.2.1) fun _ _ h => h.2.1).after, fun hok => ?_, fun hbad => ?_⟩
  · obtain ⟨a, t, hrun⟩ := exists_of_returns hok
    exact relationsVerified_of_goodFile henv hroot hall (hspec.of_ok hrun).2.2
  · have hnot := (hspec.of_outcome hbad).2.2 rfl
    unfold GoodFile at hnot
    push Not at hnot
    obtain ⟨item, hitem, file, hfile, i, page, hpage, hblock⟩ := hnot
    exact ⟨item, file, i, page, hitem, hfile, hpage, hblock⟩

theorem pg_checksums_check_sample :
    outcome (pgChecksums sampleChecksumEnv .check) (sampleChecksumState 1) = .error .badblocks ∧
      ∃ item file i page, .scan item ∈ scanDataDirectory sampleChecksumEnv.scan sampleChecksumEnv.root ∧
        (sampleChecksumState 1).files item.fn = some file ∧ file.pages[i]? = some page ∧
          ¬ GoodBlock sampleChecksumEnv item i page :=
  ⟨rfl, (@pg_checksums_check sampleChecksumEnv (sampleChecksumState 1) sampleChecksumEnv_ok
    sampleChecksumEnv_distinct rfl).2.2.2 rfl⟩

/-- A run that has enabled checksums leaves all pages of all relations with theirs, and no run that verifies
them complains of a block afterwards. -/
theorem pg_checksums_enable {t : ChecksumState} (henv : env.scan.Ok) (hroot : env.root.Distinct)
    (hapart : env.Apart) (hs : AllStorable env s) (hrun : pgChecksums env .enable s = .ok ⟨⟩ t) :
    t.dataChecksumVersion = 1 ∧ RelationsVerified env t ∧
      ∀ readOk, (after (pgChecksums { env with readOk := readOk } .check) t).files = t.files ∧
        outcome (pgChecksums { env with readOk := readOk } .check) t ≠ .error .badblocks := by
  obtain ⟨hall, hversion, -, hgood⟩ := (pgChecksums_enable hapart hs).of_ok hrun
  refine ⟨hversion, relationsVerified_of_goodFile henv hroot hall hgood, fun readOk => ?_⟩
  have hspec := @pgChecksums_check { env with readOk := readOk } t
  refine ⟨(hspec.mono (fun _ _ h => h.1) fun _ _ h => h.1).after, fun hbad => ?_⟩
  exact (hspec.of_outcome hbad).2.2 rfl hgood

theorem pg_checksums_enable_sample :
    ∃ t, pgChecksums sampleChecksumEnv .enable (sampleChecksumState 0) = .ok ⟨⟩ t ∧
      t.dataChecksumVersion = 1 ∧ RelationsVerified sampleChecksumEnv t := by
  obtain ⟨t, hrun⟩ : ∃ t, pgChecksums sampleChecksumEnv .enable (sampleChecksumState 0) = .ok ⟨⟩ t := ⟨_, rfl⟩
  obtain ⟨hversion, hverified, -⟩ := pg_checksums_enable sampleChecksumEnv_ok sampleChecksumEnv_distinct
    sampleChecksumEnv_apart (sampleChecksumState_storable 0) hrun
  exact ⟨t, hrun, hversion, hverified⟩

end Relations

end OpenPgTde
