import OpenPgTde.PrincipalKey.Operations
import Mathlib.Logic.Equiv.Defs

/-!
The storage manager of relations (`smgr/open_pg_tde_smgr.c`, `encryption/enc_tde.c`).

It stands between the buffer manager and the files. Pages are encrypted when they are written and
decrypted when they are read, each under a tweak made of its fork and its block number. Whether a
relation is encrypted, and with what key, a process finds out when it needs to know, and remembers
until the relation is closed. A page that a file was extended by without writing it is zero, and is
never encrypted; a reader recognises it by its first bytes.
-/

namespace OpenPgTde

open Lib.Effect

/-! ### Pages and their cipher -/

/-- `BLCKSZ`. -/
def blckSz : ℕ := 8192

abbrev Page := Fin blckSz → UInt8

inductive ForkNumber
  | main
  | fsm
  | visibilityMap
  | init
  deriving DecidableEq, Repr

def ForkNumber.code : ForkNumber → UInt8
  | main => 0
  | fsm => 1
  | visibilityMap => 2
  | init => 3

/-- `encrypt_block` and `decrypt_block` of the registered ciphers: for each key and initialisation
vector a permutation of the pages and its inverse. -/
abbrev PageCipher := CipherType → List UInt8 → List UInt8 → Equiv.Perm Page

/-- `CalcBlockIv`: the init fork has the vectors of the main fork. -/
def calcBlockIv (forknum : ForkNumber) (bn : ℕ) (baseIv : List UInt8) : List UInt8 :=
  let fork := if forknum = .init then ForkNumber.main else forknum
  List.zipWith (· ^^^ ·)
    [0, 0, 0, 0, 0, 0, 0, fork.code, 0, 0, 0, 0, UInt8.ofNat (bn / 2 ^ 24), UInt8.ofNat (bn / 2 ^ 16),
      UInt8.ofNat (bn / 2 ^ 8), UInt8.ofNat bn]
    baseIv

/-- The test by which `tde_decrypt_smgr_block` recognises a page that was never written. -/
def startsWithZeros (page : Page) : Bool :=
  (List.finRange 32).all fun i => page (Fin.castLE (by decide) i) = 0

/-- `tde_encrypt_smgr_block`. -/
def tdeEncryptSmgrBlock (c : PageCipher) (k : InternalKey) (forknum : ForkNumber) (bn : ℕ)
    (page : Page) : Page :=
  c k.cipher k.key (calcBlockIv forknum bn k.baseIv) page

/-- `tde_decrypt_smgr_block`, which is always called with one buffer for both pages. -/
def tdeDecryptSmgrBlock (c : PageCipher) (k : InternalKey) (forknum : ForkNumber) (bn : ℕ)
    (page : Page) : Page :=
  if startsWithZeros page then page
  else (c k.cipher k.key (calcBlockIv forknum bn k.baseIv)).symm page

/-! ### State -/

/-- A relation, with the number of the process it belongs to if it is temporary. -/
structure RelFileLocatorBackend where
  locator : RelFileLocator
  backend : Option ℕ
  deriving DecidableEq, Repr

/-- `TDEMgrRelationEncryptionStatus`, with `relKey` where there is one. -/
inductive EncryptionStatus
  | notEncrypted
  | encrypted (relKey : InternalKey)
  | unknown
  deriving DecidableEq

/-- The state of a relation, once the search for its key has ended. -/
def EncryptionStatus.ofKey : Option InternalKey → EncryptionStatus
  | some k => .encrypted k
  | none => .notEncrypted

/-- What a process remembers of relations: the state of those it has open, and the keys of its
temporary ones. -/
structure SmgrProcess where
  status : RelFileLocatorBackend → EncryptionStatus
  tempRelKeys : RelFileLocator → Option InternalKey

/-- One fork of a relation on disk. A block that was left out when the file grew reads as zero. -/
structure MdFile where
  nblocks : ℕ
  block : ℕ → Page

structure SmgrState where
  server : Server
  files : RelFileLocatorBackend → ForkNumber → Option MdFile
  processes : ℕ → SmgrProcess

abbrev SM := EStateM TdeError SmgrState

/-- A routine that works on the server only. -/
def onSmgrServer {α : Type} (m : M α) : SM α :=
  zoom SmgrState.server (fun t x => { x with server := t }) m

def SmgrState.setStatus (x : SmgrState) (p : ℕ) (rel : RelFileLocatorBackend)
    (status : EncryptionStatus) : SmgrState :=
  let process := x.processes p
  let process' := { process with status := Function.update process.status rel status }
  { x with processes := Function.update x.processes p process' }

def SmgrState.setTempKey (x : SmgrState) (p : ℕ) (rel : RelFileLocator) (k : Option InternalKey) :
    SmgrState :=
  let process := x.processes p
  let process' := { process with tempRelKeys := Function.update process.tempRelKeys rel k }
  { x with processes := Function.update x.processes p process' }

def SmgrState.putFile (x : SmgrState) (rel : RelFileLocatorBackend) (forknum : ForkNumber)
    (f : MdFile) : SmgrState :=
  { x with files := Function.update x.files rel (Function.update (x.files rel) forknum (some f)) }

/-! ### Files

The routines of `md.c`, for relations of at most `InvalidBlockNumber` blocks. -/

def mdcreate (rel : RelFileLocatorBackend) (forknum : ForkNumber) (isRedo : Bool) : SM Unit := do
  let x ← get
  match x.files rel forknum with
  | none => set (x.putFile rel forknum ⟨0, fun _ => 0⟩)
  | some _ => if isRedo then pure () else throw .mdFailed

/-- The file of a fork that must be there. -/
def mdopenfork (rel : RelFileLocatorBackend) (forknum : ForkNumber) : SM MdFile := do
  let x ← get
  match x.files rel forknum with
  | none => throw .mdFailed
  | some f => pure f

def MdFile.get (f : MdFile) (bn : ℕ) : Page := if bn < f.nblocks then f.block bn else 0

/-- The file with `pages` from block `bn` on. -/
def MdFile.put (f : MdFile) (bn : ℕ) (pages : List Page) : MdFile where
  nblocks := max f.nblocks (bn + pages.length)
  block i := if bn ≤ i ∧ i < bn + pages.length then pages.getD (i - bn) 0 else f.get i

def mdextend (rel : RelFileLocatorBackend) (forknum : ForkNumber) (bn : ℕ) (page : Page) :
    SM Unit := do
  let f ← mdopenfork rel forknum
  if 2 ^ 32 - 1 ≤ bn then throw .mdFailed
  modify fun x => x.putFile rel forknum (f.put bn [page])

def mdzeroextend (rel : RelFileLocatorBackend) (forknum : ForkNumber) (bn nblocks : ℕ) :
    SM Unit := do
  let f ← mdopenfork rel forknum
  if 2 ^ 32 - 1 ≤ bn + nblocks then throw .mdFailed
  modify fun x => x.putFile rel forknum (f.put bn (List.replicate nblocks 0))

def mdwritev (rel : RelFileLocatorBackend) (forknum : ForkNumber) (bn : ℕ) (pages : List Page) :
    SM Unit := do
  let f ← mdopenfork rel forknum
  if f.nblocks < bn + pages.length then throw .mdFailed
  modify fun x => x.putFile rel forknum (f.put bn pages)

def mdreadv (rel : RelFileLocatorBackend) (forknum : ForkNumber) (bn nblocks : ℕ) :
    SM (List Page) := do
  let f ← mdopenfork rel forknum
  if f.nblocks < bn + nblocks then throw .mdFailed
  pure ((List.range nblocks).map fun i => f.get (bn + i))

/-- `copy_file` of the init fork over the main fork, when an unlogged relation is reset. It knows
nothing of pages, and nobody asks the storage manager. -/
def copyInitFork (rel : RelFileLocatorBackend) : SM Unit := do
  let f ← mdopenfork rel .init
  modify fun x => x.putFile rel .main f

/-! ### Keys of relations -/

/-- `TDEEncryptMode`. -/
inductive TDEEncryptMode
  | retain
  | encrypt
  | plain
  deriving DecidableEq, Repr

variable (w : World) (c : PageCipher) (p : ℕ)

/-- `tde_smgr_create_key`, in process `p`. -/
def tdeSmgrCreateKey (rel : RelFileLocatorBackend) : SM InternalKey := do
  match rel.backend with
  | none => onSmgrServer (smgrCreateKey w rel.locator)
  | some _ => do
    let x ← get
    let k ← onSmgrServer (generateInternalKey (smgrDataCipher x.server))
    modify fun x => x.setTempKey p rel.locator (some k)
    pure k

/-- `tde_smgr_delete_leftover_key`. -/
def tdeSmgrDeleteLeftoverKey (rel : RelFileLocatorBackend) : SM Unit :=
  match rel.backend with
  | none => onSmgrServer (smgrDeleteLeftoverKey rel.locator)
  | some _ => pure ()

/-- `tde_smgr_is_encrypted`. -/
def tdeSmgrIsEncrypted (rel : RelFileLocatorBackend) : SM Bool :=
  match rel.backend with
  | none => onSmgrServer (hasSmgrKey rel.locator)
  | some _ => do
    let x ← get
    pure ((x.processes p).tempRelKeys rel.locator).isSome

/-- `tde_smgr_get_key`. -/
def tdeSmgrGetKey (rel : RelFileLocatorBackend) : SM (Option InternalKey) :=
  match rel.backend with
  | none => onSmgrServer (getSmgrKey w rel.locator)
  | some _ => do
    let x ← get
    pure ((x.processes p).tempRelKeys rel.locator)

/-- `FirstUnpinnedObjectId`: the catalogs have smaller numbers. -/
def firstUnpinnedObjectId : UInt32 := 12000

/-- `tde_smgr_should_encrypt`, in the mode that the current statement gave. -/
def tdeSmgrShouldEncrypt (mode : TDEEncryptMode) (rel : RelFileLocatorBackend)
    (relold : RelFileLocator) : SM Bool :=
  if rel.locator.relNumber < firstUnpinnedObjectId then pure false
  else match mode with
    | .plain => pure false
    | .encrypt => pure true
    | .retain => tdeSmgrIsEncrypted p ⟨relold, rel.backend⟩

/-! ### The storage manager -/

/-- `tde_smgr_resolve_encryption_status`. -/
def tdeSmgrResolveEncryptionStatus (rel : RelFileLocatorBackend) : SM EncryptionStatus := do
  let x ← get
  match (x.processes p).status rel with
  | .unknown => do
    let key ← tdeSmgrGetKey w p rel
    modify fun x => x.setStatus p rel (.ofKey key)
    pure (.ofKey key)
  | status => pure status

/-- `tde_mdcreate`, outside a binary upgrade. -/
def tdeMdcreate (mode : TDEEncryptMode) (relold : RelFileLocator) (rel : RelFileLocatorBackend)
    (forknum : ForkNumber) (isRedo : Bool) : SM Unit := do
  mdcreate rel forknum isRedo
  if isRedo then return
  if forknum ≠ .main then return
  if ← tdeSmgrShouldEncrypt p mode rel relold then
    let k ← tdeSmgrCreateKey w p rel
    modify fun x => x.setStatus p rel (.encrypted k)
  else
    tdeSmgrDeleteLeftoverKey rel
    modify fun x => x.setStatus p rel .notEncrypted

/-- `tde_mdopen`. -/
def tdeMdopen (rel : RelFileLocatorBackend) : SM Unit :=
  modify fun x => x.setStatus p rel .unknown

/-- `tde_mdclose`. -/
def tdeMdclose (rel : RelFileLocatorBackend) (forknum : ForkNumber) : SM Unit :=
  if forknum = .main then modify fun x => x.setStatus p rel .unknown else pure ()

/-- `tde_mdextend`. -/
def tdeMdextend (rel : RelFileLocatorBackend) (forknum : ForkNumber) (bn : ℕ) (page : Page) :
    SM Unit := do
  match ← tdeSmgrResolveEncryptionStatus w p rel with
  | .encrypted k => mdextend rel forknum bn (tdeEncryptSmgrBlock c k forknum bn page)
  | _ => mdextend rel forknum bn page

/-- `tde_mdwritev`. -/
def tdeMdwritev (rel : RelFileLocatorBackend) (forknum : ForkNumber) (bn : ℕ)
    (pages : List Page) : SM Unit := do
  match ← tdeSmgrResolveEncryptionStatus w p rel with
  | .encrypted k =>
    mdwritev rel forknum bn
      (pages.mapIdx fun i page => tdeEncryptSmgrBlock c k forknum (bn + i) page)
  | _ => mdwritev rel forknum bn pages

/-- `tde_mdreadv`: the pages it leaves in the buffers. -/
def tdeMdreadv (rel : RelFileLocatorBackend) (forknum : ForkNumber) (bn nblocks : ℕ) :
    SM (List Page) := do
  let pages ← mdreadv rel forknum bn nblocks
  match ← tdeSmgrResolveEncryptionStatus w p rel with
  | .encrypted k =>
    pure (pages.mapIdx fun i page => tdeDecryptSmgrBlock c k forknum (bn + i) page)
  | _ => pure pages

end OpenPgTde
