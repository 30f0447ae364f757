import OpenPgTde.KeyMap.Refinement
import OpenPgTde.Smgr.Relation

/-!
What the routines of the storage manager do.

All of them are about one relation. They may look for its key, and then remember it, and they may
change one of its files; creating the main fork decides about the key. `Touched` says what they
leave alone, and `StatusOk` that what a process remembers of a relation is true.
-/

namespace OpenPgTde

open Lib.Effect

variable {w : World} {c : PageCipher} {s t : Server}

/-! ### The keys of all databases -/

/-- A relation of a database, and not one of the reserved numbers. -/
structure RelFileLocator.Valid (rel : RelFileLocator) : Prop where
  ne_global : rel.dbOid ≠ globalDataTdeOid
  ne_default : rel.dbOid ≠ defaultDataTdeOid
  ne_zero : rel.relNumber ≠ 0

def RelFileLocator.Valid.db {rel : RelFileLocator} (h : rel.Valid) : DatabaseId :=
  ⟨rel.dbOid, h.ne_global, h.ne_default⟩

def RelFileLocator.Valid.id {rel : RelFileLocator} (h : rel.Valid) : RelId :=
  ⟨rel.spcOid, rel.relNumber, h.ne_zero⟩

/-- The invariants of the key management, in every database. -/
structure KeysOk (w : World) (s : Server) : Prop where
  consistent : Consistent w s
  files : ∀ db : DatabaseId, FileOk s db.oid

/-- The key of a relation in the key file of its database. -/
def smgrKeyOf (w : World) (s : Server) (rel : RelFileLocator) : Option InternalKey :=
  relationKeys w s rel.dbOid (rel.spcOid, rel.relNumber)

/-- No relation has another key than before. -/
structure KeysKept (w : World) (s t : Server) : Prop where
  keysOk : KeysOk w t
  keys : ∀ rel : RelFileLocator, rel.Valid → smgrKeyOf w t rel = smgrKeyOf w s rel

/-- One relation has the key `k`, and no other one has another key than before. -/
structure KeySet (w : World) (s t : Server) (rel : RelFileLocator) (k : Option InternalKey) :
    Prop where
  keysOk : KeysOk w t
  key : smgrKeyOf w t rel = k
  others : ∀ rel' : RelFileLocator, rel'.Valid → rel' ≠ rel →
    smgrKeyOf w t rel' = smgrKeyOf w s rel'

theorem KeysKept.refl (hs : KeysOk w s) : KeysKept w s s := ⟨hs, fun _ _ => rfl⟩

theorem KeysKept.trans {u : Server} (h : KeysKept w s t) (h' : KeysKept w t u) : KeysKept w s u :=
  ⟨h'.keysOk, fun rel hrel => (h'.keys rel hrel).trans (h.keys rel hrel)⟩

theorem KeySteps.keysKept (h : KeySteps w s t) (hs : KeysOk w s) : KeysKept w s t := by
  refine ⟨⟨h.consistent hs.consistent, fun db => h.fileOk (hs.files db)⟩, fun rel hrel => ?_⟩
  rw [smgrKeyOf, smgrKeyOf, relationKeys, relationKeys, h.relationTable_eq hrel.ne_global]

theorem Loaded.keysKept (h : Loaded w s t) (hs : KeysOk w s) : KeysKept w s t :=
  h.steps.keySteps.keysKept hs

theorem Quiet.keysKept (h : Quiet s t) (hs : KeysOk w s) : KeysKept w s t :=
  (h.loaded (w := w)).keysKept hs

/-- A change to the file of one database is none to the keys of another. -/
theorem relationKeys_of_ne {db db' : Oid} {f : Option KeyFile} (hne : db' ≠ db)
    (hg : db' ≠ globalDataTdeOid) (h : Quiet (s.putKeyFile (.keys db) f) t) :
    relationKeys w t db' = relationKeys w s db' := by
  have hprov : t.providers = s.providers := h.providers
  have htable : relationTable w t db' = relationTable w s db' := by
    refine relationTable_congr (fun _ => by rw [hprov]) (fun _ => ?_) (fun hg' => absurd hg' hg) hg
    rw [h.keyFiles]
    simp [hne]
  funext r
  rw [relationKeys, relationKeys, htable]

/-- The keys after a change to the file of one database that represents a map before and after. -/
theorem Represents.keySet {rel : RelFileLocator} (hv : rel.Valid) {k : Option InternalKey}
    {f : Option KeyFile} (hs : KeysOk w s) (hq : Quiet (s.putKeyFile (.keys rel.dbOid) f) t)
    (h : Represents w hv.db t (Function.update (relationKeys w s rel.dbOid) hv.id.pair k)) :
    KeySet w s t rel k := by
  refine ⟨⟨h.consistent, fun db => ?_⟩, ?_, fun rel' hv' hne => ?_⟩
  · by_cases hdb : db.oid = rel.dbOid
    · rw [hdb]
      exact h.fileOk
    · refine (hs.files db).congr ?_
      rw [hq.keyFiles]
      simp [hdb]
  · have hmap := congrFun h.map hv.id.pair
    rwa [Function.update_self] at hmap
  · by_cases hdb : rel'.dbOid = rel.dbOid
    · have hpair : (rel'.spcOid, rel'.relNumber) ≠ hv.id.pair := by
        intro heq
        apply hne
        obtain ⟨hspc, hnum⟩ := Prod.mk.inj heq
        cases rel
        cases rel'
        simp_all [RelFileLocator.Valid.id]
      have hmap := congrFun h.map (rel'.spcOid, rel'.relNumber)
      rw [Function.update_of_ne hpair] at hmap
      rw [smgrKeyOf, smgrKeyOf, hdb]
      exact hmap
    · rw [smgrKeyOf, smgrKeyOf, relationKeys_of_ne hdb hv'.ne_global hq]

theorem saveSmgrKey_keys_spec (hs : KeysOk w s) {rel : RelFileLocator} (hv : rel.Valid)
    (k : InternalKey) :
    wp (saveSmgrKey w rel k true) (fun _ t => KeySet w s t rel (some k))
      (fun _ t => KeysKept w s t) s := by
  refine (saveSmgrKey_spec hs.consistent rel hv.ne_global k true).mono (fun _ t ht => ?_)
    fun _ t ht => ht.1.keysKept hs
  obtain ⟨u, info, entries, pk, hsv⟩ := ht
  have hu : KeysKept w s u := hsv.steps.keysKept hs
  obtain ⟨e, -, hq⟩ := hsv.written (.inr rfl)
  have hrep : Represents w hv.db u (relationKeys w u rel.dbOid) :=
    ⟨hu.keysOk.consistent, hu.keysOk.files hv.db,
      by rw [show hv.db.oid = rel.dbOid from rfl, hsv.key]; simp, rfl⟩
  have hrep' : Represents w hv.db t (MapOp.spec (relationKeys w u rel.dbOid)
      (.save hv.id k true)).2 := hsv.represents hrep
  have hset : KeySet w u t rel (some k) := hrep'.keySet hv hu.keysOk hq
  exact ⟨hset.keysOk, hset.key, fun rel' hv' hne =>
    (hset.others rel' hv' hne).trans (hu.keys rel' hv')⟩

theorem freeKeyMapEntry_keys_spec (hs : KeysOk w s) {rel : RelFileLocator} (hv : rel.Valid) :
    wp (freeKeyMapEntry rel) (fun _ t => KeySet w s t rel none)
      (fun _ t => KeysKept w s t) s := by
  have hspec := freeKeyMapEntry_spec rel hv.ne_global
    ((hs.consistent.scopes rel.dbOid).format hv.ne_global)
  by_cases hi : scopeInfo s rel.dbOid = none
  · -- without a header there are no keys, and a file is at most created
    have hempty : ∀ {u}, Quiet (s.putKeyFile (.keys rel.dbOid) (some .empty)) u →
        KeysKept w s u ∧ smgrKeyOf w u rel = none := by
      intro u hu
      have hok : KeysOk w u := by
        refine ⟨hu.consistent (hs.consistent.putEmpty hv.ne_global hi), fun db => ?_⟩
        by_cases hdb : db.oid = rel.dbOid
        · rw [hdb]
          exact .of_none (.inr (by rw [hu.keyFiles]; simp))
        · refine (hs.files db).congr ?_
          rw [hu.keyFiles]
          simp [hdb]
      have hnone : scopeInfo u rel.dbOid = none := by
        simp [scopeInfo, hv.ne_global, hu.keyFiles, KeyFile.info]
      refine ⟨⟨hok, fun rel' hv' => ?_⟩, relationKeys_of_scopeInfo_none hnone _⟩
      by_cases hdb : rel'.dbOid = rel.dbOid
      · rw [smgrKeyOf, smgrKeyOf, hdb, relationKeys_of_scopeInfo_none hnone,
          relationKeys_of_scopeInfo_none hi]
      · rw [smgrKeyOf, smgrKeyOf, relationKeys_of_ne hdb hv'.ne_global hu]
    refine hspec.mono (fun _ t ht => ?_) fun _ t ht => ?_
    · obtain ⟨-, hq⟩ | ⟨info, entries, hf, -⟩ := ht
      · obtain ⟨hk, hkey⟩ := hempty hq
        exact ⟨hk.keysOk, hkey, fun rel' hv' _ => hk.keys rel' hv'⟩
      · rw [scopeInfo_current hv.ne_global hf] at hi
        cases hi
    · obtain ⟨-, hq | ⟨-, hq⟩⟩ := ht
      · exact hq.keysKept hs
      · exact (hempty hq).1
  · have hrep : Represents w hv.db s (relationKeys w s rel.dbOid) :=
      ⟨hs.consistent, hs.files hv.db,
        fun h => hi ((hs.consistent.scopes rel.dbOid).principalKeyOf_none.1 h), rfl⟩
    refine (hspec.and (free_spec hrep hv.id)).mono (fun _ t ht => ?_) fun _ t ht => ?_
    · obtain ⟨⟨hnone, -⟩ | ⟨info, entries, hf, hq⟩, hfree⟩ := ht
      · exact absurd hnone hi
      · exact hfree.keySet hv hs hq
    · obtain ⟨⟨-, hq | ⟨hnone, -⟩⟩, -⟩ := ht
      · exact hq.keysKept hs
      · exact absurd hnone hi

theorem KeysOk.logged (hs : KeysOk w s) (rs : List XLogRecord) : KeysOk w (s.logged rs) := by
  refine ⟨⟨fun scope => ?_, hs.consistent.providers, hs.consistent.databases⟩, fun db => ?_⟩
  · exact (hs.consistent.scopes scope).frame (fun _ => rfl) (fun _ => rfl) (fun _ => rfl) rfl
  · exact (hs.files db).congr rfl

theorem smgrCreateKey_keys_spec (hs : KeysOk w s) {rel : RelFileLocator} (hv : rel.Valid) :
    wp (smgrCreateKey w rel) (fun k t => KeySet w s t rel (some k))
      (fun _ t => KeysKept w s t) s := by
  unfold smgrCreateKey
  rw [wp_bind, wp_get, wp_bind]
  refine (generateInternalKey_spec _).mono (fun k t ht => ?_) fun _ t ht => ht.1.keysKept hs
  have hkept : KeysKept w s t := ht.1.keysKept hs
  rw [wp_bind]
  refine (saveSmgrKey_keys_spec hkept.keysOk hv k).mono (fun _ u hu => ?_) fun _ u hu =>
    hkept.trans hu
  exact ⟨hu.keysOk.logged _, hu.key, fun rel' hv' hne =>
    (hu.others rel' hv' hne).trans (hkept.keys rel' hv')⟩

theorem smgrDeleteLeftoverKey_keys_spec (hs : KeysOk w s) {rel : RelFileLocator} (hv : rel.Valid) :
    wp (smgrDeleteLeftoverKey rel) (fun _ t => KeySet w s t rel none)
      (fun _ t => KeysKept w s t) s := by
  rw [smgrDeleteLeftoverKey, wp_bind]
  refine (freeKeyMapEntry_keys_spec hs hv).mono (fun _ t ht => ?_) fun _ t ht => ht
  exact ⟨ht.keysOk.logged _, ht.key, ht.others⟩

/-! ### What a process knows of a relation -/

variable {x y : SmgrState} {p : ℕ} {rel : RelFileLocatorBackend} {forknum : ForkNumber}

/-- The key of a relation: the one in the key file, or the one its process made for it. -/
def relKeyOf (w : World) (x : SmgrState) (rel : RelFileLocatorBackend) : Option InternalKey :=
  match rel.backend with
  | none => smgrKeyOf w x.server rel.locator
  | some b => (x.processes b).tempRelKeys rel.locator

/-- A relation that process `p` may work with: its own temporary ones, and those of databases. -/
structure Own (p : ℕ) (rel : RelFileLocatorBackend) : Prop where
  temp : ∀ b, rel.backend = some b → b = p
  valid : rel.backend = none → rel.locator.Valid

/-- What a process remembers of a relation is how it is. -/
def StatusOk (w : World) (x : SmgrState) (p : ℕ) (rel : RelFileLocatorBackend) : Prop :=
  match (x.processes p).status rel with
  | .unknown => True
  | .notEncrypted => relKeyOf w x rel = none
  | .encrypted k => relKeyOf w x rel = some k

/-- What happens to the other relations when a process works with `rel`: nothing. -/
structure Touched (w : World) (rel : RelFileLocatorBackend) (x y : SmgrState) : Prop where
  keysOk : KeysOk w y.server
  keys : ∀ p rel', Own p rel' → rel' ≠ rel → relKeyOf w y rel' = relKeyOf w x rel'
  status : ∀ p rel', rel' ≠ rel → (y.processes p).status rel' = (x.processes p).status rel'
  files : ∀ rel', rel' ≠ rel → y.files rel' = x.files rel'

theorem Touched.refl (hx : KeysOk w x.server) : Touched w rel x x :=
  ⟨hx, fun _ _ _ _ => rfl, fun _ _ _ => rfl, fun _ _ => rfl⟩

theorem Touched.trans {z : SmgrState} (h : Touched w rel x y) (h' : Touched w rel y z) :
    Touched w rel x z where
  keysOk := h'.keysOk
  keys p rel' ho hne := (h'.keys p rel' ho hne).trans (h.keys p rel' ho hne)
  status p rel' hne := (h'.status p rel' hne).trans (h.status p rel' hne)
  files rel' hne := (h'.files rel' hne).trans (h.files rel' hne)

theorem Touched.statusOk (h : Touched w rel x y) {q : ℕ} {rel' : RelFileLocatorBackend}
    (ho : Own q rel') (hne : rel' ≠ rel) (hs : StatusOk w x q rel') : StatusOk w y q rel' := by
  unfold StatusOk at hs ⊢
  rw [h.status q rel' hne, h.keys q rel' ho hne]
  exact hs

section Updates

variable (x p rel forknum)

@[simp] theorem relKeyOf_setStatus (rel' : RelFileLocatorBackend) (st : EncryptionStatus) :
    relKeyOf w (x.setStatus p rel st) rel' = relKeyOf w x rel' := by
  unfold relKeyOf
  cases rel'.backend with
  | none => rfl
  | some b =>
      by_cases hb : b = p
      · subst hb
        simp [SmgrState.setStatus]
      · simp [SmgrState.setStatus, hb]

@[simp] theorem status_setStatus_self (st : EncryptionStatus) :
    ((x.setStatus p rel st).processes p).status rel = st := by
  simp [SmgrState.setStatus]

theorem status_setStatus_of_ne {q : ℕ} {rel' : RelFileLocatorBackend} (h : q ≠ p ∨ rel' ≠ rel)
    (st : EncryptionStatus) :
    ((x.setStatus p rel st).processes q).status rel' = (x.processes q).status rel' := by
  by_cases hq : q = p
  · subst hq
    have hrel : rel' ≠ rel := h.resolve_left fun h => h rfl
    simp [SmgrState.setStatus, hrel]
  · simp [SmgrState.setStatus, hq]

theorem touched_setStatus (hx : KeysOk w x.server) (st : EncryptionStatus) :
    Touched w rel x (x.setStatus p rel st) where
  keysOk := hx
  keys _ rel' _ _ := relKeyOf_setStatus x p rel rel' st
  status _ _ hne := status_setStatus_of_ne x p rel (.inr hne) st
  files _ _ := rfl

theorem touched_putFile (hx : KeysOk w x.server) (f : MdFile) :
    Touched w rel x (x.putFile rel forknum f) where
  keysOk := hx
  keys _ _ _ _ := rfl
  status _ _ _ := rfl
  files rel' hne := by simp [SmgrState.putFile, hne]

@[simp] theorem relKeyOf_putFile (rel' : RelFileLocatorBackend) (f : MdFile) :
    relKeyOf w (x.putFile rel forknum f) rel' = relKeyOf w x rel' := rfl

@[simp] theorem files_putFile_self (f : MdFile) :
    (x.putFile rel forknum f).files rel forknum = some f := by
  simp [SmgrState.putFile]

theorem files_putFile_of_ne {fork' : ForkNumber} (h : fork' ≠ forknum) (f : MdFile) :
    (x.putFile rel forknum f).files rel fork' = x.files rel fork' := by
  simp [SmgrState.putFile, h]

end Updates

/-- A routine of the server is one of the storage manager if it keeps the keys. -/
theorem KeysKept.touched {t : Server} (h : KeysKept w x.server t) :
    Touched w rel x { x with server := t } := by
  refine ⟨h.keysOk, fun p rel' ho hne => ?_, fun _ _ _ => rfl, fun _ _ => rfl⟩
  unfold relKeyOf
  cases hb : rel'.backend with
  | none => exact h.keys _ (ho.valid hb)
  | some b => rfl

theorem KeysKept.relKeyOf {t : Server} (h : KeysKept w x.server t) (ho : Own p rel) :
    relKeyOf w { x with server := t } rel = relKeyOf w x rel := by
  unfold OpenPgTde.relKeyOf
  cases hb : rel.backend with
  | none => exact h.keys _ (ho.valid hb)
  | some b => rfl

/-! ### Finding the key -/

/-- Process `p` has looked for the key of `rel`, and has found it or not. -/
structure Resolved (w : World) (p : ℕ) (rel : RelFileLocatorBackend) (x y : SmgrState) : Prop where
  touched : Touched w rel x y
  key : relKeyOf w y rel = relKeyOf w x rel
  files : y.files = x.files
  status : ∀ q, q ≠ p → (y.processes q).status rel = (x.processes q).status rel
  statusOk : StatusOk w y p rel

/-- The principal key of the database of `rel`, if it is needed, is in the cache or can be had. -/
def SmgrKeyAvailable (w : World) (x : SmgrState) (rel : RelFileLocatorBackend) : Prop :=
  rel.backend = none → x.server.SysOk ∧
    (x.server.cache rel.locator.dbOid ≠ none ∨ Reachable w x.server rel.locator.dbOid)

theorem tdeSmgrGetKey_spec (hx : KeysOk w x.server) (ho : Own p rel) :
    wp (tdeSmgrGetKey w p rel)
      (fun r y => ∃ t, KeysKept w x.server t ∧ y = { x with server := t } ∧ r = relKeyOf w x rel)
      (fun _ y => ∃ t, KeysKept w x.server t ∧ y = { x with server := t } ∧
        ¬SmgrKeyAvailable w x rel) x := by
  unfold tdeSmgrGetKey relKeyOf
  cases hb : rel.backend with
  | none =>
      rw [onSmgrServer, wp_zoom]
      refine (getSmgrKey_spec hx.consistent rel.locator (ho.valid hb).ne_global).mono
        (fun r t ht => ⟨t, ht.1.keysKept hx, rfl, ht.2⟩) fun _ t ht =>
        ⟨t, ht.1.keysKept hx, rfl, fun h => ?_⟩
      obtain ⟨hok, hc | hr⟩ := h hb
      · exact hc (ht.2 hok).1
      · exact (ht.2 hok).2 hr
  | some b =>
      rw [wp_bind, wp_get]
      refine ⟨x.server, .refl hx, rfl, ?_⟩
      rw [ho.temp b hb]

theorem tdeSmgrResolveEncryptionStatus_spec (hx : KeysOk w x.server) (ho : Own p rel)
    (hs : StatusOk w x p rel) :
    wp (tdeSmgrResolveEncryptionStatus w p rel)
      (fun status y => Resolved w p rel x y ∧ status = .ofKey (relKeyOf w x rel))
      (fun _ y => Resolved w p rel x y ∧ ¬SmgrKeyAvailable w x rel) x := by
  have hsame : Resolved w p rel x x := ⟨.refl hx, rfl, rfl, fun _ _ => rfl, hs⟩
  unfold tdeSmgrResolveEncryptionStatus
  rw [wp_bind, wp_get]
  unfold StatusOk at hs
  cases hst : (x.processes p).status rel with
  | notEncrypted =>
      rw [hst] at hs
      exact ⟨hsame, by rw [hs]; rfl⟩
  | encrypted k =>
      rw [hst] at hs
      exact ⟨hsame, by rw [hs]; rfl⟩
  | unknown =>
      dsimp only
      rw [wp_bind]
      refine (tdeSmgrGetKey_spec hx ho).mono (fun r y hy => ?_) fun _ y hy => ?_
      · obtain ⟨t, hk, rfl, rfl⟩ := hy
        rw [wp_bind, wp_modify, wp_pure]
        have hkey := hk.relKeyOf ho
        refine ⟨⟨hk.touched.trans (touched_setStatus _ p rel hk.keysOk _), ?_, rfl, fun q hq => ?_,
          ?_⟩, rfl⟩
        · rw [relKeyOf_setStatus, hkey]
        · rw [status_setStatus_of_ne _ p rel (.inl hq)]
        · unfold StatusOk
          rw [status_setStatus_self, relKeyOf_setStatus, hkey]
          cases relKeyOf w x rel <;> rfl
      · obtain ⟨t, hk, rfl, hno⟩ := hy
        refine ⟨⟨hk.touched, hk.relKeyOf ho, rfl, fun _ _ => rfl, ?_⟩, hno⟩
        unfold StatusOk
        dsimp only
        rw [hst]
        trivial

/-! ### Pages -/

/-- What is on disk for a page of a relation with the key `k`. -/
def storedPage (c : PageCipher) (k : Option InternalKey) (forknum : ForkNumber) (bn : ℕ)
    (page : Page) : Page :=
  match k with
  | none => page
  | some k => tdeEncryptSmgrBlock c k forknum bn page

/-- What a reader makes of a page on disk. -/
def readPage (c : PageCipher) (k : Option InternalKey) (forknum : ForkNumber) (bn : ℕ)
    (page : Page) : Page :=
  match k with
  | none => page
  | some k => tdeDecryptSmgrBlock c k forknum bn page

/-- The stored page is not one a reader takes for a page that was never written. -/
def NoZeroPrefix (c : PageCipher) (k : Option InternalKey) (forknum : ForkNumber) (bn : ℕ)
    (page : Page) : Prop :=
  ∀ key, k = some key → startsWithZeros (tdeEncryptSmgrBlock c key forknum bn page) = false

theorem readPage_storedPage {k : Option InternalKey} {bn : ℕ} {page : Page}
    (h : NoZeroPrefix c k forknum bn page) :
    readPage c k forknum bn (storedPage c k forknum bn page) = page := by
  cases k with
  | none => rfl
  | some key =>
      show tdeDecryptSmgrBlock c key forknum bn (tdeEncryptSmgrBlock c key forknum bn page) = page
      rw [tdeDecryptSmgrBlock, h key rfl, tdeEncryptSmgrBlock]
      simp

theorem startsWithZeros_zero : startsWithZeros 0 = true := by
  simp [startsWithZeros]

theorem readPage_zero (k : Option InternalKey) (bn : ℕ) : readPage c k forknum bn 0 = 0 := by
  cases k with
  | none => rfl
  | some key => simp [readPage, tdeDecryptSmgrBlock, startsWithZeros_zero]

/-- The init fork and the main fork have the same tweaks. -/
theorem storedPage_init (k : Option InternalKey) (bn : ℕ) (page : Page) :
    storedPage c k .init bn page = storedPage c k .main bn page := by
  cases k <;> rfl

theorem MdFile.get_put (f : MdFile) (bn i : ℕ) (pages : List Page) :
    (f.put bn pages).get i =
      if bn ≤ i ∧ i < bn + pages.length then pages.getD (i - bn) 0 else f.get i := by
  unfold MdFile.put MdFile.get
  dsimp only
  by_cases hin : bn ≤ i ∧ i < bn + pages.length
  · rw [if_pos hin, if_pos (by omega)]
  · rw [if_neg hin]
    by_cases hi : i < f.nblocks
    · rw [if_pos hi, if_pos (by omega)]
    · simp [hi]

/-! ### Reading and writing -/

theorem mdopenfork_spec :
    wp (mdopenfork rel forknum) (fun f y => y = x ∧ x.files rel forknum = some f)
      (fun _ y => y = x ∧ x.files rel forknum = none) x := by
  unfold mdopenfork
  rw [wp_bind, wp_get]
  cases hf : x.files rel forknum with
  | none => exact ⟨rfl, rfl⟩
  | some f => exact ⟨rfl, rfl⟩

/-- A write of pages from `bn` on, whichever routine does it: process `p` looks for the key, and
then the pages are on disk as they are stored. If it fails nothing is written. -/
structure Wrote (w : World) (p : ℕ) (rel : RelFileLocatorBackend) (forknum : ForkNumber) (bn : ℕ)
    (pages : List Page) (x y : SmgrState) : Prop where
  exists_file : ∃ f z, x.files rel forknum = some f ∧ Resolved w p rel x z ∧
    y = z.putFile rel forknum (f.put bn pages)

theorem mdextend_spec (bn : ℕ) (page : Page) :
    wp (mdextend rel forknum bn page)
      (fun _ y => ∃ f, x.files rel forknum = some f ∧ y = x.putFile rel forknum (f.put bn [page]))
      (fun _ y => y = x) x := by
  rw [mdextend, wp_bind]
  refine mdopenfork_spec.mono (fun f y hy => ?_) fun _ y hy => hy.1
  obtain ⟨rfl, hf⟩ := hy
  simp only [wp_bind, wp_ite, wp_throw, wp_modify, implies_true, true_and]
  exact fun _ => ⟨f, hf, rfl⟩

theorem mdzeroextend_spec (bn nblocks : ℕ) :
    wp (mdzeroextend rel forknum bn nblocks)
      (fun _ y => ∃ f, x.files rel forknum = some f ∧
        y = x.putFile rel forknum (f.put bn (List.replicate nblocks 0)))
      (fun _ y => y = x) x := by
  rw [mdzeroextend, wp_bind]
  refine mdopenfork_spec.mono (fun f y hy => ?_) fun _ y hy => hy.1
  obtain ⟨rfl, hf⟩ := hy
  simp only [wp_bind, wp_ite, wp_throw, wp_modify, implies_true, true_and]
  exact fun _ => ⟨f, hf, rfl⟩

theorem mdwritev_spec (bn : ℕ) (pages : List Page) :
    wp (mdwritev rel forknum bn pages)
      (fun _ y => ∃ f, x.files rel forknum = some f ∧ y = x.putFile rel forknum (f.put bn pages))
      (fun _ y => y = x) x := by
  rw [mdwritev, wp_bind]
  refine mdopenfork_spec.mono (fun f y hy => ?_) fun _ y hy => hy.1
  obtain ⟨rfl, hf⟩ := hy
  simp only [wp_bind, wp_ite, wp_throw, wp_modify, implies_true, true_and]
  exact fun _ => ⟨f, hf, rfl⟩

theorem mdreadv_spec (bn nblocks : ℕ) :
    wp (mdreadv rel forknum bn nblocks)
      (fun pages y => y = x ∧ ∃ f, x.files rel forknum = some f ∧ bn + nblocks ≤ f.nblocks ∧
        pages = (List.range nblocks).map fun i => f.get (bn + i))
      (fun _ y => y = x ∧ ∀ f, x.files rel forknum = some f → f.nblocks < bn + nblocks) x := by
  rw [mdreadv, wp_bind]
  refine mdopenfork_spec.mono (fun f y hy => ?_) fun _ y hy => ⟨hy.1, by simp [hy.2]⟩
  obtain ⟨rfl, hf⟩ := hy
  simp only [wp_bind, wp_ite, wp_throw, wp_pure, true_and]
  refine ⟨fun h f' hf' => ?_, fun h => ⟨f, hf, by omega, rfl⟩⟩
  rw [hf] at hf'
  cases hf'
  exact h

section Routines

variable (hx : KeysOk w x.server) (ho : Own p rel) (hs : StatusOk w x p rel)

include hx ho hs

theorem tdeMdextend_spec (bn : ℕ) (page : Page) :
    wp (tdeMdextend w c p rel forknum bn page)
      (fun _ y => Wrote w p rel forknum bn [storedPage c (relKeyOf w x rel) forknum bn page] x y)
      (fun _ y => Resolved w p rel x y) x := by
  rw [tdeMdextend, wp_bind]
  refine (tdeSmgrResolveEncryptionStatus_spec hx ho hs).mono (fun status z hz => ?_)
    fun _ y hy => hy.1
  obtain ⟨hz, rfl⟩ := hz
  have hmd : wp (mdextend rel forknum bn (storedPage c (relKeyOf w x rel) forknum bn page))
      (fun _ y => Wrote w p rel forknum bn [storedPage c (relKeyOf w x rel) forknum bn page] x y)
      (fun _ y => Resolved w p rel x y) z := by
    refine (mdextend_spec bn _).mono (fun _ y hy => ?_) fun _ y hy => by rwa [hy]
    obtain ⟨f, hf, rfl⟩ := hy
    exact ⟨f, z, by rw [← hz.files, hf], hz, rfl⟩
  cases hk : relKeyOf w x rel <;> rw [hk] at hmd <;> exact hmd

theorem tdeMdwritev_spec (bn : ℕ) (pages : List Page) :
    wp (tdeMdwritev w c p rel forknum bn pages)
      (fun _ y => Wrote w p rel forknum bn
        (pages.mapIdx fun i page => storedPage c (relKeyOf w x rel) forknum (bn + i) page) x y)
      (fun _ y => Resolved w p rel x y) x := by
  rw [tdeMdwritev, wp_bind]
  refine (tdeSmgrResolveEncryptionStatus_spec hx ho hs).mono (fun status z hz => ?_)
    fun _ y hy => hy.1
  obtain ⟨hz, rfl⟩ := hz
  have hmd : ∀ stored, wp (mdwritev rel forknum bn stored)
      (fun _ y => Wrote w p rel forknum bn stored x y) (fun _ y => Resolved w p rel x y) z := by
    intro stored
    refine (mdwritev_spec bn _).mono (fun _ y hy => ?_) fun _ y hy => by rwa [hy]
    obtain ⟨f, hf, rfl⟩ := hy
    exact ⟨f, z, by rw [← hz.files, hf], hz, rfl⟩
  cases relKeyOf w x rel with
  | none =>
      have hplain : (pages.mapIdx fun i page => storedPage c none forknum (bn + i) page) = pages := by
        apply List.ext_getElem <;> simp [storedPage]
      rw [hplain]
      exact hmd pages
  | some k => exact hmd _

theorem tdeMdreadv_spec (bn nblocks : ℕ) :
    wp (tdeMdreadv w c p rel forknum bn nblocks)
      (fun pages y => Resolved w p rel x y ∧ ∃ f, x.files rel forknum = some f ∧
        bn + nblocks ≤ f.nblocks ∧ pages = (List.range nblocks).map fun i =>
          readPage c (relKeyOf w x rel) forknum (bn + i) (f.get (bn + i)))
      (fun _ y => Resolved w p rel x y ∧ (SmgrKeyAvailable w x rel →
        ∀ f, x.files rel forknum = some f → f.nblocks < bn + nblocks)) x := by
  have hsame : Resolved w p rel x x := ⟨.refl hx, rfl, rfl, fun _ _ => rfl, hs⟩
  rw [tdeMdreadv, wp_bind]
  refine (mdreadv_spec bn nblocks).mono (fun pages y hy => ?_) fun _ y hy =>
    ⟨by rw [hy.1]; exact hsame, fun _ => hy.2⟩
  obtain ⟨rfl, f, hf, hlen, rfl⟩ := hy
  rw [wp_bind]
  refine (tdeSmgrResolveEncryptionStatus_spec hx ho hs).mono (fun status z hz => ?_)
    fun _ z hz => ⟨hz.1, fun h => absurd h hz.2⟩
  obtain ⟨hz, rfl⟩ := hz
  cases relKeyOf w y rel with
  | none => exact ⟨hz, f, hf, hlen, rfl⟩
  | some k =>
      refine ⟨hz, f, hf, hlen, ?_⟩
      apply List.ext_getElem
      · simp
      · intro i hi hi'
        simp [readPage]

end Routines

/-! ### Creating a relation -/

/-- What a creation of the main fork leaves: whatever is decided about the key, process `p` knows
it, and the others remember of the relation what they did before. -/
structure Created (w : World) (p : ℕ) (rel : RelFileLocatorBackend) (x y : SmgrState) : Prop where
  touched : Touched w rel x y
  statusOk : StatusOk w y p rel
  status : ∀ q, q ≠ p → (y.processes q).status rel = (x.processes q).status rel

theorem Created.of_unknown (h : Touched w rel x y)
    (hst : ∀ q, (y.processes q).status rel = (x.processes q).status rel)
    (hun : (x.processes p).status rel = .unknown) : Created w p rel x y := by
  refine ⟨h, ?_, fun q _ => hst q⟩
  unfold StatusOk
  rw [hst, hun]
  trivial

/-- The key of one relation was set, and process `p` remembers it. -/
theorem KeySet.created {t : Server} {k : Option InternalKey} (h : KeySet w x.server t rel.locator k)
    (hb : rel.backend = none) :
    Created w p rel x (SmgrState.setStatus { x with server := t } p rel (.ofKey k)) := by
  have hkey : relKeyOf w { x with server := t } rel = k := by
    simp only [relKeyOf, hb]
    exact h.key
  have htouched : Touched w rel x { x with server := t } := by
    refine ⟨h.keysOk, fun q rel' ho hne => ?_, fun _ _ _ => rfl, fun _ _ => rfl⟩
    unfold relKeyOf
    cases hb' : rel'.backend with
    | none =>
        refine h.others _ (ho.valid hb') fun heq => hne ?_
        cases rel
        cases rel'
        simp_all
    | some b => rfl
  refine ⟨htouched.trans (touched_setStatus _ p rel h.keysOk _), ?_, fun q hq => ?_⟩
  · unfold StatusOk
    rw [status_setStatus_self, relKeyOf_setStatus, hkey]
    cases k <;> rfl
  · exact status_setStatus_of_ne _ p rel (.inl hq) _

theorem Created.after_touched {z : SmgrState} (h : Touched w rel x y)
    (hst : ∀ q, (y.processes q).status rel = (x.processes q).status rel)
    (h' : Created w p rel y z) : Created w p rel x z :=
  ⟨h.trans h'.touched, h'.statusOk, fun q hq => (h'.status q hq).trans (hst q)⟩

theorem touched_setTempKey (hx : KeysOk w x.server) (ho : Own p rel) (hne : rel.backend ≠ none)
    (k : Option InternalKey) :
    Touched w rel x (x.setTempKey p rel.locator k) ∧
      relKeyOf w (x.setTempKey p rel.locator k) rel = k ∧
      ∀ q, ((x.setTempKey p rel.locator k).processes q).status = (x.processes q).status := by
  obtain ⟨b, hrel⟩ := Option.ne_none_iff_exists'.1 hne
  obtain rfl := ho.temp b hrel
  have hstatus : ∀ q, ((x.setTempKey b rel.locator k).processes q).status =
      (x.processes q).status := by
    intro q
    by_cases hq : q = b
    · subst hq
      simp [SmgrState.setTempKey]
    · simp [SmgrState.setTempKey, hq]
  refine ⟨⟨hx, fun q rel' ho' hne' => ?_, fun q rel' _ => by rw [hstatus], fun _ _ => rfl⟩, ?_,
    hstatus⟩
  · unfold relKeyOf
    cases hb' : rel'.backend with
    | none => rfl
    | some b' =>
        by_cases heq : b' = b
        · subst heq
          have hloc : rel'.locator ≠ rel.locator := by
            intro hloc
            apply hne'
            cases rel
            cases rel'
            simp_all
          simp [SmgrState.setTempKey, hloc]
        · simp [SmgrState.setTempKey, heq]
  · simp [relKeyOf, hrel, SmgrState.setTempKey]

theorem tdeSmgrShouldEncrypt_spec (hx : KeysOk w x.server) (mode : TDEEncryptMode)
    (relold : RelFileLocator) :
    wp (tdeSmgrShouldEncrypt p mode rel relold)
      (fun _ y => ∃ t, KeysKept w x.server t ∧ y = { x with server := t })
      (fun _ y => ∃ t, KeysKept w x.server t ∧ y = { x with server := t }) x := by
  have hsame : ∃ t, KeysKept w x.server t ∧ x = { x with server := t } := ⟨_, .refl hx, rfl⟩
  unfold tdeSmgrShouldEncrypt
  rw [wp_ite]
  refine ⟨fun _ => hsame, fun _ => ?_⟩
  cases mode with
  | plain => exact hsame
  | encrypt => exact hsame
  | retain =>
      unfold tdeSmgrIsEncrypted
      cases rel.backend with
      | none =>
          rw [onSmgrServer, wp_zoom]
          exact (hasSmgrKey_quiet relold).mono (fun _ t ht => ⟨t, ht.keysKept hx, rfl⟩)
            fun _ t ht => ⟨t, ht.keysKept hx, rfl⟩
      | some b => exact hsame

/-- The decision about the key, for a relation nobody knows anything about yet. -/
theorem createKey_spec (hx : KeysOk w x.server) (ho : Own p rel)
    (hun : (x.processes p).status rel = .unknown) :
    wp (do
        let k ← tdeSmgrCreateKey w p rel
        modify fun x => x.setStatus p rel (.encrypted k))
      (fun _ y => Created w p rel x y) (fun _ y => Created w p rel x y) x := by
  rw [wp_bind]
  unfold tdeSmgrCreateKey
  cases hb : rel.backend with
  | none =>
      dsimp only
      rw [onSmgrServer, wp_zoom]
      refine (smgrCreateKey_keys_spec hx (ho.valid hb)).mono (fun k t ht => ht.created hb)
        fun _ t ht => ?_
      exact .of_unknown ht.touched (fun _ => rfl) hun
  | some b =>
      simp only [wp_bind, wp_get, onSmgrServer, wp_zoom, wp_modify, wp_pure]
      refine (generateInternalKey_spec _).mono (fun k t ht => ?_) fun _ t ht => ?_
      · have hk : KeysKept w x.server t := ht.1.keysKept hx
        have hown : rel.backend ≠ none := by simp [hb]
        obtain ⟨htouched, hkey, hst⟩ := touched_setTempKey (x := { x with server := t }) hk.keysOk ho
          hown (some k)
        have hput : Touched w rel x _ := hk.touched.trans htouched
        refine ⟨hput.trans (touched_setStatus _ p rel hput.keysOk _), ?_, fun q hq => ?_⟩
        · unfold StatusOk
          rw [status_setStatus_self, relKeyOf_setStatus]
          exact hkey
        · rw [status_setStatus_of_ne _ p rel (.inl hq), hst]
      · exact .of_unknown (ht.1.keysKept hx).touched (fun _ => rfl) hun

theorem leftoverKey_spec (hx : KeysOk w x.server) (ho : Own p rel)
    (hun : (x.processes p).status rel = .unknown)
    (htemp : rel.backend ≠ none → relKeyOf w x rel = none) :
    wp (do
        tdeSmgrDeleteLeftoverKey rel
        modify fun x => x.setStatus p rel .notEncrypted)
      (fun _ y => Created w p rel x y) (fun _ y => Created w p rel x y) x := by
  rw [wp_bind]
  unfold tdeSmgrDeleteLeftoverKey
  cases hb : rel.backend with
  | none =>
      dsimp only
      rw [onSmgrServer, wp_zoom]
      refine (smgrDeleteLeftoverKey_keys_spec hx (ho.valid hb)).mono (fun _ t ht => ht.created hb)
        fun _ t ht => ?_
      exact .of_unknown ht.touched (fun _ => rfl) hun
  | some b =>
      refine ⟨touched_setStatus x p rel hx _, ?_, fun q hq => ?_⟩
      · unfold StatusOk
        rw [status_setStatus_self, relKeyOf_setStatus]
        exact htemp (by simp [hb])
      · exact status_setStatus_of_ne x p rel (.inl hq) _

theorem mdcreate_spec :
    wp (mdcreate rel forknum false)
      (fun _ y => x.files rel forknum = none ∧ y = x.putFile rel forknum ⟨0, fun _ => 0⟩)
      (fun _ y => y = x) x := by
  unfold mdcreate
  rw [wp_bind, wp_get]
  cases x.files rel forknum with
  | none => exact ⟨rfl, rfl⟩
  | some f => exact rfl

theorem tdeMdcreate_main_spec (hx : KeysOk w x.server) (ho : Own p rel)
    (hun : (x.processes p).status rel = .unknown)
    (htemp : rel.backend ≠ none → relKeyOf w x rel = none) (mode : TDEEncryptMode)
    (relold : RelFileLocator) :
    wp (tdeMdcreate w p mode relold rel .main false)
      (fun _ y => Created w p rel x y) (fun _ y => Created w p rel x y) x := by
  rw [tdeMdcreate, wp_bind]
  refine mdcreate_spec.mono (fun _ y hy => ?_) fun _ y hy => ?_
  · obtain ⟨-, rfl⟩ := hy
    have hput : Touched w rel x (x.putFile rel .main ⟨0, fun _ => 0⟩) :=
      touched_putFile x rel .main hx _
    simp only [Bool.false_eq_true, if_false, ne_eq, not_true_eq_false]
    rw [wp_bind]
    refine (tdeSmgrShouldEncrypt_spec hput.keysOk mode relold).mono (fun b z hz => ?_)
      fun _ z hz => ?_
    · obtain ⟨t, hk, heq⟩ := hz
      have hz : Touched w rel x z := by
        rw [heq]
        exact hput.trans hk.touched
      have hst : ∀ q, (z.processes q).status rel = (x.processes q).status rel := by
        intro q
        rw [heq]
        rfl
      have htemp' : rel.backend ≠ none → relKeyOf w z rel = none := by
        intro hne
        rw [heq, hk.relKeyOf ho]
        exact htemp hne
      have hun' : (z.processes p).status rel = .unknown := by rw [hst, hun]
      rw [wp_ite]
      refine ⟨fun _ => ?_, fun _ => ?_⟩
      · exact (createKey_spec hz.keysOk ho hun').mono (fun _ u hu => .after_touched hz hst hu)
          fun _ u hu => .after_touched hz hst hu
      · exact (leftoverKey_spec hz.keysOk ho hun' htemp').mono
          (fun _ u hu => .after_touched hz hst hu) fun _ u hu => .after_touched hz hst hu
    · obtain ⟨t, hk, rfl⟩ := hz
      exact .of_unknown (hput.trans hk.touched) (fun _ => rfl) hun
  · rw [hy]
    exact .of_unknown (.refl hx) (fun _ => rfl) hun

/-- Another fork is created without a thought about keys. -/
theorem tdeMdcreate_fork_spec (hfork : forknum ≠ .main) (mode : TDEEncryptMode)
    (relold : RelFileLocator) :
    wp (tdeMdcreate w p mode relold rel forknum false)
      (fun _ y => x.files rel forknum = none ∧ y = x.putFile rel forknum ⟨0, fun _ => 0⟩)
      (fun _ y => y = x) x := by
  rw [tdeMdcreate, wp_bind]
  refine mdcreate_spec.mono (fun _ y hy => ?_) fun _ y hy => hy
  simp only [Bool.false_eq_true, if_false, ne_eq, hfork, not_false_eq_true, if_true]
  exact hy

end OpenPgTde
