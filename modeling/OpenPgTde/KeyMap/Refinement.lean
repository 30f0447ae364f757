import OpenPgTde.PrincipalKey.Lifecycle

/-!
The key file of a database refines a finite map.

The file is an array of slots that are reused in place; `MapOp.spec` says what the operations mean
on a map from relations to internal keys. `Represents` connects the two: no relation has two live
entries, a free slot carries no relation, and the map is what the live entries decrypt to. One
operation of the program answers as the map does and leads from a file that represents a map to a
file that represents the map after the operation; a failed one leaves the map alone. By induction
this holds for every sequence of operations.
-/

namespace OpenPgTde

open Lib.Effect Lib.SlotArray

variable {w : World} {s t : Server} {db : DatabaseId}

/-! ### The array -/

/-- What an array of entries needs to stand for a map. -/
structure ArrayOk (entries : List TDEMapEntry) : Prop where
  unique : Unique TDEMapEntry.slotKey entries
  free : ∀ e ∈ entries, e.type = .empty → e.relNumber = 0

/-- The array in the file of a database is one that stands for a map. -/
def FileOk (s : Server) (db : Oid) : Prop :=
  ∀ info entries, s.keyFiles (.keys db) = some (.current info entries) → ArrayOk entries

theorem slotKey_eq_some {e : TDEMapEntry} {rel : Oid × UInt32} :
    e.slotKey = some rel ↔ e.type = .key ∧ e.spcOid = rel.1 ∧ e.relNumber = rel.2 := by
  simp [TDEMapEntry.slotKey, Prod.ext_iff]

theorem slotKey_eq_none {e : TDEMapEntry} : e.slotKey = none ↔ e.type = .empty := by
  cases h : e.type <;> simp [TDEMapEntry.slotKey, h]

theorem isKeyOf_eq_true {e : TDEMapEntry} {spcOid : Oid} {relNumber : UInt32} :
    e.isKeyOf spcOid relNumber = true ↔ e.slotKey = some (spcOid, relNumber) := by
  rw [isKeyOf_iff, slotKey_eq_some]

/-- The search of the routines is the lookup of the array. -/
theorem find?_isKeyOf (entries : List TDEMapEntry) (rel : Oid × UInt32) :
    entries.find? (TDEMapEntry.isKeyOf rel.1 rel.2) = find TDEMapEntry.slotKey rel entries := by
  unfold find
  congr 1
  funext e
  rw [Bool.eq_iff_iff, isKeyOf_eq_true, decide_eq_true_eq]

theorem filterMap_slotKey (w : World) (keyData : List UInt8) (entries : List TDEMapEntry) :
    entries.filterMap TDEMapEntry.slotKey = (keyTable w keyData entries).map Prod.fst := by
  induction entries with
  | nil => rfl
  | cons e entries ih =>
      cases h : e.type with
      | empty =>
          rw [List.filterMap_cons_none (slotKey_eq_none.2 h), ih, keyTable_cons_empty h]
      | key =>
          have hkey : e.slotKey = some (e.spcOid, e.relNumber) := slotKey_eq_some.2 ⟨h, rfl, rfl⟩
          rw [List.filterMap_cons_some hkey, ih, keyTable_cons_key h]
          rfl

theorem arrayOk_nil : ArrayOk [] := ⟨List.nodup_nil, by simp⟩

theorem FileOk.congr {db : Oid} (h : FileOk s db)
    (hk : t.keyFiles (.keys db) = s.keyFiles (.keys db)) : FileOk t db :=
  fun info entries hf => h info entries (by rw [← hk, hf])

theorem FileOk.of_current {db : Oid} {info : TDESignedPrincipalKeyInfo}
    {entries : List TDEMapEntry} (hf : s.keyFiles (.keys db) = some (.current info entries))
    (h : ArrayOk entries) : FileOk s db := by
  intro info' entries' hf'
  rw [hf] at hf'
  cases hf'
  exact h

theorem FileOk.of_none {db : Oid}
    (hf : s.keyFiles (.keys db) = none ∨ s.keyFiles (.keys db) = some .empty) : FileOk s db := by
  intro info entries hf'
  obtain h | h := hf <;> rw [h] at hf' <;> cases hf'

/-- No step on principal keys spoils an array. -/
theorem LoggedStep.fileOk {db : Oid} (h : LoggedStep w s t) (hs : FileOk s db) : FileOk t db := by
  cases h with
  | quiet h => exact hs.congr (by rw [h.keyFiles])
  | load | brokenAdd | brokenDelete | tmpWal | brokenSaveServer | saveServer | rotateServer =>
      exact hs
  | tmp => exact hs.congr (by simp)
  | @brokenSave scope =>
      by_cases hsc : db = scope
      · subst hsc
        exact .of_none (.inr (by simp))
      · exact hs.congr (by simp [hsc])
  | @save scope info k =>
      by_cases hsc : db = scope
      · subst hsc
        exact .of_current (by simp; rfl) arrayOk_nil
      · exact hs.congr (by simp [hsc])
  | @rotate scope info info' entries new k k' hg hf hk hh hlive ht =>
      by_cases hsc : db = scope
      · subst hsc
        have hnew : ((((s.logged [rotateRecord k']).putKeyFile (.keys db)
            (some (.current info' new))).putKeyFile (.keysTmp db) none).putCache db
            (some k')).keyFiles (.keys db) = some (.current info' new) := by simp
        refine .of_current hnew ⟨?_, fun e he hempty => ?_⟩
        · have hold := (hs info entries hf).unique
          unfold Lib.SlotArray.Unique at hold ⊢
          rw [filterMap_slotKey w k'.keyData, ht, ← filterMap_slotKey]
          exact hold
        · rw [hlive e he] at hempty
          cases hempty
      · exact hs.congr (by simp [hsc])
  | @delete scope info entries =>
      by_cases hsc : db = scope
      · subst hsc
        exact .of_none (.inl (by simp))
      · exact hs.congr (by simp [hsc])

theorem LoggedSteps.fileOk {db : Oid} (h : LoggedSteps w s t) (hs : FileOk s db) :
    FileOk t db := by
  induction h with
  | refl => exact hs
  | tail _ h ih => exact h.fileOk ih

theorem KeyStep.fileOk {db : Oid} (h : KeyStep w s t) (hs : FileOk s db) : FileOk t db := by
  cases h with
  | logged h => exact h.fileOk hs
  | @header scope info k =>
      unfold Server.putHeader
      split
      · exact hs
      · by_cases hsc : db = scope
        · subst hsc
          exact .of_current (by simp; rfl) arrayOk_nil
        · exact hs.congr (by simp [hsc])
  | unlogged h => exact (h.fileOk hs).congr rfl
  | deleteServer => exact hs

theorem KeySteps.fileOk {db : Oid} (h : KeySteps w s t) (hs : FileOk s db) : FileOk t db := by
  induction h with
  | refl => exact hs
  | tail _ h ih => exact h.fileOk ih

/-! ### Operations on the file and on the map -/

/-- A relation of a database; no relation has the number 0 (`InvalidRelFileNumber`). -/
structure RelId where
  spcOid : Oid
  relNumber : UInt32
  valid : relNumber ≠ 0

def RelId.pair (r : RelId) : Oid × UInt32 := (r.spcOid, r.relNumber)

def RelId.locator (r : RelId) (db : DatabaseId) : RelFileLocator := ⟨r.spcOid, db.oid, r.relNumber⟩

/-- The operations on the relation keys of one database, and the rotation of its principal key to
a key of one of its own or of a global provider. -/
inductive MapOp
  | save (rel : RelId) (k : InternalKey) (replaceExisting : Bool)
  | free (rel : RelId)
  | has (rel : RelId)
  | get (rel : RelId)
  | count (spcOid : Oid)
  | rotate (keyName providerName : List UInt8) (global : Bool)

inductive MapReply
  | done
  | found (b : Bool)
  | key (k : Option InternalKey)
  | number (n : ℕ)

def MapOp.exec (w : World) (db : DatabaseId) : MapOp → M MapReply
  | save rel k replaceExisting => do
    saveSmgrKey w (rel.locator db) k replaceExisting
    pure .done
  | free rel => do
    freeKeyMapEntry (rel.locator db)
    pure .done
  | has rel => return .found (← hasSmgrKey (rel.locator db))
  | get rel => return .key (← getSmgrKey w (rel.locator db))
  | count spcOid => return .number (← countEncryptionKeys db.oid spcOid)
  | rotate keyName providerName global => do
    setPrincipalKeyWithKeyring w keyName providerName
      (if global then globalDataTdeOid else db.oid) db.oid
    pure .done

abbrev KeyMap := Oid × UInt32 → Option InternalKey

/-- What the operations mean on a map: the answer and the map afterwards. -/
noncomputable def MapOp.spec (m : KeyMap) : MapOp → MapReply × KeyMap
  | save rel k true => (.done, Function.update m rel.pair (some k))
  | save rel k false =>
    (.done, if m rel.pair = none then Function.update m rel.pair (some k) else m)
  | free rel => (.done, Function.update m rel.pair none)
  | has rel => (.found (m rel.pair).isSome, m)
  | get rel => (.key (m rel.pair), m)
  | count spcOid => (.number (Set.ncard {r | m r ≠ none ∧ (spcOid = 0 ∨ r.1 = spcOid)}), m)
  | rotate .. => (.done, m)

/-- The file of the database has a header and its entries stand for the map `m`. -/
structure Represents (w : World) (db : DatabaseId) (s : Server) (m : KeyMap) : Prop where
  consistent : Consistent w s
  fileOk : FileOk s db.oid
  header : principalKeyOf w s db.oid ≠ none
  map : relationKeys w s db.oid = m

/-- The principal key of the database is in the cache or can be fetched. -/
def KeyAvailable (w : World) (s : Server) (db : DatabaseId) : Prop :=
  s.cache db.oid ≠ none ∨ Reachable w s db.oid

/-! ### One operation -/

theorem Represents.loaded {m : KeyMap} (h : Represents w db s m) (hl : Loaded w s t) :
    Represents w db t m := by
  refine ⟨hl.consistent h.consistent, h.fileOk.congr (by rw [hl.keyFiles]), ?_, ?_⟩
  · rw [hl.principalKeyOf]
    exact h.header
  · have htable : relationTable w t db.oid = relationTable w s db.oid :=
      relationTable_congr (fun _ => by rw [hl.providers]) (fun _ => by rw [hl.keyFiles])
        (fun hg => absurd hg db.ne_global) db.ne_global
    rw [← h.map]
    funext rel
    rw [relationKeys, relationKeys, htable]

/-- The file and the principal key behind the representation. -/
theorem Represents.exists_current {m : KeyMap} (h : Represents w db s m) :
    ∃ info entries pk, s.keyFiles (.keys db.oid) = some (.current info entries) ∧
      principalKeyOf w s db.oid = some pk ∧ Readable w pk.keyData entries ∧ ArrayOk entries ∧
      m = fun rel => (find TDEMapEntry.slotKey rel entries).bind
        (TDEMapEntry.unwrap w pk.keyData) := by
  obtain ⟨pk, hk⟩ := Option.ne_none_iff_exists'.1 h.header
  obtain ⟨info, entries, hf, -, hr⟩ :=
    (h.consistent.scopes db.oid).exists_current db.ne_global hk
  refine ⟨info, entries, pk, hf, hk, hr, h.fileOk info entries hf, ?_⟩
  rw [← h.map]
  funext rel
  rw [relationKeys_of_current hf hk, find?_isKeyOf]

/-- Whatever readable array is written, the file represents its map. -/
theorem Represents.putEntries {m : KeyMap} {info : TDESignedPrincipalKeyInfo}
    {entries new : List TDEMapEntry} {pk : TDEPrincipalKey} (h : Represents w db s m)
    (hf : s.keyFiles (.keys db.oid) = some (.current info entries))
    (hk : principalKeyOf w s db.oid = some pk) (hr : Readable w pk.keyData new)
    (ha : ArrayOk new) :
    Represents w db (s.putKeyFile (.keys db.oid) (some (.current info new)))
      (fun rel => (find TDEMapEntry.slotKey rel new).bind (TDEMapEntry.unwrap w pk.keyData)) := by
  have hnew : (s.putKeyFile (.keys db.oid) (some (.current info new))).keyFiles (.keys db.oid) =
      some (.current info new) := by simp
  have hpk : principalKeyOf w (s.putKeyFile (.keys db.oid) (some (.current info new))) db.oid =
      some pk := (principalKeyOf_putEntries db.ne_global hf).trans hk
  refine ⟨h.consistent.putEntries db.ne_global db.ne_default hf hk hr, .of_current hnew ha,
    by simp [hpk], ?_⟩
  funext rel
  rw [relationKeys_of_current hnew hpk, find?_isKeyOf]

theorem scopeInfo_ne_none_of_key (h : principalKeyOf w s db.oid ≠ none) :
    scopeInfo s db.oid ≠ none := by
  intro hi
  rw [principalKeyOf, hi] at h
  exact h rfl

/-- In an array that stands for a map the scan of a save finds the slot of the relation. -/
theorem saveSlot_isMatch (db : DatabaseId) {entries : List TDEMapEntry} (ha : ArrayOk entries)
    (rel : RelId) :
    ∀ e ∈ entries, (decide (e.spcOid = (rel.locator db).spcOid) &&
      decide (e.relNumber = (rel.locator db).relNumber)) = true ↔
        e.slotKey = some rel.pair := by
  intro e he
  rw [Bool.and_eq_true, decide_eq_true_eq, decide_eq_true_eq, slotKey_eq_some]
  refine ⟨fun h => ⟨?_, h⟩, fun h => h.2⟩
  cases ht : e.type with
  | key => rfl
  | empty => exact absurd ((ha.free e he ht).symm.trans h.2).symm rel.valid

/-- A relation has no key exactly if it has no entry. -/
theorem bind_unwrap_eq_none {keyData : List UInt8} {entries : List TDEMapEntry}
    (hr : Readable w keyData entries) (rel : Oid × UInt32) :
    (find TDEMapEntry.slotKey rel entries).bind (TDEMapEntry.unwrap w keyData) = none ↔
      find TDEMapEntry.slotKey rel entries = none := by
  cases h : find TDEMapEntry.slotKey rel entries with
  | none => simp
  | some e =>
      have hsome := hr e (mem_of_find h) (slotKey_eq_some.1 (key_of_find h)).1
      simp [Option.isSome_iff_ne_none.1 hsome]

/-- What a save leaves in the file of the database, once the principal key is there. -/
theorem Saved.represents {m : KeyMap} {u : Server} {info : TDESignedPrincipalKeyInfo}
    {entries : List TDEMapEntry} {pk : TDEPrincipalKey} {rel : RelId} {k : InternalKey}
    {replaceExisting : Bool} (hsv : Saved w s t (rel.locator db) k replaceExisting u info entries pk)
    (hu : Represents w db u m) :
    Represents w db t (MapOp.spec m (.save rel k replaceExisting)).2 := by
  have hr := (hu.consistent.scopes db.oid).readable db.ne_global info entries pk hsv.file hsv.key
  have ha : ArrayOk entries := hu.fileOk info entries hsv.file
  have hm : m = fun rel => (find TDEMapEntry.slotKey rel entries).bind
      (TDEMapEntry.unwrap w pk.keyData) := by
    rw [← hu.map]
    funext r
    rw [← find?_isKeyOf]
    exact relationKeys_of_current hsv.file hsv.key r
  have hmatch := saveSlot_isMatch db ha rel
  have hfound : (saveSlot (rel.locator db) entries).1 = true ↔ m rel.pair ≠ none := by
    rw [saveSlot, findSlot_fst hmatch, hm, ne_eq, ne_eq, bind_unwrap_eq_none hr]
  -- when the scan does not stop at an entry that is to be kept, the map is updated
  have hwrite : (saveSlot (rel.locator db) entries).1 = false ∨ replaceExisting = true →
      Represents w db t (Function.update m rel.pair (some k)) := by
    intro hc
    obtain ⟨e, he, hq⟩ := hsv.written hc
    have hekey : e.slotKey = some rel.pair :=
      slotKey_eq_some.2 ⟨he.type, he.spcOid, he.relNumber⟩
    have hfree : ∀ c ∈ entries, decide (c.type = .empty) = true ↔ c.slotKey = none :=
      fun c _ => by rw [slotKey_eq_none, decide_eq_true_eq]
    obtain ⟨huniq, hfind⟩ := writeAt_findSlot ha.unique hmatch hfree hekey
    have hr' := hr.writeAt (fun _ => by rw [he.unwrap]; rfl)
      (saveSlot (rel.locator db) entries).2
    have ha' : ArrayOk (writeAt entries (saveSlot (rel.locator db) entries).2 e) := by
      refine ⟨huniq, fun a hamem hempty => ?_⟩
      obtain rfl | hamem := mem_writeAt hamem
      · rw [he.type] at hempty
        cases hempty
      · exact ha.free a hamem hempty
    have hput := (hu.putEntries hsv.file hsv.key hr' ha').loaded hq.loaded
    have hmap : (fun r => (find TDEMapEntry.slotKey r
        (writeAt entries (saveSlot (rel.locator db) entries).2 e)).bind
        (TDEMapEntry.unwrap w pk.keyData)) = Function.update m rel.pair (some k) := by
      funext r
      rw [saveSlot, hfind, hm]
      by_cases hrel : r = rel.pair
      · simp [hrel, he.unwrap]
      · simp [hrel]
    rwa [hmap] at hput
  cases replaceExisting with
  | true => exact hwrite (.inr rfl)
  | false =>
      by_cases hnone : m rel.pair = none
      · have hslot : (saveSlot (rel.locator db) entries).1 = false := by
          rw [← Bool.not_eq_true, hfound]
          simpa using hnone
        simpa [MapOp.spec, hnone] using hwrite (.inl hslot)
      · simpa [MapOp.spec, hnone] using hu.loaded (hsv.kept (hfound.2 hnone) rfl).loaded

theorem save_spec {m : KeyMap} (h : Represents w db s m) (rel : RelId) (k : InternalKey)
    (replaceExisting : Bool) :
    wp (saveSmgrKey w (rel.locator db) k replaceExisting)
      (fun _ t => Represents w db t (MapOp.spec m (.save rel k replaceExisting)).2)
      (fun _ t => Represents w db t m ∧ (s.SysOk → ¬KeyAvailable w s db)) s := by
  have hi := scopeInfo_ne_none_of_key h.header
  refine (saveSmgrKey_spec h.consistent (rel.locator db) db.ne_global k replaceExisting).mono
    (fun _ t ht => ?_) fun _ t ht => ?_
  · obtain ⟨u, info, entries, pk, hsv⟩ := ht
    exact hsv.represents (h.loaded (hsv.loaded hi))
  · obtain ⟨hl, hbad⟩ := ht.2 hi
    refine ⟨h.loaded hl, fun hok ha => ?_⟩
    obtain ⟨hc, hreach⟩ := hbad hok
    obtain ha | ha := ha
    · exact ha hc
    · exact hreach ha

theorem free_spec {m : KeyMap} (h : Represents w db s m) (rel : RelId) :
    wp (freeKeyMapEntry (rel.locator db))
      (fun _ t => Represents w db t (Function.update m rel.pair none))
      (fun _ t => Represents w db t m ∧ ¬s.SysOk) s := by
  have hi := scopeInfo_ne_none_of_key h.header
  refine (freeKeyMapEntry_spec (rel.locator db) db.ne_global
    ((h.consistent.scopes db.oid).format db.ne_global)).mono (fun _ t ht => ?_) fun _ t ht => ?_
  · obtain ⟨hnone, -⟩ | ⟨info, entries, hf, hq⟩ := ht
    · exact absurd hnone hi
    obtain ⟨info', entries', pk, hf', hk, hr, ha, hm⟩ := h.exists_current
    obtain ⟨rfl, rfl⟩ : info = info' ∧ entries = entries' := by
      have := hf.symm.trans hf'
      simpa using this
    obtain ⟨huniq, hfind⟩ := overwriteFirst_free (k := rel.pair) ha.unique
      (fun c _ => isKeyOf_eq_true) (slotKey_eq_none.2 (show emptyMapEntry.type = .empty from rfl))
    have ha' : ArrayOk (overwriteFirst (TDEMapEntry.isKeyOf rel.spcOid rel.relNumber)
        emptyMapEntry entries) := by
      refine ⟨huniq, fun e he hempty => ?_⟩
      obtain rfl | he := mem_overwriteFirst he
      · rfl
      · exact ha.free e he hempty
    have hput := (h.putEntries hf hk (hr.overwriteFirst _) ha').loaded hq.loaded
    have hmap : (fun r => (find TDEMapEntry.slotKey r
        (overwriteFirst (TDEMapEntry.isKeyOf rel.spcOid rel.relNumber) emptyMapEntry
          entries)).bind (TDEMapEntry.unwrap w pk.keyData)) =
        Function.update m rel.pair none := by
      funext r
      rw [hm]
      by_cases hrel : r = rel.pair
      · rw [hfind, if_pos hrel]
        simp [hrel]
      · rw [hfind, if_neg hrel]
        simp [hrel]
    rwa [hmap] at hput
  · obtain ⟨hbad, hq | ⟨hnone, -⟩⟩ := ht
    · exact ⟨h.loaded hq.loaded, hbad⟩
    · exact absurd hnone hi

theorem count_spec {m : KeyMap} (h : Represents w db s m) (spcOid : Oid) :
    wp (countEncryptionKeys db.oid spcOid)
      (fun n t => n = Set.ncard {r | m r ≠ none ∧ (spcOid = 0 ∨ r.1 = spcOid)} ∧
        Represents w db t m)
      (fun _ t => Represents w db t m ∧ ¬s.SysOk) s := by
  refine (countEncryptionKeys_spec spcOid
    ((h.consistent.scopes db.oid).format db.ne_global)).mono (fun n t ht => ?_)
    fun _ t ht => ⟨h.loaded ht.1.loaded, ht.2⟩
  obtain ⟨hq, rfl⟩ := ht
  refine ⟨?_, h.loaded hq.loaded⟩
  obtain ⟨info, entries, pk, hf, hk, hr, ha, hm⟩ := h.exists_current
  have hpred : ∀ e : TDEMapEntry, (e.type = .key && (spcOid = 0 || e.spcOid = spcOid)) =
      e.slotKey.any fun r => decide (spcOid = 0 ∨ r.1 = spcOid) := by
    intro e
    cases ht : e.type <;> simp [TDEMapEntry.slotKey, ht]
  have hset : {r | m r ≠ none ∧ (spcOid = 0 ∨ r.1 = spcOid)} =
      {r | find TDEMapEntry.slotKey r entries ≠ none ∧ (spcOid = 0 ∨ r.1 = spcOid)} := by
    ext r
    simp only [Set.mem_ofPred_eq, hm, ne_eq, bind_unwrap_eq_none hr]
  rw [hset, ← countP_eq_ncard ha.unique, hf]
  exact List.countP_congr fun e _ => by rw [hpred e]

/-- A run of steps that leaves the database a header represents the same map. -/
theorem Represents.steps {m : KeyMap} (h : Represents w db s m) (hst : LoggedSteps w s t)
    (hk : principalKeyOf w t db.oid ≠ none) : Represents w db t m := by
  refine ⟨hst.keySteps.consistent h.consistent, hst.fileOk h.fileOk, hk, ?_⟩
  rw [← h.map]
  funext rel
  rw [relationKeys, relationKeys, hst.keySteps.relationTable_eq db.ne_global]

/-- Whether an operation is a rotation, the only one that needs more than the principal key. -/
def MapOp.isRotate : MapOp → Bool
  | rotate .. => true
  | _ => false

/-- An operation that returns answers as the map does. One that fails leaves the map alone; unless
it is a rotation, it fails only if a system call does or the principal key cannot be had. -/
theorem MapOp.exec_spec {m : KeyMap} (h : Represents w db s m) (op : MapOp) :
    wp (op.exec w db)
      (fun r t => r = (op.spec m).1 ∧ Represents w db t (op.spec m).2)
      (fun _ t => Represents w db t m ∧
        (op.isRotate = false → s.SysOk → ¬KeyAvailable w s db)) s := by
  cases op with
  | save rel k replaceExisting =>
      refine (wp_bind ..).2 ((save_spec h rel k replaceExisting).mono (fun _ t ht => ?_)
        fun _ t ht => ⟨ht.1, fun _ => ht.2⟩)
      cases replaceExisting <;> exact ⟨rfl, ht⟩
  | free rel =>
      exact (wp_bind ..).2 ((free_spec h rel).mono (fun _ t ht => ⟨rfl, ht⟩)
        fun _ t ht => ⟨ht.1, fun _ hok => absurd hok ht.2⟩)
  | has rel =>
      refine (wp_bind ..).2 ((hasSmgrKey_spec h.consistent (rel.locator db) db.ne_global).mono
        (fun r t ht => ?_) fun _ t ht => ⟨h.loaded ht.1.loaded, fun _ hok => absurd hok ht.2⟩)
      obtain ⟨hq, rfl⟩ := ht
      refine ⟨?_, h.loaded hq.loaded⟩
      rw [← h.map]
      rfl
  | get rel =>
      refine (wp_bind ..).2 ((getSmgrKey_spec h.consistent (rel.locator db) db.ne_global).mono
        (fun r t ht => ?_) fun _ t ht => ⟨h.loaded ht.1, fun _ hok ha => ?_⟩)
      · obtain ⟨hl, rfl⟩ := ht
        refine ⟨?_, h.loaded hl⟩
        rw [← h.map]
        rfl
      · obtain ⟨hc, hreach⟩ := ht.2 hok
        obtain ha | ha := ha
        · exact ha hc
        · exact hreach ha
  | count spcOid =>
      refine (wp_bind ..).2 ((count_spec h spcOid).mono (fun n t ht => ?_)
        fun _ t ht => ⟨ht.1, fun _ hok => absurd hok ht.2⟩)
      obtain ⟨rfl, ht⟩ := ht
      exact ⟨rfl, ht⟩
  | rotate keyName providerName global =>
      have hscope : ProviderScopeOk (if global then globalDataTdeOid else db.oid) db.oid := by
        cases global with
        | true => exact .inl rfl
        | false => exact .inr ⟨rfl, db.ne_default, db.ne_global⟩
      refine (wp_bind ..).2 ((setPrincipalKeyWithKeyring_spec h.consistent hscope keyName
        providerName).mono (fun _ t ht => ?_) fun _ t ht => ?_)
      · obtain ⟨hst, -, k, hk, -⟩ := ht
        exact ⟨rfl, h.steps hst (by simp [hk])⟩
      · refine ⟨h.steps ht.1 ?_, fun hrot => by cases hrot⟩
        obtain hk | ⟨k, hk, -⟩ := ht.2.2.1
        · rw [hk]
          exact h.header
        · simp [hk]

/-! ### Sequences of operations -/

/-- The answers of a sequence of operations and the state after it. -/
def mapRun (w : World) (db : DatabaseId) :
    List MapOp → Server → List (Except TdeError MapReply) × Server
  | [], s => ([], s)
  | op :: ops, s =>
    match op.exec w db s with
    | .ok r t => (.ok r :: (mapRun w db ops t).1, (mapRun w db ops t).2)
    | .error e t => (.error e :: (mapRun w db ops t).1, (mapRun w db ops t).2)

/-- The answers are those of the map: started as `m`, it ends as `m'`. -/
inductive MapTrace : KeyMap → List MapOp → List (Except TdeError MapReply) → KeyMap → Prop
  | nil (m : KeyMap) : MapTrace m [] [] m
  | returned {m m' : KeyMap} {op : MapOp} {ops : List MapOp}
      {rs : List (Except TdeError MapReply)} : MapTrace (op.spec m).2 ops rs m' →
      MapTrace m (op :: ops) (.ok (op.spec m).1 :: rs) m'
  | failed {m m' : KeyMap} {op : MapOp} {ops : List MapOp}
      {rs : List (Except TdeError MapReply)} (e : TdeError) : MapTrace m ops rs m' →
      MapTrace m (op :: ops) (.error e :: rs) m'

theorem mapRun_represents {m : KeyMap} (h : Represents w db s m) (ops : List MapOp) :
    ∃ m', MapTrace m ops (mapRun w db ops s).1 m' ∧ Represents w db (mapRun w db ops s).2 m' := by
  induction ops generalizing s m with
  | nil => exact ⟨m, .nil m, h⟩
  | cons op ops ih =>
      have hop := op.exec_spec h
      rw [mapRun]
      cases hr : op.exec w db s with
      | ok r t =>
          obtain ⟨rfl, ht⟩ := hop.of_ok hr
          obtain ⟨m', htr, hm'⟩ := ih ht
          exact ⟨m', .returned htr, hm'⟩
      | error e t =>
          obtain ⟨m', htr, hm'⟩ := ih (hop.of_error hr).1
          exact ⟨m', .failed e htr, hm'⟩

/-- At most one live entry of an array belongs to a relation. -/
theorem ArrayOk.countP_le {entries : List TDEMapEntry} (h : ArrayOk entries) (spcOid : Oid)
    (relNumber : UInt32) : entries.countP (TDEMapEntry.isKeyOf spcOid relNumber) ≤ 1 := by
  have hcount : entries.countP (TDEMapEntry.isKeyOf spcOid relNumber) =
      (entries.filterMap TDEMapEntry.slotKey).count (spcOid, relNumber) := by
    rw [List.count, List.countP_filterMap]
    refine List.countP_congr fun e _ => ?_
    rw [isKeyOf_eq_true]
    cases e.slotKey <;> simp
  rw [hcount]
  exact List.nodup_iff_count_le_one.1 h.unique _

/-- From a file with a header and no entries, every sequence of operations is answered as the map
that starts empty answers it. The file then has at most one live entry for a relation, and decrypting
the entries gives this map. An operation that is not a rotation fails only for want of a system call
or of the principal key. -/
theorem key_file_refines_map (w : World) (db : DatabaseId) (s : Server)
    (info : TDESignedPrincipalKeyInfo) (hs : Consistent w s)
    (hf : s.keyFiles (.keys db.oid) = some (.current info [])) (ops : List MapOp) :
    ∃ m, MapTrace (fun _ => none) ops (mapRun w db ops s).1 m ∧
      (∃ info' entries pk,
        (mapRun w db ops s).2.keyFiles (.keys db.oid) = some (.current info' entries) ∧
        principalKeyOf w (mapRun w db ops s).2 db.oid = some pk ∧
        (∀ spcOid relNumber, entries.countP (TDEMapEntry.isKeyOf spcOid relNumber) ≤ 1) ∧
        m = fun rel => (entries.find? (TDEMapEntry.isKeyOf rel.1 rel.2)).bind
          (TDEMapEntry.unwrap w pk.keyData)) ∧
      ∀ op : MapOp, op.isRotate = false → (mapRun w db ops s).2.SysOk →
        KeyAvailable w (mapRun w db ops s).2 db →
        ∃ r t, op.exec w db (mapRun w db ops s).2 = .ok r t := by
  have hi := scopeInfo_current db.ne_global hf
  obtain ⟨k, hk⟩ := (hs.scopes db.oid).header info hi
  have hpk := principalKeyOf_of_headerFor hi hk
  have hstart : Represents w db s fun _ => none := by
    refine ⟨hs, .of_current hf arrayOk_nil, by simp [hpk], ?_⟩
    funext rel
    rw [relationKeys_of_current hf hpk]
    rfl
  obtain ⟨m, htr, hm⟩ := mapRun_represents hstart ops
  refine ⟨m, htr, ?_, fun op hop hok hav => ?_⟩
  · obtain ⟨info', entries, pk, hf', hk', -, ha, hmap⟩ := hm.exists_current
    refine ⟨info', entries, pk, hf', hk', ha.countP_le, ?_⟩
    rw [hmap]
    funext rel
    rw [find?_isKeyOf]
  · cases hr : op.exec w db (mapRun w db ops s).2 with
    | ok r t => exact ⟨r, t, rfl⟩
    | error e t => exact absurd hav (((op.exec_spec hm).of_error hr).2 hop hok)

/-- The sample server once its database has a principal key. -/
def sampleKeyed : Server :=
  lifecycle sampleWorld [.setKeyUsingGlobalKeyProvider sampleDatabase (sampleCall [65])]
    sampleServer

theorem sampleKeyed_consistent : Consistent sampleWorld sampleKeyed :=
  lifecycle_consistent _ sampleServer_fresh.consistent

/-- Two saves of one relation, the second without replacing, then a rotation, two queries and a
free. -/
def sampleMapOps : List MapOp :=
  let rel : RelId := ⟨1663, 16384, by decide⟩
  let k : InternalKey := ⟨.aes128, [], List.replicate 16 7, by decide⟩
  let k' : InternalKey := ⟨.aes128, [], List.replicate 16 9, by decide⟩
  [.save rel k true, .save rel k' false, .rotate [66] [112] true, .get rel, .count 0, .free rel]

theorem key_file_refines_map_sample :
    Consistent sampleWorld sampleKeyed ∧
    ∃ m, MapTrace (fun _ => none) sampleMapOps
      (mapRun sampleWorld sampleDatabase sampleMapOps sampleKeyed).1 m := by
  obtain ⟨m, h, -⟩ := key_file_refines_map sampleWorld sampleDatabase sampleKeyed (sampleInfo 5)
    sampleKeyed_consistent (by decide +kernel) sampleMapOps
  exact ⟨sampleKeyed_consistent, m, h⟩

end OpenPgTde
