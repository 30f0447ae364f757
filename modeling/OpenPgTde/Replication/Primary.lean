import OpenPgTde.Replication.Redo

/-!
The log of a primary.

A primary runs the operations of `Lifecycle` and installs the extension in databases. What it logs
is well formed: at each record the providers, as the records before it leave them, know the key that
the record names. This is all that replay has to know about the primary.
-/

namespace OpenPgTde

open Lib.Effect Lib.SlotArray

variable {w : World} {s t u : Server} {scope : Oid}

/-! ### Well-formed logs -/

/-- A record as the operations write it, at a time when these are the providers. -/
def RecordOk (w : World) (providers : Oid → List KeyringProviderRecord) : XLogRecord → Prop
  | .addPrincipalKey info => ∃ k, HeaderFor w providers info.data.databaseId info k
  | .rotatePrincipalKey dbOid keyringId keyName =>
    (dbOid = defaultDataTdeOid ∨ dbOid = globalDataTdeOid → keyringId < 0) ∧
      KeyKnown w providers dbOid keyringId keyName
  | .deletePrincipalKey _ => True
  | .createRelationKey rel => rel.dbOid ≠ globalDataTdeOid ∧ rel.dbOid ≠ defaultDataTdeOid
  | .deleteRelationKey rel => rel.dbOid ≠ globalDataTdeOid ∧ rel.dbOid ≠ defaultDataTdeOid
  | .installExtension dbOid => dbOid ≠ globalDataTdeOid ∧ dbOid ≠ defaultDataTdeOid
  | .writeKeyProvider .. => False

/-- The providers after a record was replayed. -/
def providersAfter (files : Oid → List KeyringProviderRecord) :
    XLogRecord → Oid → List KeyringProviderRecord
  | .installExtension db => Function.update files db []
  | _ => files

/-- A log that starts when these are the providers. -/
def LogOk (w : World) : (Oid → List KeyringProviderRecord) → List XLogRecord → Prop
  | _, [] => True
  | files, r :: rs => RecordOk w files r ∧ LogOk w (providersAfter files r) rs

theorem logOk_append {files : Oid → List KeyringProviderRecord} {rs rs' : List XLogRecord} :
    LogOk w files (rs ++ rs') ↔ LogOk w files rs ∧ LogOk w (rs.foldl providersAfter files) rs' := by
  induction rs generalizing files with
  | nil => simp [LogOk]
  | cons r rs ih => simp [LogOk, ih, and_assoc]

theorem LogOk.recordOk {files : Oid → List KeyringProviderRecord} {rs : List XLogRecord}
    {r : XLogRecord} (h : LogOk w files rs) (hr : r ∈ rs) : ∃ files', RecordOk w files' r := by
  induction rs generalizing files with
  | nil => cases hr
  | cons r' rs ih =>
      obtain rfl | hr := List.mem_cons.1 hr
      · exact ⟨files, h.1⟩
      · exact ih h.2 hr

/-- From `s` to `t` these records were written, and they account for the providers. -/
structure Emitted (w : World) (s t : Server) (rs : List XLogRecord) : Prop where
  xlog : t.xlog = s.xlog ++ rs
  ok : LogOk w s.providers rs
  providers : t.providers = rs.foldl providersAfter s.providers

theorem Emitted.nil (hx : t.xlog = s.xlog) (hp : t.providers = s.providers) :
    Emitted w s t [] :=
  ⟨by simp [hx], trivial, hp⟩

theorem Emitted.single {r : XLogRecord} (hx : t.xlog = s.xlog ++ [r])
    (hr : RecordOk w s.providers r) (hp : t.providers = providersAfter s.providers r) :
    Emitted w s t [r] :=
  ⟨hx, ⟨hr, trivial⟩, hp⟩

theorem Emitted.trans {rs rs' : List XLogRecord} (h : Emitted w s t rs)
    (h' : Emitted w t u rs') : Emitted w s u (rs ++ rs') where
  xlog := by rw [h'.xlog, h.xlog, List.append_assoc]
  ok := logOk_append.2 ⟨h.ok, by rw [← h.providers]; exact h'.ok⟩
  providers := by rw [h'.providers, h.providers, List.foldl_append]

/-- From `s` to `t` a well-formed log was written. -/
def Emits (w : World) (s t : Server) : Prop := ∃ rs, Emitted w s t rs

theorem Emits.trans (h : Emits w s t) (h' : Emits w t u) : Emits w s u := by
  obtain ⟨rs, h⟩ := h
  obtain ⟨rs', h'⟩ := h'
  exact ⟨rs ++ rs', h.trans h'⟩

theorem Emits.of_eq (hx : t.xlog = s.xlog) (hp : t.providers = s.providers) : Emits w s t :=
  ⟨[], .nil hx hp⟩

theorem Quiet.emits (h : Quiet s t) : Emits w s t := by
  obtain ⟨_, _, _, _, rfl⟩ := h
  exact .of_eq rfl rfl

/-! ### Steps on principal keys -/

theorem HeaderFor.addRecord {info : TDESignedPrincipalKeyInfo} {k : TDEPrincipalKey}
    {providers : Oid → List KeyringProviderRecord} (h : HeaderFor w providers scope info k) :
    RecordOk w providers (.addPrincipalKey info) :=
  ⟨k, by rw [h.owner]; exact h⟩

theorem HeaderFor.rotateRecord {info : TDESignedPrincipalKeyInfo} {k : TDEPrincipalKey}
    {providers : Oid → List KeyringProviderRecord} (h : HeaderFor w providers scope info k) :
    RecordOk w providers (rotateRecord k) := by
  have hk : k.keyInfo = info.data := keyInfo_of_namedKey h.named
  obtain ⟨r, hr, hvault, hvalid⟩ := h.fetched
  refine ⟨fun hsc => ?_, r, k.keyData, ?_, ?_, ?_⟩
  · rw [hk] at hsc ⊢
    exact h.shared (by rwa [h.owner] at hsc)
  · rw [hk, h.owner]
    exact hr
  · rw [hk]
    exact hvault
  · rw [hk]
    exact hvalid

theorem LoggedStep.emits (h : LoggedStep w s t) : Emits w s t := by
  cases h with
  | quiet h => exact h.emits
  | load | tmp | tmpWal | brokenSave | brokenSaveServer => exact .of_eq rfl rfl
  | brokenAdd _ hh => exact ⟨_, .single rfl hh.addRecord rfl⟩
  | brokenDelete => exact ⟨_, .single rfl trivial rfl⟩
  | save _ _ hh => exact ⟨_, .single rfl hh.addRecord rfl⟩
  | saveServer _ hh => exact ⟨_, .single rfl hh.addRecord rfl⟩
  | rotate _ _ _ hh => exact ⟨_, .single rfl hh.rotateRecord rfl⟩
  | rotateServer _ _ _ hh => exact ⟨_, .single rfl hh.rotateRecord rfl⟩
  | delete => exact ⟨_, .single rfl trivial rfl⟩

theorem KeyStep.emits (h : KeyStep w s t) : Emits w s t := by
  cases h with
  | logged h => exact h.emits
  | header =>
      unfold Server.putHeader
      split <;> exact .of_eq rfl rfl
  | unlogged h hx => exact .of_eq hx h.providers
  | deleteServer => exact ⟨_, .single rfl trivial rfl⟩

theorem KeySteps.emits (h : KeySteps w s t) : Emits w s t := by
  induction h with
  | refl => exact .of_eq rfl rfl
  | tail _ h ih => exact ih.trans h.emits

/-! ### Operations -/

/-- The operations of a primary: those on keys, and installing the extension in a database. -/
inductive PrimaryOp
  | key (op : LifecycleOp)
  | install (db : DatabaseId)

def PrimaryOp.exec (w : World) : PrimaryOp → M Unit
  | key op => op.exec w
  | install db => extensionInitialize db

def primaryRun (w : World) (ops : List PrimaryOp) (s : Server) : Server :=
  ops.foldl (fun s op => after (op.exec w) s) s

/-- Installing the extension removes two files; no step of the run fails to. -/
def PrimaryOp.Clean (s : Server) : PrimaryOp → Prop
  | key _ => True
  | install _ => s.UnlinksOk

def PrimaryClean (w : World) : List PrimaryOp → Server → Prop
  | [], _ => True
  | op :: ops, s => op.Clean s ∧ PrimaryClean w ops (after (op.exec w) s)

theorem saveSmgrKey_emits (hs : Consistent w s) (rel : RelFileLocator)
    (hg : rel.dbOid ≠ globalDataTdeOid) (k : InternalKey) (replaceExisting : Bool) :
    wp (saveSmgrKey w rel k replaceExisting) (fun _ t => Emits w s t) (fun _ t => Emits w s t)
      s := by
  refine (saveSmgrKey_spec hs rel hg k replaceExisting).mono (fun _ t ht => ?_)
    fun _ t ht => ht.1.emits
  obtain ⟨v, info, entries, pk, h⟩ := ht
  by_cases hc : (saveSlot rel entries).1 = false ∨ replaceExisting = true
  · obtain ⟨e, -, hq⟩ := h.written hc
    have hput : Emits w v (v.putKeyFile (.keys rel.dbOid)
        (some (.current info (writeAt entries (saveSlot rel entries).2 e)))) := .of_eq rfl rfl
    exact h.steps.emits.trans (hput.trans hq.emits)
  · simp only [not_or, Bool.not_eq_false, Bool.not_eq_true] at hc
    exact h.steps.emits.trans (h.kept hc.1 hc.2).emits

theorem smgrCreateKey_emits (hs : Consistent w s) (rel : RelFileLocator)
    (hg : rel.dbOid ≠ globalDataTdeOid) (hd : rel.dbOid ≠ defaultDataTdeOid) :
    wp (smgrCreateKey w rel) (fun _ t => Emits w s t) (fun _ t => Emits w s t) s := by
  unfold smgrCreateKey
  simp only [wp_bind, wp_get]
  refine (generateInternalKey_spec _).mono (fun k t ht => ?_) fun _ t ht => ht.1.emits
  refine (saveSmgrKey_emits (ht.1.consistent hs) rel hg k true).mono (fun _ v hv => ?_)
    fun _ v hv => ht.1.emits.trans hv
  refine (xlogInsert_spec _).mono (fun _ x hx => ?_) fun _ _ h => h.elim
  subst hx
  exact ht.1.emits.trans (hv.trans ⟨_, .single rfl ⟨hg, hd⟩ rfl⟩)

theorem freeKeyMapEntry_emits (hs : Consistent w s) (rel : RelFileLocator)
    (hg : rel.dbOid ≠ globalDataTdeOid) :
    wp (freeKeyMapEntry rel) (fun _ t => Emits w s t) (fun _ t => Emits w s t) s := by
  have hput : ∀ {f v}, Quiet (s.putKeyFile (.keys rel.dbOid) f) v → Emits w s v := by
    intro f v h
    have hf : Emits w s (s.putKeyFile (.keys rel.dbOid) f) := .of_eq rfl rfl
    exact hf.trans h.emits
  refine (freeKeyMapEntry_spec rel hg ((hs.scopes rel.dbOid).format hg)).mono (fun _ t ht => ?_)
    fun _ t ht => ?_
  · obtain ⟨-, hq⟩ | ⟨info, entries, -, hq⟩ := ht
    · exact hput hq
    · exact hput hq
  · obtain ⟨-, hq | ⟨-, hq⟩⟩ := ht
    · exact hq.emits
    · exact hput hq

theorem LifecycleOp.exec_emits (op : LifecycleOp) (hs : Consistent w s) :
    Emits w s (after (op.exec w) s) := by
  cases hop : op.onRelation with
  | false =>
      obtain h | ⟨-, -, hp, hx⟩ := op.exec_steps hop hs
      · exact h.emits
      · exact .of_eq hx hp
  | true =>
      cases op with
      | createRelationKey db spcOid relNumber =>
          refine wp.after ((wp_bind ..).2 ((smgrCreateKey_emits hs _ db.ne_global
            db.ne_default).mono (fun _ t ht => ?_) fun _ t ht => ht))
          exact ht
      | removeRelationKey db spcOid relNumber =>
          exact (freeKeyMapEntry_emits hs _ db.ne_global).after
      | removeLeftoverKey db spcOid relNumber =>
          refine wp.after ((wp_bind ..).2 ((freeKeyMapEntry_emits hs
            ⟨spcOid, db.oid, relNumber⟩ db.ne_global).mono (fun _ t ht => ?_) fun _ _ h => h))
          refine (xlogInsert_spec _).mono (fun _ x hx => ?_) fun _ _ h => h.elim
          subst hx
          exact ht.trans ⟨_, .single rfl ⟨db.ne_global, db.ne_default⟩ rfl⟩
      | _ => cases hop

/-! ### Installing the extension -/

/-- A database in which the extension was just installed has no keys, and the others do not
notice. -/
theorem Consistent.installed {db : Oid} (hs : Consistent w s) (hg : db ≠ globalDataTdeOid) :
    Consistent w (s.installed db) := by
  refine ⟨fun a => ?_, ⟨fun oid => ?_, ?_, fun oid hne r hr => ?_⟩, hs.databases⟩
  · by_cases ha : a = db
    · subst ha
      exact ScopeOk.of_empty hg (.inl (by simp [Server.installed])) (by simp [Server.installed])
    · refine (hs.scopes a).frame (fun id => ?_) (fun _ => by simp [Server.installed, ha])
        (fun _ => rfl) (by simp [Server.installed, ha])
      have hfile : (s.installed db).providers (providerScope id a) =
          s.providers (providerScope id a) := by
        have hne : providerScope id a ≠ db := by
          unfold providerScope
          split
          · exact hg.symm
          · exact ha
        simp [Server.installed, hne]
      rw [getKeyProviderByID, getKeyProviderByID, hfile]
  · by_cases ho : oid = db
    · simp [Server.installed, ho]
    · simpa [Server.installed, ho] using hs.providers.nodup oid
  · simpa [Server.installed, hg.symm] using hs.providers.global
  · by_cases ho : oid = db
    · simp [Server.installed, ho] at hr
    · exact hs.providers.database oid hne r (by simpa [Server.installed, ho] using hr)

theorem extensionInitialize_spec (db : DatabaseId) (hs : Consistent w s) (hok : s.UnlinksOk) :
    wp (extensionInitialize db) (fun _ t => Consistent w t ∧ Emits w s t) (fun _ _ => False) s := by
  refine (wp_bind ..).2 ((extensionInstall_spec db.oid hok).mono (fun _ t ht => ?_)
    fun _ _ h => h)
  refine (xlogInsert_spec _).mono (fun _ v hv => ?_) fun _ _ h => h.elim
  subst hv
  have hct := ht.consistent (hs.installed db.ne_global)
  refine ⟨⟨fun a => (hct.scopes a).frame (fun _ => rfl) (fun _ => rfl) (fun _ => rfl) rfl,
    hct.providers, hct.databases⟩, [.installExtension db.oid], ?_⟩
  obtain ⟨_, _, _, _, rfl⟩ := ht
  exact .single rfl ⟨db.ne_global, db.ne_default⟩ rfl

/-! ### Runs -/

theorem PrimaryOp.exec_spec (op : PrimaryOp) (hs : Consistent w s) (hop : op.Clean s) :
    Consistent w (after (op.exec w) s) ∧ Emits w s (after (op.exec w) s) := by
  cases op with
  | key op => exact ⟨op.exec_consistent hs, op.exec_emits hs⟩
  | install db =>
      exact wp.after (P := fun t => Consistent w t ∧ Emits w s t)
        ((extensionInitialize_spec db hs hop).mono (fun _ _ h => h) fun _ _ h => h.elim)

/-- A run keeps the invariant, and its log is well formed. -/
theorem primaryRun_spec (ops : List PrimaryOp) (hs : Consistent w s)
    (hops : PrimaryClean w ops s) :
    Consistent w (primaryRun w ops s) ∧ Emits w s (primaryRun w ops s) := by
  induction ops generalizing s with
  | nil => exact ⟨hs, .of_eq rfl rfl⟩
  | cons op ops ih =>
      obtain ⟨hc, he⟩ := op.exec_spec hs hops.1
      obtain ⟨hc', he'⟩ := ih hc hops.2
      exact ⟨hc', he.trans he'⟩

end OpenPgTde
