import OpenPgTde.Replication.Apart
import OpenPgTde.Replication.Standby

/-!
Crash recovery.

The key files are written when an operation runs, not when its record is replayed. After a crash the
records since the last checkpoint are replayed over files that have seen all of them already. What
this does to a relation is followed by `Tracked`: its database is in order and the relation has its
key. Replay of records of other databases spares the database; replay of a header, a rotation or the
creation of a relation key finds the work done. A deletion of the principal key and an installation
of the extension do not look: they remove the file of the database, whatever has been stored in it
since.
-/

namespace OpenPgTde

open Lib.Effect Lib.SlotArray

variable {w : World} {s t : Server} {db : DatabaseId} {rel : Oid × UInt32} {k : InternalKey}

/-! ### A relation through a step -/

/-- The relation has the key `k` in a database that is in order. -/
structure Tracked (w : World) (db : DatabaseId) (rel : Oid × UInt32) (k : InternalKey)
    (s : Server) : Prop where
  scopeOk : ScopeOk w s db.oid
  key : relationKeys w s db.oid rel = some k

theorem Tracked.keySteps (h : Tracked w db rel k s) (hst : KeySteps w s t) :
    Tracked w db rel k t := by
  refine ⟨hst.scopeOk h.scopeOk, ?_⟩
  rw [← h.key, relationKeys, relationKeys, hst.relationTable_eq db.ne_global]

theorem Tracked.quiet (h : Tracked w db rel k s) (hq : Quiet s t) : Tracked w db rel k t :=
  h.keySteps (.single (.logged (.quiet hq)))

theorem Tracked.spares (h : Tracked w db rel k s) (hsp : Spares db.oid s t) :
    Tracked w db rel k t := by
  have hk : db.oid ≠ globalDataTdeOid → t.keyFiles (.keys db.oid) = s.keyFiles (.keys db.oid) :=
    fun _ => hsp.file
  have hw : db.oid = globalDataTdeOid → t.walKeys .walKeys = s.walKeys .walKeys :=
    fun hg => absurd hg db.ne_global
  refine ⟨h.scopeOk.frame hsp.providers hk hw hsp.cache, ?_⟩
  rw [← h.key, relationKeys, relationKeys, relationTable_congr hsp.providers hk hw db.ne_global]

/-- The entry behind the key. -/
theorem Tracked.exists_entry (h : Tracked w db rel k s) :
    ∃ info entries pk e, s.keyFiles (.keys db.oid) = some (.current info entries) ∧
      principalKeyOf w s db.oid = some pk ∧ Readable w pk.keyData entries ∧
      entries.find? (TDEMapEntry.isKeyOf rel.1 rel.2) = some e ∧
      e.unwrap w pk.keyData = some k := by
  cases hpk : principalKeyOf w s db.oid with
  | none =>
      have hi := h.scopeOk.principalKeyOf_none.1 hpk
      have := h.key
      rw [relationKeys_of_scopeInfo_none hi] at this
      cases this
  | some pk =>
      obtain ⟨info, entries, hf, -, hr⟩ := h.scopeOk.exists_current db.ne_global hpk
      have hkey := h.key
      rw [relationKeys_of_current hf hpk, Option.bind_eq_some_iff] at hkey
      obtain ⟨e, he, hopen⟩ := hkey
      exact ⟨info, entries, pk, e, hf, rfl, hr, he, hopen⟩

theorem Tracked.scopeInfo_ne_none (h : Tracked w db rel k s) : scopeInfo s db.oid ≠ none := by
  intro hi
  have := h.key
  rw [relationKeys_of_scopeInfo_none hi] at this
  cases this

/-- A change to the array in which the entry of the relation is still found. -/
theorem Tracked.putEntries {info : TDESignedPrincipalKeyInfo} {entries new : List TDEMapEntry}
    {pk : TDEPrincipalKey} (h : Tracked w db rel k s)
    (hf : s.keyFiles (.keys db.oid) = some (.current info entries))
    (hk : principalKeyOf w s db.oid = some pk) (hr : Readable w pk.keyData new)
    (hfind : new.find? (TDEMapEntry.isKeyOf rel.1 rel.2) =
      entries.find? (TDEMapEntry.isKeyOf rel.1 rel.2)) :
    Tracked w db rel k (s.putKeyFile (.keys db.oid) (some (.current info new))) := by
  refine ⟨h.scopeOk.putEntries db.ne_global db.ne_default hf hk hr, ?_⟩
  have hpk : principalKeyOf w (s.putKeyFile (.keys db.oid) (some (.current info new))) db.oid =
      some pk := (principalKeyOf_putEntries db.ne_global hf).trans hk
  have hnew : (s.putKeyFile (.keys db.oid) (some (.current info new))).keyFiles (.keys db.oid) =
      some (.current info new) := by simp
  rw [relationKeys_of_current hnew hpk, hfind, ← relationKeys_of_current hf hk]
  exact h.key

/-! ### Replay of the records of its database -/

/-- Replay of a new relation key writes to a slot that is free, and only if the relation of the
record has none. -/
theorem smgrCreateKeyRedo_tracked (h : Tracked w db rel k s) {r : RelFileLocator}
    (hdb : r.dbOid = db.oid) :
    wp (smgrCreateKeyRedo w r) (fun _ t => Tracked w db rel k t)
      (fun _ t => Tracked w db rel k t) s := by
  obtain ⟨spcOid, dbOid, relNumber⟩ := r
  obtain rfl : dbOid = db.oid := hdb
  unfold smgrCreateKeyRedo
  simp only [wp_bind, wp_get]
  refine (generateInternalKey_spec _).mono (fun fresh t ht => ?_) fun _ t ht => h.quiet ht.1
  have htt := h.quiet ht.1
  refine (wp_bind ..).2 ((getPrincipalKey_header_spec htt.scopeOk.cached (fun info hi => ?_)
    htt.scopeInfo_ne_none).mono (fun r u hu => ?_) fun _ u hu => htt.keySteps hu.1.steps.keySteps)
  · obtain ⟨_, hk⟩ := htt.scopeOk.header info hi
    exact hk.owner
  obtain ⟨hl, pk, rfl, hpk⟩ := hu
  have hu : Tracked w db rel k u := htt.keySteps hl.steps.keySteps
  obtain ⟨info, entries, pk', e, hf, hpk', hr, he, -⟩ := hu.exists_entry
  obtain rfl : pk' = pk := by
    rw [hl.principalKeyOf, hpk] at hpk'
    exact (Option.some.inj hpk').symm
  refine (storeKey_spec hf pk' fresh false).mono (fun _ v hv => ?_) fun _ v hv => hu.quiet hv.1
  cases hslot : (saveSlot ⟨spcOid, db.oid, relNumber⟩ entries).1 with
  | true => exact hu.quiet (hv.1 hslot rfl)
  | false =>
      obtain ⟨e', he', hq⟩ := hv.2 (.inl hslot)
      -- the entry of the tracked relation did not match, so the record is about another one
      have hother : e'.isKeyOf rel.1 rel.2 = false := by
        have hno := isMatch_of_findSlot hslot e (List.mem_of_find?_eq_some he)
        obtain ⟨-, hspc, hrel⟩ := isKeyOf_iff.1 (List.find?_some he)
        apply Bool.eq_false_iff.2
        intro hkey
        obtain ⟨-, hspc', hrel'⟩ := isKeyOf_iff.1 hkey
        have hsame : spcOid = rel.1 ∧ relNumber = rel.2 :=
          ⟨he'.spcOid.symm.trans hspc', he'.relNumber.symm.trans hrel'⟩
        simp [hspc, hrel, hsame] at hno
      have hfree : ∀ c ∈ entries, decide (c.type = .empty) = true →
          c.isKeyOf rel.1 rel.2 = false := by
        intro c _ hc
        simp [TDEMapEntry.isKeyOf, of_decide_eq_true hc]
      have hnew := hr.writeAt (fun _ => by rw [he'.unwrap]; rfl)
        (saveSlot ⟨spcOid, db.oid, relNumber⟩ entries).2
      exact (hu.putEntries hf hpk' hnew (find?_writeAt_findSlot hslot hother hfree)).quiet hq

theorem freeKeyMapEntry_tracked (h : Tracked w db rel k s) {r : RelFileLocator}
    (hdb : r.dbOid = db.oid) (hne : (r.spcOid, r.relNumber) ≠ rel) :
    wp (freeKeyMapEntry r) (fun _ t => Tracked w db rel k t) (fun _ t => Tracked w db rel k t)
      s := by
  obtain ⟨spcOid, dbOid, relNumber⟩ := r
  obtain rfl : dbOid = db.oid := hdb
  refine (freeKeyMapEntry_spec _ db.ne_global (h.scopeOk.format db.ne_global)).mono
    (fun _ t ht => ?_) fun _ t ht => ?_
  · obtain ⟨hi, -⟩ | ⟨info, entries, hf, hq⟩ := ht
    · exact absurd hi h.scopeInfo_ne_none
    obtain ⟨info', entries', pk, e, hf', hpk, hr, -⟩ := h.exists_entry
    obtain ⟨rfl, rfl⟩ : info = info' ∧ entries = entries' := by simpa [hf] using hf'
    refine (h.putEntries hf hpk (hr.overwriteFirst _) (find?_overwriteFirst rfl ?_)).quiet hq
    intro c _ hc
    obtain ⟨-, hspc, hrel⟩ := isKeyOf_iff.1 hc
    apply Bool.eq_false_iff.2
    intro hk
    obtain ⟨-, hspc', hrel'⟩ := isKeyOf_iff.1 hk
    exact hne (Prod.ext (hspc.symm.trans hspc') (hrel.symm.trans hrel'))
  · obtain ⟨-, hq | ⟨hi, -⟩⟩ := ht
    · exact h.quiet hq
    · exact absurd hi h.scopeInfo_ne_none

/-- The records that remove the file of a database. -/
def XLogRecord.discards : XLogRecord → Bool
  | installExtension _ => true
  | deletePrincipalKey _ => true
  | _ => false

/-- The record of the removal of a relation key. -/
def XLogRecord.removes (db : Oid) (rel : Oid × UInt32) : XLogRecord → Bool
  | deleteRelationKey r => r.dbOid = db && r.spcOid = rel.1 && r.relNumber = rel.2
  | _ => false

/-- Replay of a record of the database that does not remove its file. -/
theorem redo_tracked (h : Tracked w db rel k s) (r : XLogRecord)
    {providers : Oid → List KeyringProviderRecord} (hr : RecordOk w providers r)
    (hdb : r.databaseOid = db.oid) (hfile : r.discards = false)
    (hrel : r.removes db.oid rel = false) :
    wp (tdeheapRmgrRedo w r) (fun _ t => Tracked w db rel k t) (fun _ t => Tracked w db rel k t)
      s := by
  cases r with
  | createRelationKey r => exact smgrCreateKeyRedo_tracked h hdb
  | addPrincipalKey info =>
      refine (addPrincipalKey_redo_spec hdb h.scopeOk.formatOk).mono (fun _ t ht => ?_)
        fun _ t ht => ?_
      · obtain ⟨-, hq⟩ | ⟨hi, -⟩ := ht
        · exact h.quiet hq
        · exact absurd hi h.scopeInfo_ne_none
      · obtain ⟨-, hq | ⟨hi, -⟩⟩ := ht
        · exact h.quiet hq
        · exact absurd hi h.scopeInfo_ne_none
  | rotatePrincipalKey databaseId keyringId keyName =>
      obtain rfl : databaseId = db.oid := hdb
      exact (xlTdePerformRotateKey_spec h.scopeOk hr.1).mono (fun _ t ht => h.keySteps ht)
        fun _ t ht => h.keySteps ht.1
  | writeKeyProvider => exact hr.elim
  | deleteRelationKey r =>
      refine freeKeyMapEntry_tracked h hdb fun hsame => ?_
      subst hsame
      have hown : r.dbOid = db.oid := hdb
      simp [XLogRecord.removes, hown] at hrel
  | installExtension => cases hfile
  | deletePrincipalKey => cases hfile

/-! ### Recovery -/

/-- What the startup process does: it replays a record of the key management, or it replays the end
of a transaction that removed the storage of a relation. -/
inductive RecoveryEvent
  | redo (r : XLogRecord)
  | unlink (db : DatabaseId) (spcOid : Oid) (relNumber : UInt32)

/-- `tde_mdunlink` of the main fork: a relation that has a key loses it. -/
def mdUnlink (rel : RelFileLocator) : M Unit := do
  if ← hasSmgrKey rel then smgrDeleteKey rel

def RecoveryEvent.exec (w : World) : RecoveryEvent → M Unit
  | redo r => tdeheapRmgrRedo w r
  | unlink db spcOid relNumber => mdUnlink ⟨spcOid, db.oid, relNumber⟩

def RecoveryEvent.record : RecoveryEvent → Option XLogRecord
  | redo r => some r
  | unlink .. => none

/-- The records that are replayed, in order. -/
def redone (events : List RecoveryEvent) : List XLogRecord := events.filterMap RecoveryEvent.record

/-- Recovery replays until it is through or a routine raises an error. -/
def recover (w : World) (events : List RecoveryEvent) : M Unit := forM events fun e => e.exec w

/-- The storage or the key of the relation is removed by the event. -/
def RecoveryEvent.removes (db : DatabaseId) (rel : Oid × UInt32) : RecoveryEvent → Bool
  | redo r => r.removes db.oid rel
  | unlink db' spcOid relNumber => db'.oid = db.oid && spcOid = rel.1 && relNumber = rel.2

/-- A server that starts after a crash has the files it had and nothing in its cache. -/
structure Restarted (s t : Server) : Prop where
  keyFiles : t.keyFiles = s.keyFiles
  walKeys : t.walKeys = s.walKeys
  providers : t.providers = s.providers
  cache : ∀ scope, t.cache scope = none

/-- The event is that of a well-formed log and does not take away what the relation depends on. -/
structure RecoveryEvent.Harmless (w : World) (db : DatabaseId) (rel : Oid × UInt32)
    (e : RecoveryEvent) : Prop where
  recordOk : ∀ r, e = .redo r → ∃ providers, RecordOk w providers r
  keepsFile : ∀ r, e = .redo r → r.databaseOid = db.oid → r.discards = false
  keepsKey : e.removes db rel = false

theorem RecoveryEvent.exec_tracked (e : RecoveryEvent) (he : e.Harmless w db rel) (ho : Owned s)
    (h : Tracked w db rel k s) :
    wp (e.exec w) (fun _ t => Owned t ∧ Tracked w db rel k t)
      (fun _ t => Owned t ∧ Tracked w db rel k t) s := by
  -- a program about another scope spares the database; one about the database spares the server key
  have hother : ∀ {m : M Unit}, Sparing db.oid s m → wp m
      (fun _ t => Owned t ∧ Tracked w db rel k t) (fun _ t => Owned t ∧ Tracked w db rel k t) s :=
    fun hm => hm.mono (fun _ _ ht => ⟨ht.owned ho, h.spares ht⟩)
      fun _ _ ht => ⟨ht.owned ho, h.spares ht⟩
  have hown : ∀ {m : M Unit}, Sparing globalDataTdeOid s m →
      wp m (fun _ t => Tracked w db rel k t) (fun _ t => Tracked w db rel k t) s → wp m
      (fun _ t => Owned t ∧ Tracked w db rel k t) (fun _ t => Owned t ∧ Tracked w db rel k t) s :=
    fun hm hk => (hm.and hk).mono (fun _ _ ht => ⟨ht.1.owned ho, ht.2⟩)
      fun _ _ ht => ⟨ht.1.owned ho, ht.2⟩
  cases e with
  | redo r =>
      obtain ⟨providers, hr⟩ := he.recordOk r rfl
      by_cases hdb : r.databaseOid = db.oid
      · have hne : r.databaseOid ≠ globalDataTdeOid := by rw [hdb]; exact db.ne_global
        exact hown (redo_spares r hr hne (by decide) ho)
          (redo_tracked h r hr hdb (he.keepsFile r rfl hdb) he.keepsKey)
      · exact hother (redo_spares r hr hdb db.ne_default ho)
  | unlink db' spcOid relNumber =>
      refine (wp_bind ..).2 ((hasSmgrKey_quiet _).mono (fun found t ht => ?_)
        fun _ t ht => ⟨(ht.spares (d := db.oid)).owned ho, h.quiet ht⟩)
      have hot : Owned t := (ht.spares (d := db.oid)).owned ho
      have htt : Tracked w db rel k t := h.quiet ht
      refine (wp_ite ..).2 ⟨fun _ => ?_, fun _ => ⟨hot, htt⟩⟩
      by_cases hdb : db'.oid = db.oid
      · have hspare : Sparing globalDataTdeOid t
            (freeKeyMapEntry ⟨spcOid, db'.oid, relNumber⟩) :=
          freeKeyMapEntry_spares db'.ne_global db'.ne_global hot
        have hne : (spcOid, relNumber) ≠ rel := by
          rintro rfl
          simpa [RecoveryEvent.removes, hdb] using he.keepsKey
        exact (hspare.and (freeKeyMapEntry_tracked htt hdb hne)).mono
          (fun _ _ hu => ⟨hu.1.owned hot, hu.2⟩) fun _ _ hu => ⟨hu.1.owned hot, hu.2⟩
      · have hspare : Sparing db.oid t (freeKeyMapEntry ⟨spcOid, db'.oid, relNumber⟩) :=
          freeKeyMapEntry_spares hdb db'.ne_global hot
        exact hspare.mono (fun _ _ hu => ⟨hu.owned hot, htt.spares hu⟩)
          fun _ _ hu => ⟨hu.owned hot, htt.spares hu⟩

/-- The relation keeps its key in whatever state recovery stops. -/
theorem recover_tracked (events : List RecoveryEvent) (he : ∀ e ∈ events, e.Harmless w db rel)
    (ho : Owned s) (h : Tracked w db rel k s) :
    Tracked w db rel k (after (recover w events) s) := by
  have hrun := wp_forM (E := fun _ t => Owned t ∧ Tracked w db rel k t)
    (fun t => Owned t ∧ Tracked w db rel k t) (fun e => RecoveryEvent.exec w e) events ⟨ho, h⟩
    fun e hmem t ht => e.exec_tracked (he e hmem) ht.1 ht.2
  exact hrun.after.2

/-! ### From the primary to the recovered server -/

theorem ScopeOk.restarted {scope : Oid} (h : ScopeOk w s scope) (hr : Restarted s t) :
    ScopeOk w t scope := by
  refine h.uncached (fun _ => ?_) (fun _ => ?_) (fun _ => ?_) (hr.cache scope)
  · rw [hr.providers]
  · rw [hr.keyFiles]
  · rw [hr.walKeys]

theorem Consistent.owned (h : Consistent w s) : Owned s := by
  refine ⟨fun a info hi => ?_, fun a k hk => ?_⟩
  · obtain ⟨_, hk⟩ := (h.scopes a).header info hi
    exact hk.owner
  · exact (h.scopes a).owner ((h.scopes a).cached k hk)

theorem Restarted.tracked (hr : Restarted s t) (hs : Consistent w s)
    (hk : relationKeys w s db.oid rel = some k) : Owned t ∧ Tracked w db rel k t := by
  have hinfo : ∀ a, scopeInfo t a = scopeInfo s a := fun a =>
    scopeInfo_congr (fun _ => by rw [hr.keyFiles]) fun _ => by rw [hr.walKeys]
  refine ⟨⟨fun a info hi => hs.owned.header a info (by rw [← hinfo, hi]), fun a k' hk' => ?_⟩,
    (hs.scopes db.oid).restarted hr, ?_⟩
  · rw [hr.cache] at hk'
    cases hk'
  · have htable : relationTable w t db.oid = relationTable w s db.oid :=
      relationTable_congr (fun _ => by rw [hr.providers]) (fun _ => by rw [hr.keyFiles])
        (fun hg => absurd hg db.ne_global) db.ne_global
    rw [← hk, relationKeys, relationKeys, htable]

/-- A primary runs from a checkpoint on, crashes, and what it logged is replayed over the files it
left, up to any point and with the removal of storage in between. A relation that had a key at the
crash and is not removed has the same key in the state in which replay stops, if no record that is
replayed deletes the principal key of its database or installs the extension there. -/
theorem crash_recovery_keeps_relation_keys (w : World) (p s : Server) (hp : Consistent w p)
    (ops : List PrimaryOp) (hops : PrimaryClean w ops p) (hs : Restarted (primaryRun w ops p) s)
    (events : List RecoveryEvent)
    (hlog : p.xlog ++ redone events <+: (primaryRun w ops p).xlog)
    (db : DatabaseId) (rel : Oid × UInt32) (k : InternalKey)
    (hk : relationKeys w (primaryRun w ops p) db.oid rel = some k)
    (hkept : ∀ e ∈ events, e.removes db rel = false)
    (hfile : ∀ r ∈ redone events, r.databaseOid = db.oid → r.discards = false) :
    relationKeys w (after (recover w events) s) db.oid rel = some k := by
  obtain ⟨hcons, rs, hrs⟩ := primaryRun_spec ops hp hops
  obtain ⟨rest, hrest⟩ := hlog
  have heq : rs = redone events ++ rest := by
    apply List.append_cancel_left
    rw [← hrs.xlog, ← hrest, List.append_assoc]
  have hredone : ∀ e ∈ events, ∀ r, e = .redo r → r ∈ redone events := by
    intro e he r hr
    exact List.mem_filterMap.2 ⟨e, he, by rw [hr]; rfl⟩
  obtain ⟨ho, ht⟩ := hs.tracked hcons hk
  refine (recover_tracked events (fun e he => ⟨fun r hr => ?_, fun r hr => ?_, ?_⟩) ho ht).key
  · apply hrs.ok.recordOk
    rw [heq]
    exact List.mem_append_left rest (hredone e he r hr)
  · exact hfile r (hredone e he r hr)
  · exact hkept e he

/-- The server after a crash: other random bytes, an empty cache. -/
def sampleCrash (s : Server) : Server :=
  { s with cache := fun _ => none, rng := fun i => UInt8.ofNat (i + 100) }

theorem sampleCrash_restarted (s : Server) : Restarted s (sampleCrash s) :=
  ⟨rfl, rfl, rfl, fun _ => rfl⟩

/-- A principal key, an encrypted relation and a rotation. -/
def sampleRotated : List PrimaryOp :=
  [.key (.setKeyUsingGlobalKeyProvider sampleDatabase (sampleCall [65])),
    .key (.createRelationKey sampleDatabase 1663 16384),
    .key (.setKeyUsingGlobalKeyProvider sampleDatabase (sampleCall [66]))]

/-- The key that the relation got from the random bytes of the sample server. -/
def sampleRelationKey (first iv : ℕ) : InternalKey where
  cipher := .aes128Xts
  key := List.ofFn fun i : Fin 32 => UInt8.ofNat (first + i)
  baseIv := List.ofFn fun i : Fin 16 => UInt8.ofNat (iv + i)
  length_key := by simp [CipherType.keyLength]

/-- All that the sample primary logs. -/
def sampleEvents (ops : List PrimaryOp) : List RecoveryEvent :=
  (primaryRun sampleWorld ops sampleServer).xlog.map RecoveryEvent.redo

theorem crash_recovery_keeps_relation_keys_sample :
    (redone (sampleEvents sampleRotated)).length = 3 ∧
    relationKeys sampleWorld (after (recover sampleWorld (sampleEvents sampleRotated))
      (sampleCrash (primaryRun sampleWorld sampleRotated sampleServer))) 5 (1663, 16384) =
        some (sampleRelationKey 16 48) := by
  refine ⟨by decide +kernel, crash_recovery_keeps_relation_keys sampleWorld sampleServer _
    sampleServer_fresh.consistent sampleRotated ⟨trivial, trivial, trivial, trivial⟩
    (sampleCrash_restarted _) (sampleEvents sampleRotated) (by decide +kernel) sampleDatabase
    (1663, 16384) (sampleRelationKey 16 48) (by decide +kernel) (by decide +kernel)
    (by decide +kernel)⟩

/-- A primary that deletes a principal key and sets another one before it creates the relation:
all records are replayed, the deletion removes the file that has the key of the relation, and the
creation makes up another key. -/
theorem crash_recovery_replaces_relation_key :
    Consistent sampleWorld sampleServer ∧ PrimaryClean sampleWorld sampleRekeyed sampleServer ∧
    Restarted (primaryRun sampleWorld sampleRekeyed sampleServer)
      (sampleCrash (primaryRun sampleWorld sampleRekeyed sampleServer)) ∧
    redone (sampleEvents sampleRekeyed) = (primaryRun sampleWorld sampleRekeyed sampleServer).xlog ∧
    (∀ e ∈ sampleEvents sampleRekeyed, e.removes sampleDatabase (1663, 16384) = false) ∧
    relationKeys sampleWorld (primaryRun sampleWorld sampleRekeyed sampleServer) 5
      (1663, 16384) = some (sampleRelationKey 32 64) ∧
    ∃ t, recover sampleWorld (sampleEvents sampleRekeyed)
        (sampleCrash (primaryRun sampleWorld sampleRekeyed sampleServer)) = .ok () t ∧
      relationKeys sampleWorld t 5 (1663, 16384) ≠ some (sampleRelationKey 32 64) := by
  refine ⟨sampleServer_fresh.consistent, ⟨trivial, trivial, trivial, trivial, trivial⟩,
    sampleCrash_restarted _, by decide +kernel, by decide +kernel, by decide +kernel, ?_⟩
  have hrun : (match recover sampleWorld (sampleEvents sampleRekeyed)
      (sampleCrash (primaryRun sampleWorld sampleRekeyed sampleServer)) with
    | .ok _ t => decide
      (relationKeys sampleWorld t 5 (1663, 16384) ≠ some (sampleRelationKey 32 64))
    | .error _ _ => false) = true := by
    decide +kernel
  cases h : recover sampleWorld (sampleEvents sampleRekeyed)
      (sampleCrash (primaryRun sampleWorld sampleRekeyed sampleServer)) with
  | ok _ t =>
      rw [h] at hrun
      exact ⟨t, rfl, of_decide_eq_true hrun⟩
  | error e t =>
      rw [h] at hrun
      cases hrun

end OpenPgTde
