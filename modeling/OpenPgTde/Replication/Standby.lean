import OpenPgTde.Replication.Primary

/-!
The key files of a standby.

A standby replays the records of the primary in order, and between two records its sessions read:
they load principal keys into the cache. As long as no deletion of a principal key is replayed while
the key is in the cache, the three copies of each principal key agree in every state, and the
entries of a file decrypt under the key that its header names. The replay of a deletion does not
clear the cache, so otherwise relation keys are later stored under a key that no header names.
-/

namespace OpenPgTde

open Lib.Effect Lib.SlotArray

variable {w : World} {s t u : Server} {scope : Oid}

/-! ### Replay keeps the invariant -/

/-- Replaying the record does not meet a stale cache entry or a file that cannot be removed. -/
def XLogRecord.Clean (s : Server) : XLogRecord → Prop
  | .deletePrincipalKey dbOid => dbOid ≠ globalDataTdeOid → s.cache dbOid = none
  | .installExtension _ => s.UnlinksOk
  | _ => True

instance (s : Server) : (r : XLogRecord) → Decidable (r.Clean s)
  | .deletePrincipalKey dbOid =>
    inferInstanceAs (Decidable (dbOid ≠ globalDataTdeOid → s.cache dbOid = none))
  | .installExtension _ => inferInstanceAs (Decidable (s.sys 0 = true ∧ s.sys 1 = true))
  | .createRelationKey _ | .addPrincipalKey _ | .rotatePrincipalKey .. | .writeKeyProvider ..
  | .deleteRelationKey _ => isTrue trivial

theorem addPrincipalKey_redo_consistent {info : TDESignedPrincipalKeyInfo} (hs : Consistent w s)
    (hr : RecordOk w s.providers (.addPrincipalKey info)) :
    wp (tdeheapRmgrRedo w (.addPrincipalKey info)) (fun _ t => KeySteps w s t)
      (fun _ t => KeySteps w s t) s := by
  obtain ⟨k, hh⟩ := hr
  refine (addPrincipalKey_redo_spec rfl (hs.scopes _).formatOk).mono (fun _ t ht => ?_)
    fun _ t ht => ?_
  · obtain ⟨-, hq⟩ | ⟨hi, hq⟩ := ht
    · exact .single (.logged (.quiet hq))
    · exact .tail (.single (.header hi hh)) (.logged (.quiet hq))
  · obtain ⟨hok, hq | ⟨hi, ⟨hg, hq⟩ | ⟨hg, hq⟩⟩⟩ := ht
    · exact .single (.logged (.quiet hq))
    · exact .tail (.single (.logged (.brokenSave hok hg hi))) (.logged (.quiet hq))
    · rw [hg] at hi
      exact .tail (.single (.logged (.brokenSaveServer hok hi))) (.logged (.quiet hq))

/-- The file of a scope whose key is not in the cache can be removed. -/
theorem Consistent.removed {db : Oid} (hs : Consistent w s)
    (hc : db ≠ globalDataTdeOid → s.cache db = none) :
    Consistent w (s.putKeyFile (.keys db) none) := by
  refine ⟨fun a => ?_, hs.providers, hs.databases⟩
  by_cases ha : a = db
  · subst ha
    by_cases hg : a = globalDataTdeOid
    · exact (hs.scopes a).frame (fun _ => rfl) (fun h => absurd hg h) (fun _ => rfl) rfl
    · exact ScopeOk.of_empty hg (.inl (by simp)) (hc hg)
  · exact (hs.scopes a).frame (fun _ => rfl) (fun _ => by simp [ha]) (fun _ => rfl) rfl

theorem smgrCreateKeyRedo_consistent (hs : Consistent w s) (rel : RelFileLocator)
    (hg : rel.dbOid ≠ globalDataTdeOid) (hd : rel.dbOid ≠ defaultDataTdeOid) :
    wp (smgrCreateKeyRedo w rel) (fun _ t => Consistent w t ∧ t.providers = s.providers)
      (fun _ t => Consistent w t ∧ t.providers = s.providers) s := by
  unfold smgrCreateKeyRedo
  simp only [wp_bind, wp_get]
  refine (generateInternalKey_spec _).mono (fun k t ht => ?_)
    fun _ t ht => ⟨ht.1.consistent hs, ht.1.providers⟩
  rw [← ht.1.providers]
  exact saveSmgrKey_consistent (ht.1.consistent hs) rel hg hd k false

/-- Replay of one record. -/
theorem redo_consistent (r : XLogRecord) (hs : Consistent w s) (hr : RecordOk w s.providers r)
    (hc : r.Clean s) :
    wp (tdeheapRmgrRedo w r)
      (fun _ t => Consistent w t ∧ t.providers = providersAfter s.providers r)
      (fun _ t => Consistent w t ∧ t.providers = providersAfter s.providers r) s := by
  have hsteps : ∀ {t}, KeySteps w s t → Consistent w t ∧ t.providers = s.providers :=
    fun h => ⟨h.consistent hs, h.providers⟩
  cases r with
  | createRelationKey rel => exact smgrCreateKeyRedo_consistent hs rel hr.1 hr.2
  | addPrincipalKey info =>
      exact (addPrincipalKey_redo_consistent hs hr).mono (fun _ t ht => hsteps ht)
        fun _ t ht => hsteps ht
  | rotatePrincipalKey dbOid keyringId keyName =>
      exact (xlTdePerformRotateKey_spec (hs.scopes dbOid) hr.1).mono
        (fun _ t ht => hsteps ht) fun _ t ht => hsteps ht.1
  | writeKeyProvider dbOid offset provider => exact hr.elim
  | installExtension dbOid =>
      exact (extensionInstall_spec dbOid hc).mono
        (fun _ t ht => ⟨ht.consistent (hs.installed hr.1), ht.providers⟩) fun _ _ h => h.elim
  | deleteRelationKey rel => exact freeKeyMapEntry_consistent hs rel hr.1 hr.2
  | deletePrincipalKey dbOid =>
      refine (deletePrincipalKeyRedo_spec dbOid).mono (fun _ t ht => ?_) fun _ _ h => h.elim
      obtain hq | ⟨hq, -⟩ := ht
      · exact ⟨hq.consistent (hs.removed hc), hq.providers⟩
      · exact ⟨hq.consistent hs, hq.providers⟩

/-! ### Runs of a standby -/

/-- What happens on a standby: a record is replayed; a session looks up a principal key or the key
of a relation; the surroundings change. -/
inductive StandbyEvent
  | replay (r : XLogRecord)
  | getPrincipalKeyNoDefault (scope : Oid)
  | getPrincipalKey (scope : Oid)
  | getSmgrKey (db : DatabaseId) (spcOid : Oid) (relNumber : UInt32)
  | environment (kms : KeyringProviderRecord → List UInt8 → KmsReply) (cipher : CipherType)
      (dataCipher : Option CipherType)

def StandbyEvent.exec (w : World) : StandbyEvent → M Unit
  | replay r => tdeheapRmgrRedo w r
  | getPrincipalKeyNoDefault scope => do let _ ← OpenPgTde.getPrincipalKeyNoDefault w scope
  | getPrincipalKey scope => do let _ ← OpenPgTde.getPrincipalKey w scope
  | getSmgrKey db spcOid relNumber => do
    let _ ← OpenPgTde.getSmgrKey w ⟨spcOid, db.oid, relNumber⟩
  | environment kms cipher dataCipher => modify fun s =>
    { s with kms := kms, cipher := cipher, dataCipher := dataCipher }

def StandbyEvent.record : StandbyEvent → Option XLogRecord
  | replay r => some r
  | _ => none

/-- The records that are replayed, in order. -/
def replayed (events : List StandbyEvent) : List XLogRecord := events.filterMap StandbyEvent.record

def standbyRun (w : World) (events : List StandbyEvent) (s : Server) : Server :=
  events.foldl (fun s e => after (e.exec w) s) s

def StandbyEvent.Clean (s : Server) : StandbyEvent → Prop
  | replay r => r.Clean s
  | _ => True

/-- No step of the run replays the deletion of a principal key that is in the cache. -/
def StandbyClean (w : World) : List StandbyEvent → Server → Prop
  | [], _ => True
  | e :: events, s => e.Clean s ∧ StandbyClean w events (after (e.exec w) s)

instance (s : Server) : (e : StandbyEvent) → Decidable (e.Clean s)
  | .replay r => inferInstanceAs (Decidable (r.Clean s))
  | .getPrincipalKeyNoDefault _ | .getPrincipalKey _ | .getSmgrKey .. | .environment .. =>
    isTrue trivial

instance decidableStandbyClean (w : World) :
    (events : List StandbyEvent) → (s : Server) → Decidable (StandbyClean w events s)
  | [], _ => isTrue trivial
  | e :: events, s =>
    have := decidableStandbyClean w events (after (e.exec w) s)
    inferInstanceAs (Decidable (e.Clean s ∧ StandbyClean w events (after (e.exec w) s)))

/-- An event that replays nothing. -/
theorem StandbyEvent.exec_read (e : StandbyEvent) (he : e.record = none) (hs : Consistent w s) :
    Consistent w (after (e.exec w) s) ∧ (after (e.exec w) s).providers = s.providers := by
  have hsteps : ∀ {m : M Unit}, wp m (fun _ t => KeySteps w s t) (fun _ t => KeySteps w s t) s →
      Consistent w (after m s) ∧ (after m s).providers = s.providers :=
    fun h => ⟨h.after.consistent hs, h.after.providers⟩
  cases e with
  | replay r => cases he
  | getPrincipalKeyNoDefault scope =>
      exact hsteps ((wp_bind ..).2 ((getPrincipalKeyNoDefault_spec (hs.scopes scope)).mono
        (fun _ t ht => ht.1.steps.keySteps) fun _ t ht => ht.1.steps.keySteps))
  | getPrincipalKey scope =>
      exact hsteps ((wp_bind ..).2 ((getPrincipalKey_spec hs).mono (fun _ t ht => ht.1.steps)
        fun _ t ht => ht.1.steps))
  | getSmgrKey db spcOid relNumber =>
      exact hsteps ((wp_bind ..).2 ((getSmgrKey_spec hs ⟨spcOid, db.oid, relNumber⟩
        db.ne_global).mono (fun _ t ht => ht.1.steps.keySteps) fun _ t ht => ht.1.steps.keySteps))
  | environment kms cipher dataCipher =>
      exact ⟨⟨fun scope => (hs.scopes scope).frame (fun _ => rfl) (fun _ => rfl) (fun _ => rfl) rfl,
        hs.providers, hs.databases⟩, rfl⟩

/-- A run that replays a well-formed log keeps the invariant. -/
theorem standbyRun_consistent (events : List StandbyEvent) (hs : Consistent w s)
    (hlog : LogOk w s.providers (replayed events)) (hclean : StandbyClean w events s) :
    Consistent w (standbyRun w events s) := by
  induction events generalizing s with
  | nil => exact hs
  | cons e events ih =>
      cases he : e.record with
      | none =>
          obtain ⟨hc, hp⟩ := e.exec_read he hs
          refine ih hc ?_ hclean.2
          rw [hp]
          simpa [replayed, he] using hlog
      | some r =>
          obtain rfl : e = .replay r := by
            cases e with
            | replay r' => rw [Option.some.inj he]
            | _ => cases he
          obtain ⟨hr, hrest⟩ := hlog
          obtain ⟨hc, hp⟩ := (redo_consistent r hs hr hclean.1).after
          refine ih hc ?_ hclean.2
          show LogOk w (after (tdeheapRmgrRedo w r) s).providers (replayed events)
          rw [hp]
          exact hrest

/-- A standby that replays the log of a primary up to some point: if no deletion of a principal key
is replayed while the standby has the key in its cache, the entries of every key file decrypt under
the key that the header of the file names. -/
theorem standby_key_files (w : World) (p s : Server) (hp : Consistent w p) (hs : Consistent w s)
    (hprov : s.providers = p.providers) (ops : List PrimaryOp) (hops : PrimaryClean w ops p)
    (events : List StandbyEvent)
    (hlog : p.xlog ++ replayed events <+: (primaryRun w ops p).xlog)
    (hclean : StandbyClean w events s) (db : DatabaseId) :
    FileDecrypts w (standbyRun w events s) db.oid := by
  obtain ⟨-, rs, hrs⟩ := primaryRun_spec ops hp hops
  obtain ⟨rest, hrest⟩ := hlog
  have heq : rs = replayed events ++ rest := by
    apply List.append_cancel_left
    rw [← hrs.xlog, ← hrest, List.append_assoc]
  have hok : LogOk w s.providers (replayed events) := by
    have h := hrs.ok
    rw [heq] at h
    rw [hprov]
    exact (logOk_append.1 h).1
  exact (standbyRun_consistent events hs hok hclean).fileDecrypts db.ne_global

/-- The primary gives the sample database a key, deletes it, sets another one and creates an
encrypted relation. -/
def sampleRekeyed : List PrimaryOp :=
  [.key (.setKeyUsingGlobalKeyProvider sampleDatabase (sampleCall [65])),
    .key (.deleteKey sampleDatabase),
    .key (.setKeyUsingGlobalKeyProvider sampleDatabase (sampleCall [66])),
    .key (.createRelationKey sampleDatabase 1663 16384)]

/-- A standby that replays its log; a session looks up the first key before it is deleted. -/
def sampleReader : List StandbyEvent :=
  match (primaryRun sampleWorld sampleRekeyed sampleServer).xlog with
  | add :: rest =>
    .replay add :: .getPrincipalKeyNoDefault sampleDatabase.oid :: rest.map StandbyEvent.replay
  | [] => []

/-- The same without the session. -/
def sampleReplay : List StandbyEvent :=
  (primaryRun sampleWorld sampleRekeyed sampleServer).xlog.map StandbyEvent.replay

theorem standby_key_files_sample :
    FileDecrypts sampleWorld (standbyRun sampleWorld sampleReplay sampleServer) 5 := by
  have hc : Consistent sampleWorld sampleServer := sampleServer_fresh.consistent
  exact standby_key_files sampleWorld sampleServer sampleServer hc hc rfl sampleRekeyed
    ⟨trivial, trivial, trivial, trivial, trivial⟩ sampleReplay (by decide +kernel)
    (by decide +kernel) sampleDatabase

/-- With the session the entry of the relation is encrypted under the first key, and the header
names the second one. -/
theorem standby_key_files_stale :
    replayed sampleReader = (primaryRun sampleWorld sampleRekeyed sampleServer).xlog ∧
    ¬FileDecrypts sampleWorld (standbyRun sampleWorld sampleReader sampleServer) 5 := by
  refine ⟨by decide +kernel, fun h => ?_⟩
  have hf : ((standbyRun sampleWorld sampleReader sampleServer).keyFiles (.keys 5)).elim false
      (fun f => f.info.elim false fun info =>
        (namedKey sampleWorld (standbyRun sampleWorld sampleReader sampleServer).providers 5
          info).elim false fun k => (f.entries.getD []).any fun e =>
            e.type = .key ∧ e.unwrap sampleWorld k.keyData = none) = true := by
    decide +kernel
  cases hfile : (standbyRun sampleWorld sampleReader sampleServer).keyFiles (.keys 5) with
  | none => rw [hfile] at hf; cases hf
  | some f =>
      rw [hfile] at hf
      obtain rfl | ⟨info, entries, k, rfl, hk, hall⟩ := h f hfile
      · cases hf
      · simp only [Option.elim_some, KeyFile.info, KeyFile.entries, Option.getD_some, hk,
          List.any_eq_true, decide_eq_true_eq] at hf
        obtain ⟨e, he, ht, hno⟩ := hf
        obtain ⟨ik, hik⟩ := hall e he ht
        rw [hno] at hik
        cases hik

end OpenPgTde
