import OpenPgTde.Replication.Primary

/-!
Replay of a record leaves the databases it does not name alone.

This holds in every state, also in those in which the copies of some principal key disagree. The
only thing it rests on is that headers and cache entries name the scope they belong to, since that
name decides which file a rotation rewrites and which cache entry is replaced.
-/

namespace OpenPgTde

open Lib.Effect Lib.SlotArray

variable {w : World} {s t u : Server} {scope d : Oid}

/-! ### Ownership and frames -/

/-- Headers and cache entries name the scope they belong to. -/
structure Owned (s : Server) : Prop where
  header : ∀ a info, scopeInfo s a = some info → info.data.databaseId = a
  cache : ∀ a k, s.cache a = some k → k.keyInfo.databaseId = a

/-- From `s` to `t` nothing of the database `d` changed, and ownership was kept. -/
structure Spares (d : Oid) (s t : Server) : Prop where
  file : t.keyFiles (.keys d) = s.keyFiles (.keys d)
  cache : t.cache d = s.cache d
  providers : ∀ id, getKeyProviderByID t.providers id d = getKeyProviderByID s.providers id d
  owned : Owned s → Owned t

theorem Spares.refl (s : Server) : Spares d s s := ⟨rfl, rfl, fun _ => rfl, id⟩

theorem Spares.trans (h : Spares d s t) (h' : Spares d t u) : Spares d s u :=
  ⟨h'.file.trans h.file, h'.cache.trans h.cache, fun id => (h'.providers id).trans (h.providers id),
    fun ho => h'.owned (h.owned ho)⟩

theorem Quiet.spares (h : Quiet s t) : Spares d s t := by
  obtain ⟨_, _, _, _, rfl⟩ := h
  exact ⟨rfl, rfl, fun _ => rfl, fun ho => ⟨ho.header, ho.cache⟩⟩

theorem Spares.putCache {k : Option TDEPrincipalKey} (hne : scope ≠ d)
    (hk : ∀ k', k = some k' → k'.keyInfo.databaseId = scope) :
    Spares d s (s.putCache scope k) := by
  refine ⟨rfl, by simp [hne.symm], fun _ => rfl, fun ho => ⟨ho.header, fun a k' hk' => ?_⟩⟩
  by_cases ha : a = scope
  · subst ha
    exact hk k' (by simpa using hk')
  · exact ho.cache a k' (by simpa [ha] using hk')

theorem Spares.putKeyFile {f : Option KeyFile} (hne : scope ≠ d)
    (hf : ∀ info, f.bind KeyFile.info = some info → info.data.databaseId = scope) :
    Spares d s (s.putKeyFile (.keys scope) f) := by
  refine ⟨by simp [hne.symm], rfl, fun _ => rfl, fun ho => ⟨fun a info hi => ?_, ho.cache⟩⟩
  by_cases hg : a = globalDataTdeOid
  · exact ho.header a info (by simpa [scopeInfo, hg] using hi)
  · by_cases ha : a = scope
    · subst ha
      exact hf info (by simpa [scopeInfo, hg] using hi)
    · exact ho.header a info (by simpa [scopeInfo, hg, ha] using hi)

theorem Spares.putTmp (db : Oid) (f : Option KeyFile) :
    Spares d s (s.putKeyFile (.keysTmp db) f) := by
  refine ⟨by simp, rfl, fun _ => rfl, fun ho => ⟨fun a info hi => ?_, ho.cache⟩⟩
  exact ho.header a info (by simpa [scopeInfo] using hi)

theorem Spares.putWalKeys {f : Option WalKeyFile}
    (hf : ∀ info, f.bind WalKeyFile.info = some info → info.data.databaseId = globalDataTdeOid) :
    Spares d s (s.putWalKeys .walKeys f) := by
  refine ⟨rfl, rfl, fun _ => rfl, fun ho => ⟨fun a info hi => ?_, ho.cache⟩⟩
  by_cases hg : a = globalDataTdeOid
  · subst hg
    exact hf info (by simpa [scopeInfo] using hi)
  · exact ho.header a info (by simpa [scopeInfo, hg] using hi)

theorem Spares.putWalTmp (f : Option WalKeyFile) : Spares d s (s.putWalKeys .walKeysTmp f) := by
  refine ⟨rfl, rfl, fun _ => rfl, fun ho => ⟨fun a info hi => ?_, ho.cache⟩⟩
  exact ho.header a info (by simpa [scopeInfo] using hi)

theorem Spares.logged (rs : List XLogRecord) : Spares d s (s.logged rs) :=
  ⟨rfl, rfl, fun _ => rfl, fun ho => ⟨ho.header, ho.cache⟩⟩

/-! ### Lookups -/

/-- The key a lookup returns is one of the scope. -/
theorem getPrincipalKeyNoDefault_spares (hne : scope ≠ d) (ho : Owned s) :
    wp (getPrincipalKeyNoDefault w scope)
      (fun r t => Spares d s t ∧ ∀ k, r = some k → k.keyInfo.databaseId = scope)
      (fun _ t => Spares d s t) s := by
  unfold getPrincipalKeyNoDefault
  simp only [wp_bind, wp_get]
  cases hc : s.cache scope with
  | some k =>
      refine ⟨.refl s, fun k' hk' => ?_⟩
      cases hk'
      exact ho.cache scope k hc
  | none =>
      simp only [wp_bind]
      refine getPrincipalKeyFromKeyring_spec.mono (fun r t ht => ?_) fun _ t h => h.1.spares
      obtain ⟨hq, rfl, -⟩ := ht
      cases hk : principalKeyOf w s scope with
      | none => exact ⟨hq.spares, fun k hk => by cases hk⟩
      | some k =>
          have howner : k.keyInfo.databaseId = scope := by
            obtain ⟨info, hi, hn⟩ := principalKeyOf_eq_some.1 hk
            rw [keyInfo_of_namedKey hn, ho.header scope info hi]
          have hct : t.cache k.keyInfo.databaseId = none := by
            obtain ⟨_, _, _, _, rfl⟩ := hq
            rw [howner]
            exact hc
          have hput : Spares d t (t.putCache k.keyInfo.databaseId (some k)) := by
            rw [howner]
            exact .putCache hne fun k' hk' => by cases hk'; exact howner
          simp only [wp_bind]
          refine (pushPrincipalKeyToCache_spec k hct).mono (fun _ v hv => ?_) fun _ v hv => ?_
          · simp only [wp_get, wp_pure]
            have hsp : Spares d s v := hq.spares.trans (hput.trans hv.spares)
            exact ⟨hsp, fun k' hk' => (hsp.owned ho).cache scope k' hk'⟩
          · exact hq.spares.trans (hput.trans hv.1.spares)

/-! ### Routines on the files of another scope -/

/-- A program that leaves the database alone, whatever its outcome. -/
abbrev Sparing (d : Oid) (s : Server) {α : Type} (m : M α) : Prop :=
  wp m (fun _ t => Spares d s t) (fun _ t => Spares d s t) s

/-- A program that goes on after a sparing one. -/
theorem Spares.andThen {α : Type} {m : M α} (h : Spares d s t) (hm : Sparing d t m) :
    wp m (fun _ u => Spares d s u) (fun _ u => Spares d s u) t :=
  hm.mono (fun _ _ hu => h.trans hu) fun _ _ hu => h.trans hu

theorem sysCall_spares (e : TdeError) : Sparing d s (sysCall e) :=
  (sysCall_spec e).mono (fun _ _ h => h.spares) fun _ _ h => h.2.1.spares

theorem openFileWrite_spares (hne : scope ≠ d) (hg : scope ≠ globalDataTdeOid) (ho : Owned s)
    {info : Option TDESignedPrincipalKeyInfo}
    (hinfo : ∀ i, info = some i → i.data.databaseId = scope) (truncate : Bool) :
    Sparing d s (openFileWrite (.keys scope) info truncate) := by
  refine (wp_bind ..).2 ((sysCall_spares _).mono (fun _ t ht => ?_) fun _ _ h => h)
  simp only [wp_bind, wp_get, wp_set]
  have hput : Spares d t (t.putKeyFile (.keys scope)
      (some (if truncate = true then .empty else (t.keyFiles (.keys scope)).getD .empty))) := by
    refine .putKeyFile hne fun i hi => ?_
    cases truncate with
    | true => cases hi
    | false =>
        cases hf : t.keyFiles (.keys scope) with
        | none => simp [hf, KeyFile.info] at hi
        | some f =>
            refine (ht.owned ho).header scope i ?_
            simpa [scopeInfo, hg, hf] using hi
  have hst := ht.trans hput
  split
  · exact hst
  · refine (wp_bind ..).2 ((sysCall_spares _).mono (fun _ u hu => ?_) fun _ _ h => hst.trans h)
    simp only [wp_bind, wp_modify, wp_pure]
    refine hst.trans (hu.trans (.putKeyFile hne fun i hi => ?_))
    cases hi
    exact hinfo _ rfl
  · exact hst
  · exact hst

theorem writeOneMapEntry_spares (hne : scope ≠ d) (hg : scope ≠ globalDataTdeOid) (ho : Owned s)
    (i : ℕ) (e : TDEMapEntry) : Sparing d s (writeOneMapEntry (.keys scope) i e) := by
  refine (wp_bind ..).2 ((sysCall_spares _).mono (fun _ t ht => ?_) fun _ _ h => h)
  simp only [wp_bind, wp_get]
  split
  · next info entries hf =>
      refine ht.trans (.putKeyFile hne fun i hi => ?_)
      cases hi
      exact (ht.owned ho).header scope info (scopeInfo_current hg hf)
  · exact ht

theorem pushPrincipalKeyToCache_spares (hne : scope ≠ d) {k : TDEPrincipalKey}
    (hk : k.keyInfo.databaseId = scope) : Sparing d s (pushPrincipalKeyToCache k) := by
  unfold pushPrincipalKeyToCache
  simp only [wp_bind, wp_get, wp_ite, wp_set, hk]
  have hput : Spares d s (s.putCache scope (some k)) :=
    .putCache hne fun k' hk' => by cases hk'; exact hk
  exact ⟨fun _ => hput.andThen (sysCall_spares _), fun _ => sysCall_spares _⟩

theorem savePrincipalKey_spares (hne : scope ≠ d) (hg : scope ≠ globalDataTdeOid) (ho : Owned s)
    {k : TDEPrincipalKey} (hk : k.keyInfo.databaseId = scope) :
    Sparing d s (savePrincipalKey w k false) := by
  refine (wp_bind ..).2 ((signPrincipalKeyInfo_spec k).mono (fun info t ht => ?_)
    fun _ _ h => h.1.spares)
  simp only [Bool.false_eq_true, if_false, wp_bind, wp_pure, hk]
  have hst : Spares d s t := ht.1.spares
  refine hst.andThen (openFileWrite_spares hne hg (hst.owned ho) (fun i hi => ?_) true)
  cases hi
  rw [ht.2.1, hk]

/-- Also when it falls back on the default key, a lookup is about its own scope. -/
theorem getPrincipalKey_spares (hne : scope ≠ d) (hg : scope ≠ globalDataTdeOid)
    (hd : d ≠ defaultDataTdeOid) (ho : Owned s) :
    wp (getPrincipalKey w scope)
      (fun r t => Spares d s t ∧ ∀ k, r = some k → k.keyInfo.databaseId = scope)
      (fun _ t => Spares d s t) s := by
  refine (wp_bind ..).2 ((getPrincipalKeyNoDefault_spares hne ho).mono (fun r t ht => ?_)
    fun _ _ h => h)
  obtain ⟨hst, hr⟩ := ht
  cases r with
  | some k => exact ⟨hst, hr⟩
  | none =>
      have hot := hst.owned ho
      refine (wp_bind ..).2 ((getPrincipalKeyNoDefault_spares hd.symm hot).mono (fun r u hu => ?_)
        fun _ _ h => hst.trans h)
      have hsu := hst.trans hu.1
      cases r with
      | none => exact ⟨hsu, fun k hk => by cases hk⟩
      | some k =>
          simp only [hg, if_false, wp_bind]
          refine (savePrincipalKey_spares hne hg (hsu.owned ho) rfl).mono (fun _ v hv => ?_)
            fun _ _ h => hsu.trans h
          have hsv := hsu.trans hv
          refine (pushPrincipalKeyToCache_spares hne rfl).mono (fun _ x hx => ?_)
            fun _ _ h => hsv.trans h
          have hsx := hsv.trans hx
          exact (getPrincipalKeyNoDefault_spares hne (hsx.owned ho)).mono
            (fun _ y hy => ⟨hsx.trans hy.1, hy.2⟩) fun _ _ h => hsx.trans h

theorem saveSmgrKey_spares {rel : RelFileLocator} (hne : rel.dbOid ≠ d)
    (hg : rel.dbOid ≠ globalDataTdeOid) (hd : d ≠ defaultDataTdeOid) (ho : Owned s)
    (k : InternalKey) (replaceExisting : Bool) :
    Sparing d s (saveSmgrKey w rel k replaceExisting) := by
  refine (wp_bind ..).2 ((getPrincipalKey_spares hne hg hd ho).mono (fun r t ht => ?_)
    fun _ _ h => h)
  obtain ⟨hst, hr⟩ := ht
  cases r with
  | none => exact hst
  | some pk =>
      refine (wp_bind ..).2 ((signPrincipalKeyInfo_spec pk).mono (fun info u hu => ?_)
        fun _ _ h => hst.trans h.1.spares)
      have hsu := hst.trans hu.1.spares
      refine (wp_bind ..).2 ((openFileWrite_spares hne hg (hsu.owned ho) (fun i hi => ?_)
        false).mono (fun entries v hv => ?_) fun _ _ h => hsu.trans h)
      · cases hi
        rw [hu.2.1]
        exact hr pk rfl
      · have hsv := hsu.trans hv
        simp only [wp_ite, wp_pure, wp_bind]
        refine ⟨fun _ => ?_, fun _ => hsv⟩
        refine (initializeMapEntry_spec pk rel k).mono (fun e x hx => ?_)
          fun _ _ h => hsv.trans h.1.spares
        have hsx := hsv.trans hx.1.spares
        exact hsx.andThen (writeOneMapEntry_spares hne hg (hsx.owned ho) _ e)

theorem freeKeyMapEntry_spares {rel : RelFileLocator} (hne : rel.dbOid ≠ d)
    (hg : rel.dbOid ≠ globalDataTdeOid) (ho : Owned s) : Sparing d s (freeKeyMapEntry rel) := by
  refine (wp_bind ..).2 ((openFileWrite_spares hne hg ho (fun i hi => by cases hi) false).mono
    (fun entries t ht => ?_) fun _ _ h => h)
  split
  · exact ht
  · exact ht.andThen (writeOneMapEntry_spares hne hg (ht.owned ho) _ _)

theorem openWalKeyFileWrite_spares (ho : Owned s) {info : Option TDESignedPrincipalKeyInfo}
    (hinfo : ∀ i, info = some i → i.data.databaseId = globalDataTdeOid) :
    Sparing d s (openWalKeyFileWrite .walKeys info false) := by
  refine (wp_bind ..).2 ((sysCall_spares _).mono (fun _ t ht => ?_) fun _ _ h => h)
  simp only [wp_bind, wp_get, wp_set]
  have hput : Spares d t (t.putWalKeys .walKeys
      (some ((t.walKeys .walKeys).getD .empty))) := by
    refine .putWalKeys fun i hi => ?_
    cases hf : t.walKeys .walKeys with
    | none => simp [hf, WalKeyFile.info] at hi
    | some f =>
        refine (ht.owned ho).header globalDataTdeOid i ?_
        simpa [scopeInfo, hf] using hi
  have hst := ht.trans hput
  split
  · exact hst
  · refine (wp_bind ..).2 ((sysCall_spares _).mono (fun _ u hu => ?_) fun _ _ h => hst.trans h)
    simp only [wp_bind, wp_modify, wp_pure]
    refine hst.trans (hu.trans (.putWalKeys fun i hi => ?_))
    cases hi
    exact hinfo _ rfl
  · exact hst
  · exact hst

/-! ### Replay -/

theorem Spares.rotated {newPk : TDEPrincipalKey} {info : TDESignedPrincipalKeyInfo}
    (hne : scope ≠ d) (hnew : newPk.keyInfo.databaseId = scope)
    (hinfo : info.data = newPk.keyInfo) (x : Bool) (new : List TDEMapEntry) :
    Spares d s (s.rotated scope newPk x info new) := by
  refine (Spares.logged _).trans (.trans (.putKeyFile hne fun i hi => ?_)
    (.trans (.putTmp scope none) (.putCache hne fun k hk => ?_)))
  · cases hi
    rw [hinfo, hnew]
  · cases hk
    exact hnew

theorem Spares.rotatedWal {newPk : TDEPrincipalKey} {info : TDESignedPrincipalKeyInfo}
    (hne : globalDataTdeOid ≠ d) (hnew : newPk.keyInfo.databaseId = globalDataTdeOid)
    (hinfo : info.data = newPk.keyInfo) (x : Bool) (new : List WalKeyFileEntry) :
    Spares d s (s.rotatedWal newPk x info new) := by
  refine (Spares.logged _).trans (.trans (.putWalKeys fun i hi => ?_)
    (.trans (.putWalTmp none) (.putCache hne fun k hk => ?_)))
  · cases hi
    rw [hinfo, hnew]
  · cases hk
    exact hnew

theorem rotatePrincipalKey_spares (hne : scope ≠ d) {pk newPk : TDEPrincipalKey}
    (hpk : pk.keyInfo.databaseId = scope) (hnew : newPk.keyInfo.databaseId = scope) (x : Bool) :
    Sparing d s (rotatePrincipalKey w scope pk newPk x) := by
  by_cases hg : scope = globalDataTdeOid
  · subst hg
    refine (rotateWalFile_spec x rfl hpk hnew).mono (fun _ t ht => ?_) fun _ t ht => ?_
    · obtain ⟨info, new, hrw, hq⟩ := ht
      exact (Spares.rotatedWal hne hnew hrw.data x new).trans hq.spares
    · obtain ⟨-, ⟨f, hq⟩ | ⟨info, new, hrw, hq⟩⟩ := ht
      · exact (Spares.putWalTmp f).trans hq.spares
      · exact (Spares.rotatedWal hne hnew hrw.data x new).trans hq.spares
  · refine (rotateFile_spec x hg rfl hpk hnew).mono (fun _ t ht => ?_) fun _ t ht => ?_
    · obtain ⟨info, new, hrw, hq⟩ := ht
      exact (Spares.rotated hne hnew hrw.data x new).trans hq.spares
    · obtain ⟨-, ⟨f, hq⟩ | ⟨info, new, hrw, hq⟩⟩ := ht
      · exact (Spares.putTmp scope f).trans hq.spares
      · exact (Spares.rotated hne hnew hrw.data x new).trans hq.spares

theorem xlTdePerformRotateKey_spares (hne : scope ≠ d) (ho : Owned s) {keyringId : ℤ}
    (keyName : List UInt8)
    (hshared : scope = defaultDataTdeOid ∨ scope = globalDataTdeOid → keyringId < 0) :
    Sparing d s (xlTdePerformRotateKey w scope keyringId keyName) := by
  refine (wp_bind ..).2 ((getPrincipalKeyNoDefault_spares hne ho).mono (fun r t ht => ?_)
    fun _ _ h => h)
  obtain ⟨hst, hr⟩ := ht
  cases r with
  | none => exact hst
  | some curr =>
      refine rotateToNamedKey_spec hshared (fun _ _ => hst) fun newPk u hu hfor _ _ => ?_
      exact (hst.trans hu.spares).andThen (rotatePrincipalKey_spares hne (hr curr rfl) hfor.1 false)

theorem sysTry_spares : wp sysTry (fun _ t => Spares d s t) (fun _ t => Spares d s t) s :=
  sysTry_spec.mono (fun _ _ h => h.1.spares) fun _ _ h => h.elim

theorem extensionInstall_spares {db : Oid} (hne : db ≠ d) (hg : db ≠ globalDataTdeOid) :
    Sparing d s (extensionInstall db) := by
  have hfiles : ∀ t : Server,
      Spares d t { t with providers := Function.update t.providers db [] } := by
    intro t
    refine ⟨rfl, rfl, fun id => ?_, fun ho => ⟨ho.header, ho.cache⟩⟩
    have hfile : providerScope id d ≠ db := by
      unfold providerScope
      split
      · exact hg.symm
      · exact hne.symm
    simp [getKeyProviderByID, hfile]
  have hcache : ∀ t : Server, Sparing d t (principalKeyStartupCleanup db) := by
    intro t
    simp only [principalKeyStartupCleanup, clearPrincipalKeyCache, deleteTdeFiles, wp_bind,
      wp_modify, wp_ite, wp_pure]
    have hput : Spares d t (t.putCache db none) := .putCache hne fun k hk => by cases hk
    refine sysTry_spares.mono (fun b u hu => ⟨fun _ => ?_, fun _ => ?_⟩) fun _ _ h => hput.trans h
    · exact (hput.trans hu).trans (.putKeyFile hne fun i hi => by cases hi)
    · exact hput.trans hu
  simp only [extensionInstall, keyProviderStartupCleanup, wp_bind, wp_ite, wp_modify, wp_pure]
  refine sysTry_spares.mono (fun b t ht => ⟨fun _ => ?_, fun _ => ?_⟩) fun _ _ h => h
  · exact (ht.trans (hfiles t)).andThen (hcache _)
  · exact ht.andThen (hcache t)

/-- The database, or other scope, that a record is about. -/
def XLogRecord.databaseOid : XLogRecord → Oid
  | createRelationKey rel => rel.dbOid
  | addPrincipalKey info => info.data.databaseId
  | rotatePrincipalKey databaseId _ _ => databaseId
  | writeKeyProvider databaseId _ _ => databaseId
  | installExtension databaseId => databaseId
  | deleteRelationKey rel => rel.dbOid
  | deletePrincipalKey dbOid => dbOid

/-- Replay of a record is about the scope of the record. -/
theorem redo_spares {providers : Oid → List KeyringProviderRecord} (r : XLogRecord)
    (hr : RecordOk w providers r) (hne : r.databaseOid ≠ d)
    (hd : d ≠ defaultDataTdeOid) (ho : Owned s) : Sparing d s (tdeheapRmgrRedo w r) := by
  cases r with
  | createRelationKey rel =>
      unfold tdeheapRmgrRedo smgrCreateKeyRedo
      simp only [wp_bind, wp_get]
      refine (generateInternalKey_spec _).mono (fun k t ht => ?_) fun _ _ h => h.1.spares
      have hst : Spares d s t := ht.1.spares
      exact hst.andThen (saveSmgrKey_spares hne hr.1 hd (hst.owned ho) k false)
  | addPrincipalKey info =>
      refine (wp_ite ..).2 ⟨fun hgl => ?_, fun hgl => ?_⟩
      · refine (wp_bind ..).2 (openWalKeyFileWrite_spares ho fun i hi => ?_)
        cases hi
        exact hgl
      · refine (wp_bind ..).2 (openFileWrite_spares hne hgl ho (fun i hi => ?_) false)
        cases hi
        rfl
  | rotatePrincipalKey databaseId keyringId keyName =>
      exact xlTdePerformRotateKey_spares hne ho keyName hr.1
  | writeKeyProvider databaseId offset provider => exact hr.elim
  | installExtension databaseId => exact extensionInstall_spares hne hr.1
  | deleteRelationKey rel => exact freeKeyMapEntry_spares hne hr.1 ho
  | deletePrincipalKey dbOid =>
      refine (deletePrincipalKeyRedo_spec dbOid).mono (fun _ t ht => ?_) fun _ _ h => h.elim
      obtain hq | ⟨hq, -⟩ := ht
      · have hput : Spares d s (s.putKeyFile (.keys dbOid) none) :=
          .putKeyFile hne fun i hi => by cases hi
        exact hput.trans hq.spares
      · exact hq.spares

end OpenPgTde
