import OpenPgTde.PrincipalKey.Lifecycle

/-!
Replay of the WAL records of the key management (`access/open_pg_tde_xlog.c`).

Each record is replayed by a routine of its own, which is not always the routine that wrote it: a
header is added to a file only if it has none, a relation key only if the relation has none, and the
deletion of a principal key removes a file and no more.
-/

namespace OpenPgTde

open Lib.Effect Lib.SlotArray

variable {w : World} {s t u : Server} {scope : Oid}

/-! ### Installing the extension -/

/-- `key_provider_startup_cleanup`. -/
def keyProviderStartupCleanup (dbOid : Oid) : M Unit := do
  if ← sysTry then
    modify fun s => { s with providers := Function.update s.providers dbOid [] }

/-- `extension_install`, which is also `extension_install_redo`. -/
def extensionInstall (dbOid : Oid) : M Unit := do
  keyProviderStartupCleanup dbOid
  principalKeyStartupCleanup dbOid

/-- `open_pg_tde_extension_initialize`. -/
def extensionInitialize (db : DatabaseId) : M Unit := do
  extensionInstall db.oid
  xlogInsert (.installExtension db.oid)

/-! ### Redo -/

/-- `write_key_provider_info` without a record: a provider file is an array of records. -/
def redoKeyProviderInfo (dbOid : Oid) (offset : ℕ) (provider : KeyringProviderRecord) :
    M Unit := do
  sysCall (.couldNotWriteProviders dbOid)
  modify fun s => { s with
    providers := Function.update s.providers dbOid (writeAt (s.providers dbOid) offset provider) }

/-- The part of `xl_tde_perform_rotate_key` after the current key is found: the new key is fetched
by the id of its provider, and the file of the scope is rotated to it. -/
def rotateToNamedKey (w : World) (dbOid : Oid) (keyringId : ℤ) (keyName : List UInt8)
    (curr : TDEPrincipalKey) : M Unit := do
  let s ← get
  match getKeyProviderByID s.providers keyringId dbOid with
  | none => throw (.unknownKeyring keyringId) -- the source goes on with a null pointer
  | some keyring =>
    match keyringGetKey w s.kms keyring keyName with
    | .error code => throw (.keyringFailed code)
    | .ok none => throw (.keyNotFound keyName)
    | .ok (some k) => do
      let newPk ← newPrincipalKey dbOid keyring k
      rotatePrincipalKey w dbOid curr newPk false

/-- `xl_tde_perform_rotate_key`. -/
def xlTdePerformRotateKey (w : World) (dbOid : Oid) (keyringId : ℤ) (keyName : List UInt8) :
    M Unit := do
  match ← getPrincipalKeyNoDefault w dbOid with
  | none => throw (.noCurrentKey dbOid)
  | some curr => rotateToNamedKey w dbOid keyringId keyName curr

/-- `tdeheap_rmgr_redo`. -/
def tdeheapRmgrRedo (w : World) : XLogRecord → M Unit
  | .createRelationKey rel => smgrCreateKeyRedo w rel
  | .addPrincipalKey info =>
    if info.data.databaseId = globalDataTdeOid then saveServerKeyRedo info
    else savePrincipalKeyRedo info
  | .deleteRelationKey rel => freeKeyMapEntry rel
  | .rotatePrincipalKey dbOid keyringId keyName => xlTdePerformRotateKey w dbOid keyringId keyName
  | .deletePrincipalKey dbOid => deletePrincipalKeyRedo dbOid
  | .writeKeyProvider dbOid offset provider => redoKeyProviderInfo dbOid offset provider
  | .installExtension dbOid => extensionInstall dbOid

/-- The next calls are two successful ones; installing the extension makes two. -/
def Server.UnlinksOk (s : Server) : Prop := s.sys 0 = true ∧ s.sys 1 = true

/-! ### Specifications of the routines that only replay calls -/

theorem deletePrincipalKeyRedo_spec (db : Oid) :
    wp (deletePrincipalKeyRedo db)
      (fun _ t => Quiet (s.putKeyFile (.keys db) none) t ∨ Quiet s t ∧ ¬s.SysOk)
      (fun _ _ => False) s := by
  refine (wp_bind ..).2 (sysTry_spec.mono (fun b t ht => ?_) fun _ _ h => h)
  cases b with
  | true => exact .inl (ht.1.putKeyFile _ _)
  | false => exact .inr ⟨ht.1, ht.2 rfl⟩

/-- The state after the extension was installed in a database. -/
def Server.installed (s : Server) (db : Oid) : Server :=
  (({ s with providers := Function.update s.providers db [] } : Server).putCache db none).putKeyFile
    (.keys db) none

theorem extensionInstall_spec (db : Oid) (h : s.UnlinksOk) :
    wp (extensionInstall db) (fun _ t => Quiet (s.installed db) t) (fun _ _ => False) s := by
  simp only [extensionInstall, keyProviderStartupCleanup, principalKeyStartupCleanup,
    clearPrincipalKeyCache, deleteTdeFiles, sysTry, wp_bind, wp_get, wp_set, wp_pure, wp_ite,
    wp_modify, h.1, forall_const, not_true_eq_false, false_implies, and_true]
  exact ⟨fun _ => ⟨_, _, _, fun hs i => hs (i + 1 + 1), rfl⟩, fun hne => absurd h.2 hne⟩

/-- Replay of a new principal key adds the header to a file that has none. -/
theorem addPrincipalKey_redo_spec {info : TDESignedPrincipalKeyInfo}
    (hsc : info.data.databaseId = scope) (hf : FormatOk s scope) :
    wp (tdeheapRmgrRedo w (.addPrincipalKey info))
      (fun _ t => scopeInfo s scope ≠ none ∧ Quiet s t ∨
        scopeInfo s scope = none ∧ Quiet (s.putHeader scope info) t)
      (fun _ t => ¬s.SysOk ∧ (Quiet s t ∨ scopeInfo s scope = none ∧
        (scope ≠ globalDataTdeOid ∧ Quiet (s.putKeyFile (.keys scope) (some .empty)) t ∨
          scope = globalDataTdeOid ∧ Quiet (s.putWalKeys .walKeys (some .empty)) t))) s := by
  refine (wp_ite ..).2 ⟨fun hg => ?_, fun hg => ?_⟩
  · obtain rfl : scope = globalDataTdeOid := by rw [← hsc, hg]
    refine (wp_bind ..).2 ?_
    cases hi : scopeInfo s globalDataTdeOid with
    | none =>
        refine (openWalKeyFileWrite_empty_spec (walFile_of_scopeInfo_none hi) (some info)).mono
          (fun _ t ht => .inr ⟨rfl, by simpa [Server.putHeader] using ht.2⟩) fun _ t ht =>
          ⟨ht.2, ht.1.imp_right fun h => ⟨rfl, .inr ⟨rfl, h⟩⟩⟩
    | some info' =>
        obtain ⟨entries, hcur⟩ := hf.exists_wal_current hi
        exact (openWalKeyFileWrite_current_spec hcur (some info)).mono
          (fun _ t ht => .inl ⟨by simp, ht.2⟩) fun _ t ht => ⟨ht.2, .inl ht.1⟩
  · rw [hsc] at hg
    refine (wp_bind ..).2 ?_
    rw [hsc]
    cases hi : scopeInfo s scope with
    | none =>
        refine (openFileWrite_empty_spec (file_of_scopeInfo_none hg hi) (some info)).mono
          (fun _ t ht => .inr ⟨rfl, by simpa [Server.putHeader, hg] using ht.2⟩) fun _ t ht =>
          ⟨ht.2, ht.1.imp_right fun h => ⟨rfl, .inl ⟨hg, h⟩⟩⟩
    | some info' =>
        obtain ⟨entries, hcur⟩ := hf.exists_current hg hi
        exact (openFileWrite_current_spec hcur (some info)).mono
          (fun _ t ht => .inl ⟨by simp, ht.2⟩) fun _ t ht => ⟨ht.2, .inl ht.1⟩

/-- A key fetched by the id of its provider, as replay does. -/
theorem keyFor_of_id {providers : Oid → List KeyringProviderRecord} {keyringId : ℤ}
    {keyName : List UInt8} {kms : KeyringProviderRecord → List UInt8 → KmsReply}
    {r : KeyringProviderRecord} {k : KeyInfo} {now : Timeval}
    (hshared : scope = defaultDataTdeOid ∨ scope = globalDataTdeOid → keyringId < 0)
    (hr : getKeyProviderByID providers keyringId scope = some r)
    (hk : keyringGetKey w kms r keyName = .ok (some k)) :
    KeyFor w providers scope ⟨⟨scope, r.providerId, now, k.name⟩, k.data⟩ := by
  obtain ⟨hvault, hvalid⟩ := keyringGetKey_eq_some hk
  have hname := w.vault_name hvault
  have hid : r.providerId = keyringId := getKeyProviderByID_id hr
  refine ⟨rfl, fun info hinfo hver => ⟨?_, by rw [hinfo], fun h => ?_, ?_⟩⟩
  · simp only [namedKey, hinfo, hid, hr, hname]
    simp only [hver, if_true]
  · rw [hinfo, hid]
    exact hshared h
  · rw [hinfo, hid]
    exact ⟨r, hr, hname, hvalid⟩

/-- The provider knows the key that the record of a rotation names. -/
def KeyKnown (w : World) (providers : Oid → List KeyringProviderRecord) (scope : Oid)
    (keyringId : ℤ) (keyName : List UInt8) : Prop :=
  ∃ r keyData, getKeyProviderByID providers keyringId scope = some r ∧
    w.vault r keyName = some ⟨keyName, keyData⟩ ∧ validateKey ⟨keyName, keyData⟩ = true

theorem KeyKnown.get {keyringId : ℤ} {keyName : List UInt8}
    (h : KeyKnown w s.providers scope keyringId keyName) (hkms : s.KeyringsAnswer) :
    ∃ r keyData, getKeyProviderByID s.providers keyringId scope = some r ∧
      keyringGetKey w s.kms r keyName = .ok (some ⟨keyName, keyData⟩) := by
  obtain ⟨r, keyData, hr, hvault, hvalid⟩ := h
  exact ⟨r, keyData, hr, keyringGetKey_of_stored (hkms r keyName) hvault hvalid⟩

/-- What the new key of a rotation is, and when it cannot be had. -/
theorem rotateToNamedKey_spec {Q : Unit → Server → Prop} {E : TdeError → Server → Prop}
    {keyringId : ℤ} {keyName : List UInt8} {curr : TDEPrincipalKey}
    (hshared : scope = defaultDataTdeOid ∨ scope = globalDataTdeOid → keyringId < 0)
    (hfail : ∀ e, (s.KeyringsAnswer → ¬KeyKnown w s.providers scope keyringId keyName) → E e s)
    (hrotate : ∀ newPk u, Quiet s u → KeyFor w s.providers scope newPk →
      newPk.keyInfo.keyringId = keyringId →
      (KeyKnown w s.providers scope keyringId keyName → newPk.keyInfo.name = keyName) →
      wp (rotatePrincipalKey w scope curr newPk false) Q E u) :
    wp (rotateToNamedKey w scope keyringId keyName curr) Q E s := by
  unfold rotateToNamedKey
  simp only [wp_bind, wp_get]
  cases hr : getKeyProviderByID s.providers keyringId scope with
  | none =>
      refine hfail _ fun _ hknown => ?_
      obtain ⟨r, _, hr', -⟩ := hknown
      rw [hr] at hr'; cases hr'
  | some keyring =>
      dsimp only
      have hblocked : ∀ {res}, keyringGetKey w s.kms keyring keyName = res →
          (∀ k, res ≠ .ok (some k)) → s.KeyringsAnswer →
          ¬KeyKnown w s.providers scope keyringId keyName := by
        intro res hres hne hkms hknown
        obtain ⟨r, _, hr', hk'⟩ := hknown.get hkms
        rw [hr] at hr'
        cases hr'
        exact absurd (hres.symm.trans hk') (hne _)
      cases hk : keyringGetKey w s.kms keyring keyName with
      | error code => exact hfail _ (hblocked hk (by simp))
      | ok key =>
          cases key with
          | none => exact hfail _ (hblocked hk (by simp))
          | some k =>
              simp only [newPrincipalKey, wp_bind, wp_pure]
              refine getTimeOfDay_spec.mono (fun now v hv => ?_) fun _ _ h => h.elim
              refine hrotate _ v hv (keyFor_of_id hshared hr hk) (getKeyProviderByID_id hr) ?_
              rintro ⟨r, kd, hr', hvault, -⟩
              rw [hr] at hr'
              cases hr'
              have := (keyringGetKey_eq_some hk).1
              rw [hvault] at this
              cases this
              rfl

/-- If nothing else is in the way, an unreadable file of WAL keys stops the replay of a rotation. -/
def RotateBlocked (w : World) (s : Server) (scope : Oid) (keyringId : ℤ)
    (keyName : List UInt8) : Prop :=
  s.SysOk → s.KeyringsAnswer → KeyKnown w s.providers scope keyringId keyName →
    scopeInfo s scope ≠ none → scope = globalDataTdeOid ∧ ¬WalFileReadable w s

/-- Replay of a rotation makes the steps of a rotation, and logs nothing. -/
theorem xlTdePerformRotateKey_spec {keyringId : ℤ} {keyName : List UInt8}
    (hs : ScopeOk w s scope)
    (hshared : scope = defaultDataTdeOid ∨ scope = globalDataTdeOid → keyringId < 0) :
    wp (xlTdePerformRotateKey w scope keyringId keyName)
      (fun _ t => KeySteps w s t)
      (fun _ t => KeySteps w s t ∧ RotateBlocked w s scope keyringId keyName) s := by
  refine (wp_bind ..).2 ((getPrincipalKeyNoDefault_spec hs).mono (fun r t ht => ?_)
    fun _ t ht => ⟨ht.1.steps.keySteps, fun hok hkms _ _ => ?_⟩)
  · obtain ⟨hl, rfl, -⟩ := ht
    have hst : KeySteps w s t := hl.steps.keySteps
    cases hpk : principalKeyOf w s scope with
    | none => exact ⟨hst, fun _ _ _ hi => absurd (hs.principalKeyOf_none.1 hpk) hi⟩
    | some curr =>
        refine rotateToNamedKey_spec hshared (fun _ h => ⟨hst, fun _ hkms hknown _ => ?_⟩)
          fun newPk v hv hfor _ _ => ?_
        · refine absurd (by rw [hl.providers]; exact hknown) (h fun r name => ?_)
          rw [hl.kms]
          exact hkms r name
        · have hlv : Loaded w s v := hl.trans hv.loaded
          have hpkv : principalKeyOf w v scope = some curr := by rw [hlv.principalKeyOf, hpk]
          rw [hl.providers, ← hlv.providers] at hfor
          refine (rotatePrincipalKey_spec false (hlv.scopeOk hs) hpkv hfor).mono
            (fun _ x hx => ?_) fun _ x hx => ⟨?_, fun hok _ _ _ => ?_⟩
          · exact Relation.ReflTransGen.trans hlv.steps.keySteps hx.1.1
          · exact Relation.ReflTransGen.trans hlv.steps.keySteps hx.1.1
          · obtain ⟨hg, hbad⟩ := hx.2.2.2 (hlv.sysOk hok)
            exact ⟨hg, fun h => hbad (hlv.walFileReadable h)⟩
  · exact absurd (hs.reachable hkms) (ht.2 hok).2

end OpenPgTde
