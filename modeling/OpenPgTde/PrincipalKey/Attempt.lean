import OpenPgTde.PrincipalKey.Interrupted
import OpenPgTde.PrincipalKey.Lookup
import OpenPgTde.Providers.Binding

/-!
A rotation that fails on its way.

A rotation reads the key file, writes what it reads to a second file and renames that file in the
end. Up to there the key files are only read. What a failed attempt leaves behind is the second file,
whatever it has come to contain, and the key that was in use, if it had to be fetched. The next attempt
begins the second file anew.
-/

namespace OpenPgTde

open Lib.Effect

variable {w : World} {s t u : Server} {scope : Oid} {keyName providerName : List UInt8}
  {providerOid : Oid}

/-! ### The steps up to the rename -/

/-- The new key of `set_principal_key_with_keyring`. -/
def fetchNewKey (w : World) (keyName : List UInt8) (dbOid : Oid) (keyring : KeyringProviderRecord) :
    M TDEPrincipalKey := do
  let s ← get
  match keyringGetKey w s.kms keyring keyName with
  | .error code => throw (.keyringFailed code)
  | .ok none => throw (.keyNotFound keyName)
  | .ok (some k) => newPrincipalKey dbOid keyring k

/-- `set_principal_key_with_keyring` up to the rename of the rewritten file: the key that was in use,
if there was one to rotate, and the new one. -/
def attemptRotation (w : World) (keyName providerName : List UInt8) (providerOid dbOid : Oid) :
    M (Option TDEPrincipalKey × TDEPrincipalKey) := do
  let curr ← getPrincipalKeyNoDefault w dbOid
  let keyring ← findKeyProvider providerName providerOid
  let newPk ← fetchNewKey w keyName dbOid keyring
  match curr with
  | none => pure (none, newPk)
  | some curr => do
    if dbOid = globalDataTdeOid then performRotateServerKey w curr newPk true
    else performRotateKey w curr newPk true
    pure (some curr, newPk)

/-- The rest of `set_principal_key_with_keyring`. -/
def finishRotation (w : World) (dbOid : Oid) (curr : Option TDEPrincipalKey)
    (newPk : TDEPrincipalKey) : M Unit := do
  match curr with
  | none => do
    if dbOid = globalDataTdeOid then saveServerKey w newPk true
    else savePrincipalKey w newPk true
    pushPrincipalKeyToCache newPk
  | some curr => do
    clearPrincipalKeyCache curr.keyInfo.databaseId
    pushPrincipalKeyToCache newPk

theorem setPrincipalKeyWithKeyring_eq_attempt :
    setPrincipalKeyWithKeyring w keyName providerName providerOid scope = (do
      let (curr, newPk) ← attemptRotation w keyName providerName providerOid scope
      finishRotation w scope curr newPk) := by
  rw [setPrincipalKeyWithKeyring_eq, attemptRotation, bind_assoc]
  refine bind_congr fun curr => ?_
  rw [bind_assoc]
  refine bind_congr fun keyring => ?_
  rw [bind_assoc, fetchNewKey, bind_assoc, writePrincipalKey]
  refine get_bind_congr fun s => ?_
  cases keyringGetKey w s.kms keyring keyName with
  | error code => rfl
  | ok k =>
      cases k with
      | none => rfl
      | some k =>
          dsimp only
          refine congrFun (bind_congr fun newPk => ?_) s
          cases curr with
          | none => rfl
          | some curr =>
              dsimp only
              rw [rotatePrincipalKey]
              split
              · rw [bind_assoc]
                rfl
              · rw [bind_assoc]
                rfl

/-! ### What an attempt needs and what it does -/

/-- The new key is the one the call asks for. -/
structure AskedFor (w : World) (s : Server) (keyName providerName : List UInt8)
    (providerOid scope : Oid) (newPk : TDEPrincipalKey) : Prop where
  owner : newPk.keyInfo.databaseId = scope
  key : ∃ keyring k, getKeyProviderByName s.providers providerName providerOid = some keyring ∧
    keyringGetKey w s.kms keyring keyName = .ok (some k) ∧
    newPk.keyInfo.keyringId = keyring.providerId ∧ newPk.keyInfo.name = k.name ∧
    newPk.keyData = k.data

/-- The file of the scope is of the current version and every entry can be decrypted. -/
structure FileReadable (w : World) (s : Server) (scope : Oid) (curr : TDEPrincipalKey) : Prop where
  file : scope ≠ globalDataTdeOid → ∃ entries,
    (s.keyFiles (.keys scope)).bind KeyFile.entries = some entries ∧
      Readable w curr.keyData entries
  walFile : scope = globalDataTdeOid → ∃ entries,
    (s.walKeys .walKeys).bind WalKeyFile.entries = some entries ∧
      WalReadable w curr.keyData entries

/-- There is a key to rotate and a key to take its place, and the file can be read. -/
structure CanRotate (w : World) (s : Server) (keyName providerName : List UInt8)
    (providerOid scope : Oid) (curr : TDEPrincipalKey) : Prop where
  old : currentKey w s scope = .ok (some curr)
  new : ∃ keyring k, getKeyProviderByName s.providers providerName providerOid = some keyring ∧
    keyringGetKey w s.kms keyring keyName = .ok (some k)
  readable : FileReadable w s scope curr

/-- The file of the scope has a header for the new key, and shows under the new key all that the old
file showed under the old key. The second file is gone. -/
structure FileRotated (w : World) (s t : Server) (scope : Oid) (curr newPk : TDEPrincipalKey) :
    Prop where
  file : scope ≠ globalDataTdeOid → ∃ info new, t.keyFiles (.keys scope) = some (.current info new) ∧
    info.data = newPk.keyInfo ∧ verifyPrincipalKeyInfo w info newPk.keyData = true ∧
    keyTable w newPk.keyData new = keyTable w curr.keyData
      (((s.keyFiles (.keys scope)).bind KeyFile.entries).getD []) ∧
    t.keyFiles (.keysTmp scope) = none
  walFile : scope = globalDataTdeOid → ∃ info new, t.walKeys .walKeys = some (.current info new) ∧
    info.data = newPk.keyInfo ∧ verifyPrincipalKeyInfo w info newPk.keyData = true ∧
    walTable w newPk.keyData new = walTable w curr.keyData (walEntries s) ∧
    t.walKeys .walKeysTmp = none

/-- What a failed attempt leaves: at most the key that was in use has been fetched, and the second
file may contain anything. -/
def Tried (w : World) (s : Server) (scope : Oid) (t : Server) : Prop :=
  ∃ u f g, Fetched w s scope u ∧ Quiet ((u.putKeyFile (.keysTmp scope) f).putWalKeys .walKeysTmp g) t

theorem Fetched.tried (h : Fetched w s scope t) (hq : Quiet t u) : Tried w s scope u := by
  refine ⟨t, t.keyFiles (.keysTmp scope), t.walKeys .walKeysTmp, h, ?_⟩
  have hw : t.walKeys = (t.putKeyFile (.keysTmp scope) (t.keyFiles (.keysTmp scope))).walKeys := rfl
  rw [hw, putWalKeys_self, putKeyFile_self]
  exact hq

theorem fetchNewKey_spec {keyring : KeyringProviderRecord} :
    wp (fetchNewKey w keyName scope keyring)
      (fun newPk t => Quiet s t ∧ newPk.keyInfo.databaseId = scope ∧ ∃ k,
        keyringGetKey w s.kms keyring keyName = .ok (some k) ∧
        newPk.keyInfo.keyringId = keyring.providerId ∧ newPk.keyInfo.name = k.name ∧
        newPk.keyData = k.data)
      (fun _ t => t = s ∧ ∀ k, keyringGetKey w s.kms keyring keyName ≠ .ok (some k)) s := by
  unfold fetchNewKey
  simp only [wp_bind, wp_get]
  cases keyringGetKey w s.kms keyring keyName with
  | error code => exact ⟨rfl, fun k hk => by cases hk⟩
  | ok k =>
      cases k with
      | none => exact ⟨rfl, fun k hk => by cases hk⟩
      | some k =>
          refine (wp_bind ..).2 (getTimeOfDay_spec.mono (fun now t ht => ?_) fun _ _ h => h.elim)
          exact ⟨ht, rfl, k, rfl, rfl, rfl, rfl⟩

/-- The rewriting of the file, in a state in which the key that was in use is known. -/
theorem rotateFile_outcome {curr : TDEPrincipalKey} (newPk : TDEPrincipalKey)
    (hu : Fetched w s scope u) (hq : Quiet u t) (howner : curr.keyInfo.databaseId = scope) :
    wp (if scope = globalDataTdeOid then performRotateServerKey w curr newPk true
        else performRotateKey w curr newPk true)
      (fun _ v => FileRotated w s v scope curr newPk ∧ (t.SysOk → v.SysOk))
      (fun _ v => Tried w s scope v ∧ (t.SysOk → ¬FileReadable w s scope curr)) t := by
  have hkeys : t.keyFiles = s.keyFiles := hq.keyFiles.trans hu.keyFiles
  have hwal : t.walKeys = s.walKeys := hq.walKeys.trans hu.walKeys
  refine (wp_ite ..).2 ⟨fun hg => ?_, fun hg => ?_⟩
  · refine (performRotateServerKey_spec curr newPk true (s := t) rfl).mono (fun _ v hv => ?_)
      fun _ v hv => ⟨?_, fun hok hcan => ?_⟩
    · obtain ⟨-, info, new, hdata, hver, htable, hv⟩ := hv
      refine ⟨⟨fun h => absurd hg h, fun _ => ⟨info, new, ?_, hdata, hver, ?_, ?_⟩⟩, hv.sysOk⟩
      · rw [hv.walKeys]
        simp
      · rw [htable, walEntries, walEntries, hwal]
      · rw [hv.walKeys]
        simp
    · obtain ⟨g, hv⟩ := hv.2
      refine ⟨u, u.keyFiles (.keysTmp scope), g, hu, ?_⟩
      rw [putKeyFile_self]
      exact (hq.putWalKeys _ _).trans hv
    · obtain ⟨entries, hent, hread⟩ := hcan.walFile hg
      refine hv.1 hok ?_ ?_
      · rw [hwal, hent]
        exact Option.some_ne_none _
      · rw [walEntries, hwal, hent]
        exact hread
  · refine (performRotateKey_spec curr newPk true (s := t) rfl).mono (fun _ v hv => ?_)
      fun _ v hv => ⟨?_, fun hok hcan => ?_⟩
    · obtain ⟨info, new, hdata, hver, -, htable, hv⟩ := hv
      rw [howner] at hv htable
      refine ⟨⟨fun _ => ⟨info, new, ?_, hdata, hver, ?_, ?_⟩, fun h => absurd h hg⟩, hv.sysOk⟩
      · rw [hv.keyFiles]
        simp
      · rw [htable, hkeys]
      · rw [hv.keyFiles]
        simp
    · obtain ⟨f, hv⟩ := hv.2
      rw [howner] at hv
      refine ⟨u, f, u.walKeys .walKeysTmp, hu, ?_⟩
      have hw : u.walKeys = (u.putKeyFile (.keysTmp scope) f).walKeys := rfl
      rw [hw, putWalKeys_self]
      exact (hq.putKeyFile _ _).trans hv
    · obtain ⟨entries, hent, hread⟩ := hcan.file hg
      rw [howner, hkeys, hent] at hv
      exact hv.1 hok (Option.some_ne_none _) hread

theorem attemptRotation_spec (hs : OwnScopes s) :
    wp (attemptRotation w keyName providerName providerOid scope)
      (fun r t => currentKey w s scope = .ok r.1 ∧ (s.SysOk → t.SysOk) ∧
        AskedFor w s keyName providerName providerOid scope r.2 ∧
        ∀ curr, r.1 = some curr → FileRotated w s t scope curr r.2)
      (fun _ t => Tried w s scope t ∧ (s.SysOk → ∀ curr,
        ¬CanRotate w s keyName providerName providerOid scope curr)) s := by
  refine (wp_bind ..).2 ((getPrincipalKeyNoDefault_outcome hs).mono (fun curr t ht => ?_)
    fun _ t ht => ⟨ht.2.tried (Quiet.refl t), fun hok curr hcan => ?_⟩)
  · obtain ⟨hcurr, ht, -⟩ := ht
    refine (wp_bind ..).2 ((findKeyProvider_spec providerName providerOid).mono
      (fun keyring t' ht' => ?_) fun _ t' ht' => ?_)
    · obtain ⟨rfl, hr⟩ := ht'
      rw [ht.providers] at hr
      refine (wp_bind ..).2 (fetchNewKey_spec.mono (fun newPk v hv => ?_) fun _ v hv => ?_)
      · obtain ⟨hq, howner, k, hk, hid, hname, hdata⟩ := hv
        rw [ht.kms] at hk
        have hasked : AskedFor w s keyName providerName providerOid scope newPk :=
          ⟨howner, keyring, k, hr, hk, hid, hname, hdata⟩
        cases curr with
        | none => exact ⟨hcurr, fun hok => hq.sysOk (ht.sysOk hok), hasked, nofun⟩
        | some curr =>
            have hrotate := (wp_ite ..).1
              (rotateFile_outcome newPk ht hq (hs.of_currentKey hcurr))
            have hdone : ∀ y, FileRotated w s y scope curr newPk ∧ (v.SysOk → y.SysOk) →
                currentKey w s scope = .ok (some curr) ∧ (s.SysOk → y.SysOk) ∧
                AskedFor w s keyName providerName providerOid scope newPk ∧
                ∀ c, some curr = some c → FileRotated w s y scope c newPk := by
              refine fun y hy => ⟨hcurr, fun hok => hy.2 (hq.sysOk (ht.sysOk hok)), hasked, ?_⟩
              rintro _ ⟨rfl⟩
              exact hy.1
            have hfail : ∀ y, Tried w s scope y ∧ (v.SysOk → ¬FileReadable w s scope curr) →
                Tried w s scope y ∧ (s.SysOk → ∀ c,
                  ¬CanRotate w s keyName providerName providerOid scope c) := by
              refine fun y hy => ⟨hy.1, fun hok c hcan => hy.2 (hq.sysOk (ht.sysOk hok)) ?_⟩
              obtain rfl : curr = c := by simpa [hcurr] using hcan.old
              exact hcan.readable
            refine (wp_ite ..).2 ⟨fun hg => ?_, fun hg => ?_⟩
            · exact (wp_bind ..).2 ((hrotate.1 hg).mono (fun _ y hy => hdone y hy)
                fun _ y hy => hfail y hy)
            · exact (wp_bind ..).2 ((hrotate.2 hg).mono (fun _ y hy => hdone y hy)
                fun _ y hy => hfail y hy)
      · obtain ⟨rfl, hno⟩ := hv
        refine ⟨ht.tried (Quiet.refl _), fun _ curr hcan => ?_⟩
        obtain ⟨keyring', k, hr', hk⟩ := hcan.new
        rw [hr] at hr'
        cases hr'
        exact hno k (by rw [ht.kms, hk])
    · obtain ⟨rfl, hno⟩ := ht'
      refine ⟨ht.tried (Quiet.refl _), fun _ curr hcan => ?_⟩
      obtain ⟨keyring', k, hr', hk⟩ := hcan.new
      rw [ht.providers, hr'] at hno
      cases hno
  · have herr := ht.1 hok
    rw [hcan.old] at herr
    cases herr

/-- The whole call, where there is a key to rotate. -/
theorem setPrincipalKeyWithKeyring_rotates (hs : OwnScopes s) (keyName providerName : List UInt8)
    (providerOid : Oid) :
    wp (setPrincipalKeyWithKeyring w keyName providerName providerOid scope)
      (fun _ t => ∀ curr, currentKey w s scope = .ok (some curr) → ∃ newPk,
        AskedFor w s keyName providerName providerOid scope newPk ∧
        FileRotated w s t scope curr newPk ∧ t.cache scope = some newPk)
      (fun _ _ => s.SysOk → ∀ curr, ¬CanRotate w s keyName providerName providerOid scope curr)
      s := by
  rw [setPrincipalKeyWithKeyring_eq_attempt]
  refine (wp_bind ..).2 ((attemptRotation_spec hs).mono (fun r t ht => ?_) fun _ _ ht => ht.2)
  obtain ⟨curr, newPk⟩ := r
  obtain ⟨hcurr, hok, hasked, hfile⟩ := ht
  cases curr with
  | none =>
      refine wp.of_forall (fun _ t curr h => ?_) fun _ t _ curr hcan => ?_
      · rw [hcurr] at h
        cases h
      · have h := hcan.old
        rw [hcurr] at h
        cases h
  | some curr =>
      have howner := hs.of_currentKey hcurr
      dsimp only [finishRotation, clearPrincipalKeyCache]
      simp only [wp_bind, wp_modify]
      have hc : (t.putCache curr.keyInfo.databaseId none).cache newPk.keyInfo.databaseId = none := by
        rw [howner, hasked.owner, putCache_cache, Function.update_self]
      refine (pushPrincipalKeyToCache_spec newPk hc).mono (fun _ v hv => ?_) fun _ v hv hs' =>
        absurd (hok hs') hv.2
      intro c h
      obtain rfl : curr = c := by simpa [hcurr] using h
      refine ⟨newPk, hasked, ?_, ?_⟩
      · have h := hfile curr rfl
        refine ⟨fun hg => ?_, fun hg => ?_⟩
        · obtain ⟨info, new, hf, hdata, hver, htable, htmp⟩ := h.file hg
          exact ⟨info, new, by rw [hv.keyFiles]; exact hf, hdata, hver, htable,
            by rw [hv.keyFiles]; exact htmp⟩
        · obtain ⟨info, new, hf, hdata, hver, htable, htmp⟩ := h.walFile hg
          exact ⟨info, new, by rw [hv.walKeys]; exact hf, hdata, hver, htable,
            by rw [hv.walKeys]; exact htmp⟩
      · rw [hv.cache, putCache_cache, hasked.owner, Function.update_self]

/-! ### A failed attempt -/

theorem Tried.keyFiles (h : Tried w s scope t) (db : Oid) :
    t.keyFiles (.keys db) = s.keyFiles (.keys db) := by
  obtain ⟨u, f, g, hu, hq⟩ := h
  rw [hq.keyFiles, ← hu.keyFiles]
  simp

theorem Tried.walKeys (h : Tried w s scope t) : t.walKeys .walKeys = s.walKeys .walKeys := by
  obtain ⟨u, f, g, hu, hq⟩ := h
  rw [hq.walKeys, ← hu.walKeys]
  simp

theorem Tried.providers (h : Tried w s scope t) : t.providers = s.providers := by
  obtain ⟨u, f, g, hu, hq⟩ := h
  rw [hq.providers, ← hu.providers]
  rfl

theorem Tried.cache (h : Tried w s scope t) : t.cache = s.cache ∨ ∃ k, s.cache scope = none ∧
    fetchedKey w s scope = .ok (some k) ∧ t.cache = Function.update s.cache scope (some k) := by
  obtain ⟨u, f, g, hu, hq⟩ := h
  have hcache : t.cache = u.cache := hq.cache
  obtain hu | ⟨k, hc, hk, hu⟩ := hu
  · exact .inl (hcache.trans hu.cache)
  · exact .inr ⟨k, hc, hk, by rw [hcache, hu.cache, putCache_cache]⟩

theorem Tried.scopeInfo (h : Tried w s scope t) (a : Oid) : scopeInfo t a = scopeInfo s a :=
  scopeInfo_congr (fun _ => h.keyFiles a) fun _ => h.walKeys

theorem Tried.ownScopes (h : Tried w s scope t) (hs : OwnScopes s) : OwnScopes t := by
  refine ⟨fun a info hi => hs.header a info (by rwa [h.scopeInfo] at hi), fun a k hk => ?_⟩
  obtain hc | ⟨k', -, hk', hc⟩ := h.cache
  · exact hs.cached a k (by rwa [hc] at hk)
  · by_cases ha : a = scope
    · rw [hc, ha, Function.update_self] at hk
      cases hk
      rw [ha]
      exact hs.of_fetchedKey hk'
    · rw [hc, Function.update_of_ne ha] at hk
      exact hs.cached a k hk

/-- What the world outside says does not make a key one of another scope. -/
theorem OwnScopes.outside (hs : OwnScopes s) (o : Outside) : OwnScopes (s.outside o) :=
  ⟨hs.header, hs.cached⟩

/-- A second file of any content. -/
def Server.withLeftovers (s : Server) (scope : Oid) (f : Option KeyFile) (g : Option WalKeyFile) :
    Server :=
  (s.putKeyFile (.keysTmp scope) f).putWalKeys .walKeysTmp g

theorem OwnScopes.withLeftovers (hs : OwnScopes s) (f : Option KeyFile) (g : Option WalKeyFile) :
    OwnScopes (s.withLeftovers scope f g) := by
  refine ⟨fun a info hi => hs.header a info ?_, hs.cached⟩
  rw [← hi]
  exact ((scopeInfo_putWalTmp _ g a).trans (scopeInfo_putTmp s scope f a)).symm

/-- A key that has been fetched is fetched again when the keyrings answer. -/
theorem fetchedKey_of_answer {k : TDEPrincipalKey} (h : fetchedKey w s scope = .ok (some k))
    (hp : t.providers = s.providers) (hi : OpenPgTde.scopeInfo t scope = scopeInfo s scope)
    (hkms : t.KeyringsAnswer) : fetchedKey w t scope = .ok (some k) := by
  unfold fetchedKey at h ⊢
  rw [hi, hp]
  split at h
  · cases h
  · split at h
    · cases h
    · rename_i keyring hkeyring
      split at h
      · cases h
      · cases h
      · rename_i key hkey
        obtain ⟨hvault, hvalid⟩ := keyringGetKey_eq_some hkey
        rw [keyringGetKey_of_stored (hkms _ _) hvault hvalid]
        exact h

theorem Tried.looksLike (h : Tried w s scope t) (o : Outside)
    (ho : t.cache = s.cache ∨ ∀ r name, o.kms r name = .stored) :
    LooksLike w (s.outside o) (t.outside o) where
  keyFiles := h.keyFiles
  walKeys := h.walKeys
  currentKey a := by
    have hinfo : OpenPgTde.scopeInfo (t.outside o) a = OpenPgTde.scopeInfo (s.outside o) a :=
      h.scopeInfo a
    have hfetch : fetchedKey w (t.outside o) a = fetchedKey w (s.outside o) a :=
      fetchedKey_congr h.providers rfl hinfo
    have hplain : (t.outside o).cache a = (s.outside o).cache a →
        currentKey w (t.outside o) a = currentKey w (s.outside o) a := fun hc => by
      rw [currentKey, currentKey, hc, hfetch]
    obtain hc | ⟨k, hnone, hk, hc⟩ := h.cache
    · exact hplain (congrFun hc a)
    · by_cases ha : a = scope
      · subst ha
        have hkms : ∀ r name, o.kms r name = .stored := by
          refine ho.resolve_left fun hsame => ?_
          have h := congrFun (hc.symm.trans hsame) a
          rw [Function.update_self, hnone] at h
          cases h
        have hct : (t.outside o).cache a = some k :=
          (congrFun hc a).trans (Function.update_self ..)
        have hcs : (s.outside o).cache a = none := hnone
        rw [currentKey, currentKey, hct, hcs]
        exact (fetchedKey_of_answer (t := s.outside o) hk rfl rfl hkms).symm
      · exact hplain ((congrFun hc a).trans (Function.update_of_ne ha ..))

/-- Nothing that anyone looks at has changed, except that the key in use may have come to be cached.
Lookups are compared in one and the same world outside, in which they meet no failed system call; if
the key has come to be cached, in one in which the keyrings answer. -/
structure Unchanged (w : World) (s : Server) (scope : Oid) (t : Server) : Prop where
  keyFiles : ∀ db, t.keyFiles (.keys db) = s.keyFiles (.keys db)
  walKeys : t.walKeys .walKeys = s.walKeys .walKeys
  cache : t.cache = s.cache ∨ ∃ k, s.cache scope = none ∧ fetchedKey w s scope = .ok (some k) ∧
    t.cache = Function.update s.cache scope (some k)
  relationKeys : ∀ o : Outside, (∀ i, o.sys i = true) →
    (t.cache = s.cache ∨ ∀ r name, o.kms r name = .stored) → ∀ rel,
    outcome (getSmgrKey w rel) (t.outside o) = outcome (getSmgrKey w rel) (s.outside o)
  lastRange : ∀ o : Outside, (∀ i, o.sys i = true) →
    (t.cache = s.cache ∨ ∀ r name, o.kms r name = .stored) →
    outcome (readLastWalRange w) (t.outside o) = outcome (readLastWalRange w) (s.outside o)
  ranges : ∀ o : Outside, (∀ i, o.sys i = true) →
    (t.cache = s.cache ∨ ∀ r name, o.kms r name = .stored) → ∀ start loc p,
    cacheAfterFetch w start ⟨t.outside o, loc, p⟩ = cacheAfterFetch w start ⟨s.outside o, loc, p⟩

theorem Tried.unchanged (h : Tried w s scope t) (hs : OwnScopes s) : Unchanged w s scope t := by
  have ht := h.ownScopes hs
  exact ⟨h.keyFiles, h.walKeys, h.cache,
    fun o hok ho => (h.looksLike o ho).getSmgrKey (hs.outside o) (ht.outside o) hok hok,
    fun o hok ho => (h.looksLike o ho).readLastWalRange (hs.outside o) (ht.outside o) hok hok,
    fun o hok ho => (h.looksLike o ho).cacheAfterFetch (hs.outside o) (ht.outside o) hok hok⟩

/-- The full result of a later call, whatever the second file contains: if it returns, the file and
the cache are those of the new key, with all the entries there were; and it returns if no step of it
meets an error. -/
structure CanBeRetried (w : World) (s : Server) (scope : Oid) (t : Server) : Prop where
  full : ∀ f g (o : Outside) keyName providerName providerOid u,
    setPrincipalKeyWithKeyring w keyName providerName providerOid scope
      ((t.withLeftovers scope f g).outside o) = .ok () u →
    ∀ curr, currentKey w ((t.withLeftovers scope f g).outside o) scope = .ok (some curr) →
    ∃ newPk, AskedFor w ((t.withLeftovers scope f g).outside o) keyName providerName providerOid
        scope newPk ∧
      FileRotated w s u scope curr newPk ∧ u.cache scope = some newPk
  returns : ∀ f g (o : Outside) keyName providerName providerOid curr, (∀ i, o.sys i = true) →
    CanRotate w ((t.withLeftovers scope f g).outside o) keyName providerName providerOid scope curr →
    ∃ u, setPrincipalKeyWithKeyring w keyName providerName providerOid scope
      ((t.withLeftovers scope f g).outside o) = .ok () u

theorem Tried.canBeRetried (h : Tried w s scope t) (hs : OwnScopes s) :
    CanBeRetried w s scope t := by
  have hown : ∀ f g (o : Outside), OwnScopes ((t.withLeftovers scope f g).outside o) := fun f g o =>
    ((h.ownScopes hs).withLeftovers f g).outside o
  constructor
  · intro f g o keyName providerName providerOid u hrun curr hcurr
    obtain ⟨newPk, hasked, hfile, hcache⟩ :=
      (setPrincipalKeyWithKeyring_rotates (hown f g o) _ _ _).of_ok hrun curr hcurr
    refine ⟨newPk, hasked, ⟨fun hg => ?_, fun hg => ?_⟩, hcache⟩
    · have hsame : ((t.withLeftovers scope f g).outside o).keyFiles (.keys scope) =
          s.keyFiles (.keys scope) := by
        rw [← h.keyFiles scope]
        show Function.update t.keyFiles (.keysTmp scope) f (.keys scope) = _
        simp
      rw [← hsame]
      exact hfile.file hg
    · have hsame : ((t.withLeftovers scope f g).outside o).walKeys .walKeys =
          s.walKeys .walKeys := by
        rw [← h.walKeys]
        show Function.update t.walKeys .walKeysTmp g .walKeys = _
        simp
      have hent : walEntries s = walEntries ((t.withLeftovers scope f g).outside o) := by
        rw [walEntries, walEntries, hsame]
      rw [hent]
      exact hfile.walFile hg
  · intro f g o keyName providerName providerOid curr hok hcan
    obtain ⟨_, u, hrun, -⟩ := (setPrincipalKeyWithKeyring_rotates (hown f g o) keyName providerName
      providerOid).exists_ok fun _ _ hno => hno hok curr hcan
    exact ⟨u, hrun⟩

/-- A rotation that fails before the rename changes nothing but the second file, except that the key
in use may be in the cache afterwards; a later rotation is not hindered by anything that is left. -/
theorem failed_rotation (w : World) (s : Server) (hs : OwnScopes s)
    (keyName providerName : List UInt8) (providerOid scope : Oid) (e : TdeError) (t : Server)
    (h : attemptRotation w keyName providerName providerOid scope s = .error e t) :
    Unchanged w s scope t ∧ CanBeRetried w s scope t := by
  have htried : Tried w s scope t := ((attemptRotation_spec hs).of_error h).1
  exact ⟨htried.unchanged hs, htried.canBeRetried hs⟩

/-- A database with a key that has not been used yet, and a keyring that does not give out the key
`B`. -/
def sampleUnloaded : Server :=
  { sampleServer.putKeyFile (.keys 5) (some (.current (sampleInfo 5) [])) with
    kms := fun _ name => if name = [66] then .failure .resourceNotAvailable else .stored }

theorem sampleUnloaded_ownScopes : OwnScopes sampleUnloaded := by
  refine ⟨fun a info hi => ?_, fun a k hk => by cases hk⟩
  by_cases ha : a = 5
  · subst ha
    have hinfo : scopeInfo sampleUnloaded 5 = some (sampleInfo 5) := rfl
    rw [hinfo] at hi
    cases hi
    rfl
  · have hnone : scopeInfo sampleUnloaded a = none := by
      unfold scopeInfo
      split
      · rfl
      · simp [sampleUnloaded, Server.putKeyFile, sampleServer, ha]
    rw [hnone] at hi
    cases hi

/-- The attempt to go over to the key `B` fails; the key in use is in the cache now. -/
theorem failed_rotation_loads_key : ∃ e t,
    attemptRotation sampleWorld [66] [112] globalDataTdeOid 5 sampleUnloaded = .error e t ∧
      sampleUnloaded.cache 5 = none ∧ (t.cache 5).isSome = true := by
  have hfails : returns (attemptRotation sampleWorld [66] [112] globalDataTdeOid 5) sampleUnloaded =
      false := by decide +kernel
  obtain ⟨e, he⟩ := error_after_of_not_returns hfails
  exact ⟨e, _, he, rfl, by decide +kernel⟩

theorem failed_rotation_sample : ∃ e t,
    attemptRotation sampleWorld [66] [112] globalDataTdeOid 5 sampleUnloaded = .error e t ∧
      Unchanged sampleWorld sampleUnloaded 5 t ∧ CanBeRetried sampleWorld sampleUnloaded 5 t := by
  have hfails : returns (attemptRotation sampleWorld [66] [112] globalDataTdeOid 5) sampleUnloaded =
      false := by decide +kernel
  obtain ⟨e, he⟩ := error_after_of_not_returns hfails
  exact ⟨e, _, he, failed_rotation sampleWorld sampleUnloaded sampleUnloaded_ownScopes [66] [112]
    globalDataTdeOid 5 e _ he⟩

end OpenPgTde
