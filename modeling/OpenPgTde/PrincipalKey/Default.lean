import OpenPgTde.PrincipalKey.Lifecycle
import OpenPgTde.WalKeys.Rotation

/-!
Changing the default key (`open_pg_tde_set_default_key_using_global_key_provider` of
`catalog/tde_principal_key.c`).

The default scope gets the new key, the scopes that used the old one are carried over to it one after
the other, and a server without a server key gets one. A call that returns has carried all of them
over and has changed nothing else: no other scope has another key, and no relation key and no range of
the WAL has been lost on the way.
-/

namespace OpenPgTde

open Lib.Effect

variable {w : World} {s t u : Server} {scope : Oid}

/-! ### The ranges of the WAL -/

/-- What the server key shows of the file of WAL keys. -/
def rangeTable (w : World) (s : Server) :
    List (WalEncryptionRangeType × WalLocation × Option InternalKey) :=
  match s.walKeys .walKeys, principalKeyOf w s globalDataTdeOid with
  | some (.current _ entries), some k => walTable w k.keyData entries
  | _, _ => []

theorem rangeTable_of_current {info : TDESignedPrincipalKeyInfo}
    {entries : List WalKeyFileEntry} {k : TDEPrincipalKey}
    (hf : s.walKeys .walKeys = some (.current info entries))
    (hk : principalKeyOf w s globalDataTdeOid = some k) :
    rangeTable w s = walTable w k.keyData entries := by
  simp [rangeTable, hf, hk]

theorem rangeTable_of_scopeInfo_none (hi : scopeInfo s globalDataTdeOid = none) :
    rangeTable w s = [] := by
  have hk : principalKeyOf w s globalDataTdeOid = none := by
    rw [principalKeyOf, hi]
    rfl
  unfold rangeTable
  rw [hk]
  cases s.walKeys .walKeys with
  | none => rfl
  | some f => cases f <;> rfl

theorem rangeTable_congr (hp : t.providers = s.providers)
    (hw : t.walKeys .walKeys = s.walKeys .walKeys) : rangeTable w t = rangeTable w s := by
  have hk : principalKeyOf w t globalDataTdeOid = principalKeyOf w s globalDataTdeOid :=
    principalKeyOf_congr (fun _ => by rw [hp]) (fun h => absurd rfl h) fun _ => hw
  rw [rangeTable, rangeTable, hw, hk]

/-- No step of an operation on principal keys changes a range. -/
theorem LoggedStep.rangeTable_eq (h : LoggedStep w s t) : rangeTable w t = rangeTable w s := by
  have hframe : t.walKeys .walKeys = s.walKeys .walKeys → rangeTable w t = rangeTable w s :=
    rangeTable_congr h.providers
  cases h with
  | quiet h => exact hframe (by rw [h.walKeys])
  | load | brokenAdd | brokenDelete | tmp | brokenSave | save | rotate | delete => exact hframe rfl
  | tmpWal => exact hframe (by simp)
  | brokenSaveServer _ hi =>
      rw [rangeTable_of_scopeInfo_none hi]
      exact rangeTable_of_scopeInfo_none (by simp [scopeInfo]; rfl)
  | @saveServer info k hi hh =>
      rw [rangeTable_of_scopeInfo_none hi]
      unfold rangeTable
      simp only [putCache_walKeys, putWalKeys_walKeys, Function.update_self]
      split <;> simp_all [walTable]
  | @rotateServer info info' entries new k k' hf hk _ hh ht =>
      rw [rangeTable_of_current hf hk, ← ht]
      refine rangeTable_of_current (by simp; rfl) (principalKeyOf_of_headerFor ?_ hh)
      exact scopeInfo_wal_current (by simp; rfl)

theorem LoggedSteps.rangeTable_eq (h : LoggedSteps w s t) : rangeTable w t = rangeTable w s := by
  induction h with
  | refl => rfl
  | tail _ h ih => rw [h.rangeTable_eq, ih]

/-- A range that is not marked invalid can be read. -/
def RangesReadable (w : World) (s : Server) : Prop :=
  ∀ x ∈ rangeTable w s, x.1 ≠ .invalid → x.2.2 ≠ none

theorem rangesReadable_of_stamped (h : ∀ k, principalKeyOf w s globalDataTdeOid = some k →
    ∀ e ∈ walEntries s, Stamped w k.keyData e) : RangesReadable w s := by
  intro x hx hvalid
  unfold rangeTable at hx
  split at hx
  · next info entries k hf hk =>
      obtain ⟨e, he, rfl⟩ := List.mem_map.1 hx
      have hst := h k hk e (by rwa [walEntries_of_current hf])
      obtain ⟨key, hkey, -⟩ := hst.unwrap hvalid
      simp [hkey]
  · cases hx

/-- A relation of a database can be read. -/
theorem relationTable_readable (hs : Consistent w s) {db : Oid} (hdb : db ≠ globalDataTdeOid) :
    ∀ x ∈ relationTable w s db, x.2 ≠ none := by
  intro x hx
  unfold relationTable at hx
  split at hx
  · next info entries k hf hk =>
      obtain ⟨e, he, rfl⟩ := List.mem_map.1 hx
      obtain ⟨he, htype⟩ := List.mem_filter.1 he
      have := (hs.scopes db).readable hdb info entries k hf hk e he (by simpa using htype)
      exact Option.isSome_iff_ne_none.1 this
  · cases hx

/-! ### What a call does to the keys -/

/-- The default key is `kp`. Another scope has the key it had, or it has `kp` as well, and then it
used the old default key or is the server, which had none. -/
structure DefaultMoved (w : World) (kp : List UInt8 × ℤ) (s t : Server) : Prop where
  steps : LoggedSteps w s t
  default : keyId w t defaultDataTdeOid = some kp
  others : ∀ a, a ≠ defaultDataTdeOid → principalKeyOf w t a = principalKeyOf w s a ∨
    keyId w t a = some kp ∧ (keyId w s a = none ∧ a = globalDataTdeOid ∨
      keyId w s a ≠ none ∧ keyId w s a = keyId w s defaultDataTdeOid)
  kms : t.kms = s.kms
  sysOk : s.SysOk → t.SysOk

/-- No scope has another key. -/
def SameKeys (w : World) (s t : Server) : Prop := ∀ a, principalKeyOf w t a = principalKeyOf w s a

/-- The key that a call asks for. -/
def wantedKey (w : World) (s : Server) (c : SetKeyCall) : Option (List UInt8 × ℤ) :=
  match checkSetKeyCall globalDataTdeOid c with
  | .error _ => none
  | .ok (keyName, providerName) => keyAt w s globalDataTdeOid providerName keyName

variable {kp : List UInt8 × ℤ} {c : SetKeyCall}

theorem wantedKey_congr (h : t.providers = s.providers) : wantedKey w t c = wantedKey w s c := by
  unfold wantedKey
  split
  · rfl
  · exact keyAt_congr h

theorem DefaultMoved.keyId_eq (h : DefaultMoved w kp s t) (hscope : scope ≠ defaultDataTdeOid)
    (hk : keyId w s scope = some kp) : keyId w t scope = some kp := by
  obtain hsame | hmoved := h.others scope hscope
  · rw [keyId_congr hsame, hk]
  · exact hmoved.1

theorem DefaultMoved.loaded (h : DefaultMoved w kp s t) (hl : Loaded w t u) :
    DefaultMoved w kp s u where
  steps := Relation.ReflTransGen.trans h.steps hl.steps
  default := by rw [keyId_congr (hl.principalKeyOf _), h.default]
  others a ha := by
    rw [hl.principalKeyOf, keyId_congr (hl.principalKeyOf a)]
    exact h.others a ha
  kms := hl.kms.trans h.kms
  sysOk hs := hl.sysOk (h.sysOk hs)

/-- The default key has been set. -/
theorem defaultMoved_of_set (hl : Loaded w s t) (hsteps : LoggedSteps w t u)
    (honly : OnlyScope w defaultDataTdeOid t u) (hnew : keyId w u defaultDataTdeOid = some kp) :
    DefaultMoved w kp s u :=
  ⟨Relation.ReflTransGen.trans hl.steps hsteps, hnew,
    fun a ha => .inl (by rw [honly.others a ha, hl.principalKeyOf]), honly.kms.trans hl.kms,
    fun hs => honly.sysOk (hl.sysOk hs)⟩

/-- Scopes are carried over. -/
theorem DefaultMoved.carry {oldId : List UInt8 × ℤ} (h : DefaultMoved w kp s t)
    (hc : Carried w oldId kp t u) (hold : keyId w s defaultDataTdeOid = some oldId) :
    DefaultMoved w kp s u := by
  refine ⟨Relation.ReflTransGen.trans h.steps hc.steps, by rw [keyId_congr hc.default, h.default],
    fun a ha => ?_, hc.kms.trans h.kms, fun hs => hc.sysOk (h.sysOk hs)⟩
  obtain hk | ⟨hk, hfrom⟩ := h.others a ha
  · obtain hk' | ⟨hk', hnew⟩ := hc.carried a ha
    · exact .inl (hk'.trans hk)
    · rw [keyId_congr hk] at hk'
      exact .inr ⟨hnew, .inr ⟨by simp [hk'], by rw [hk', hold]⟩⟩
  · exact .inr ⟨hc.keyId_eq ha hk, hfrom⟩

theorem ne_default_of_mem (h : scope ∈ defaultScopes s) : scope ≠ defaultDataTdeOid := by
  obtain rfl | h := List.mem_cons.1 h
  · decide
  · obtain ⟨db, -, rfl⟩ := List.mem_map.1 h
    exact db.ne_default

/-- The part of the call that is about the default key. -/
theorem setDefaultKey_spec (hs : Consistent w s) :
    wp (setPrincipalKeyInternal w globalDataTdeOid defaultDataTdeOid c)
      (fun _ t => ∃ kp, wantedKey w s c = some kp ∧ DefaultMoved w kp s t ∧
        (∀ a ∈ defaultScopes s, keyId w s a ≠ none → keyId w s a = keyId w s defaultDataTdeOid →
          keyId w t a = some kp) ∧
        (keyId w s globalDataTdeOid = keyId w s defaultDataTdeOid → WalFileReadable w s))
      (fun _ t => (LoggedSteps w s t ∧ SameKeys w s t ∨
          ∃ kp, wantedKey w s c = some kp ∧ DefaultMoved w kp s t) ∧
        (s.SysOk → s.KeyringsAnswer → wantedKey w s c ≠ none →
          keyId w s globalDataTdeOid = keyId w s defaultDataTdeOid ∧ ¬WalFileReadable w s)) s := by
  unfold setPrincipalKeyInternal
  cases hc : checkSetKeyCall globalDataTdeOid c with
  | error e =>
      have hnone : wantedKey w s c = none := by rw [wantedKey, hc]
      exact ⟨.inl ⟨.refl, fun _ => rfl⟩, fun _ _ h => absurd hnone h⟩
  | ok names =>
      obtain ⟨keyName, providerName⟩ := names
      have hwant : wantedKey w s c = keyAt w s globalDataTdeOid providerName keyName := by
        rw [wantedKey, hc]
      dsimp only
      rw [if_pos rfl]
      refine (wp_bind ..).2 ((getPrincipalKeyNoDefault_spec (hs.scopes _)).mono
        (fun existing t ht => ?_) fun _ t h => ⟨.inl ⟨h.1.steps, h.1.principalKeyOf⟩,
          fun hok hkms => absurd ((hs.scopes _).reachable hkms) (h.2 hok).2⟩)
      obtain ⟨hl, rfl, -⟩ := ht
      have hct := hl.consistent hs
      refine (wp_bind ..).2 ((setPrincipalKeyWithKeyring_spec hct (.inl rfl) keyName
        providerName).mono (fun _ u hu => ?_) fun _ u hu => ⟨?_, fun hok hkms hk => ?_⟩)
      · obtain ⟨hsteps, honly, k, hk, -, hat⟩ := hu
        have hcu := hsteps.keySteps.consistent hct
        have hwantk : wantedKey w s c = some k.id := by rw [hwant, ← keyAt_congr hl.providers, hat]
        have hnew : keyId w u defaultDataTdeOid = some k.id := by rw [keyId, hk, Option.map_some]
        have hset := defaultMoved_of_set hl hsteps honly hnew
        cases hex : principalKeyOf w s defaultDataTdeOid with
        | none =>
            have hnone : keyId w s defaultDataTdeOid = none := by rw [keyId, hex, Option.map_none]
            refine ⟨k.id, hwantk, hset, fun a _ hne heq => ?_, fun heq info entries k _ hk => ?_⟩
            · rw [hnone] at heq
              exact absurd heq hne
            · rw [hnone, keyId, hk] at heq
              cases heq
        | some oldKey =>
            have hold : keyId w s defaultDataTdeOid = some oldKey.id := by
              rw [keyId, hex, Option.map_some]
            refine (wp_bind ..).2 ((getPrincipalKeyNoDefault_spec (hcu.scopes _)).mono
              (fun r v hv => ?_) fun _ v hv => ⟨.inr ⟨k.id, hwantk, hset.loaded hv.1⟩,
                fun hok hkms => absurd ((hcu.scopes _).reachable (hkms.congr hset.kms))
                  (hv.2 (hset.sysOk hok)).2⟩)
            obtain ⟨hlv, rfl, -⟩ := hv
            rw [hk]
            have hsv : ∀ a, a ≠ defaultDataTdeOid → principalKeyOf w v a = principalKeyOf w s a :=
              fun a ha => by rw [hlv.principalKeyOf, honly.others a ha, hl.principalKeyOf]
            have hkv : principalKeyOf w v defaultDataTdeOid = some k := by
              rw [hlv.principalKeyOf, hk]
            have hdbs : defaultScopes v = defaultScopes s := by
              rw [defaultScopes, defaultScopes, hlv.databases, hsteps.keySteps.databases,
                hl.databases]
            refine (updateDefaultPrincipalKeyEverywhere_spec (hlv.consistent hcu) hkv).mono
              (fun _ x hx => ⟨k.id, hwantk, (hset.loaded hlv).carry hx.1 hold, fun a ha _ heq => ?_,
                fun heq => ?_⟩) fun _ x hx => ⟨.inr ⟨k.id, hwantk, (hset.loaded hlv).carry hx.1 hold⟩,
                fun hok hkms _ => ?_⟩
            · refine hx.2.1 a (by rwa [hdbs]) ?_
              rw [keyId_congr (hsv a (ne_default_of_mem ha)), heq, hold]
            · have hread := hx.2.2 (by rw [keyId_congr (hsv _ (by decide)), heq, hold])
              exact hread.congr (hsv _ (by decide)).symm (by
                rw [hlv.walKeys, honly.walKeys (by decide), hl.walKeys])
            · obtain ⟨hglobal, hno⟩ := hx.2 (hlv.sysOk (hset.sysOk hok))
                (hkms.congr (hlv.kms.trans hset.kms))
              rw [keyId_congr (hsv _ (by decide))] at hglobal
              exact ⟨by rw [hglobal, hold], fun h => hno (h.congr (hsv _ (by decide)) (by
                rw [hlv.walKeys, honly.walKeys (by decide), hl.walKeys]))⟩
      · obtain ⟨hsteps, honly, hkey, -⟩ := hu
        obtain hsame | ⟨k, hk, hat⟩ := hkey
        · refine .inl ⟨Relation.ReflTransGen.trans hl.steps hsteps, fun a => ?_⟩
          by_cases ha : a = defaultDataTdeOid
          · rw [ha, hsame, hl.principalKeyOf]
          · rw [honly.others a ha, hl.principalKeyOf]
        · refine .inr ⟨k.id, ?_, defaultMoved_of_set hl hsteps honly ?_⟩
          · rw [hwant, ← keyAt_congr hl.providers, hat]
          · rw [keyId, hk, Option.map_some]
      · have hbad := hu.2.2.2 (hl.sysOk hok) (hkms.congr hl.kms) (by
          rwa [keyAt_congr hl.providers, ← hwant])
        exact absurd hbad.1 (by decide)

/-- The server gets a key along with the default key. -/
theorem DefaultMoved.server (h : DefaultMoved w kp s t) (hnone : keyId w s globalDataTdeOid = none)
    (hsteps : LoggedSteps w t u) (honly : OnlyScope w globalDataTdeOid t u)
    (hkey : principalKeyOf w u globalDataTdeOid = principalKeyOf w t globalDataTdeOid ∨
      keyId w u globalDataTdeOid = some kp) : DefaultMoved w kp s u := by
  refine ⟨Relation.ReflTransGen.trans h.steps hsteps, ?_, fun a ha => ?_, honly.kms.trans h.kms,
    fun hs => honly.sysOk (h.sysOk hs)⟩
  · rw [keyId_congr (honly.others _ (by decide)), h.default]
  · by_cases hg : a = globalDataTdeOid
    · subst hg
      obtain hsame | hnew := hkey
      · rw [hsame, keyId_congr hsame]
        exact h.others _ ha
      · exact .inr ⟨hnew, .inl ⟨hnone, rfl⟩⟩
    · rw [honly.others a hg, keyId_congr (honly.others a hg)]
      exact h.others a ha

/-- What a call does: if it returns, all scopes that used the old default key have gone over, and if
it fails, none or any number of them. -/
theorem setDefaultKeyUsingGlobalKeyProvider_keys (hs : Consistent w s) :
    wp (setDefaultKeyUsingGlobalKeyProvider w c)
      (fun _ t => ∃ kp, wantedKey w s c = some kp ∧ DefaultMoved w kp s t ∧
        (∀ a ∈ defaultScopes s, keyId w s a ≠ none → keyId w s a = keyId w s defaultDataTdeOid →
          keyId w t a = some kp) ∧
        (keyId w s globalDataTdeOid = none → keyId w t globalDataTdeOid = some kp) ∧
        (keyId w s globalDataTdeOid = keyId w s defaultDataTdeOid → WalFileReadable w s))
      (fun _ t => (LoggedSteps w s t ∧ SameKeys w s t ∨
          ∃ kp, wantedKey w s c = some kp ∧ DefaultMoved w kp s t) ∧
        (s.SysOk → s.KeyringsAnswer → wantedKey w s c ≠ none →
          keyId w s globalDataTdeOid = keyId w s defaultDataTdeOid ∧ ¬WalFileReadable w s)) s := by
  refine (wp_bind ..).2 ((setDefaultKey_spec hs).mono (fun _ t ht => ?_) fun _ _ h => h)
  obtain ⟨kp, hwant, hmoved, hall, hread⟩ := ht
  have hct := hmoved.steps.keySteps.consistent hs
  refine (wp_bind ..).2 ((getPrincipalKeyNoDefault_spec (hct.scopes _)).mono (fun r u hu => ?_)
    fun _ u hu => ⟨.inr ⟨kp, hwant, hmoved.loaded hu.1⟩, fun hok hkms =>
      absurd ((hct.scopes _).reachable (hkms.congr hmoved.kms)) (hu.2 (hmoved.sysOk hok)).2⟩)
  obtain ⟨hl, rfl, -⟩ := hu
  have hmu := hmoved.loaded hl
  have hcu := hl.consistent hct
  cases hg : principalKeyOf w t globalDataTdeOid with
  | some k =>
      refine ⟨kp, hwant, hmu, fun a ha hne heq => ?_, fun hnone => ?_, hread⟩
      · rw [keyId_congr (hl.principalKeyOf a)]
        exact hall a ha hne heq
      · obtain hsame | hnew := hmu.others globalDataTdeOid (by decide)
        · rw [keyId, ← hsame, hl.principalKeyOf, hg] at hnone
          cases hnone
        · exact hnew.1
  | none =>
      have hnone : keyId w s globalDataTdeOid = none := by
        obtain hsame | hnew := hmoved.others globalDataTdeOid (by decide)
        · rw [keyId, ← hsame, hg, Option.map_none]
        · rw [keyId, hg] at hnew
          cases hnew.1
      dsimp only
      unfold setPrincipalKeyInternal
      cases hc : checkSetKeyCall globalDataTdeOid c with
      | error e =>
          rw [wantedKey, hc] at hwant
          cases hwant
      | ok names =>
          obtain ⟨keyName, providerName⟩ := names
          have hat : keyAt w u globalDataTdeOid providerName keyName = some kp := by
            rw [keyAt_congr hmu.steps.keySteps.providers, ← hwant, wantedKey, hc]
          dsimp only
          rw [if_neg (by decide)]
          refine (wp_bind ..).2 ((wp_bind ..).2 ((setPrincipalKeyWithKeyring_spec hcu (.inl rfl)
            keyName providerName).mono (fun _ v hv => ?_) fun _ v hv => ⟨.inr ⟨kp, hwant, ?_⟩, ?_⟩))
          · obtain ⟨hsteps, honly, k, hk, -, hid⟩ := hv
            rw [hat, Option.some.injEq] at hid
            have hnew : keyId w v globalDataTdeOid = some kp := by
              rw [keyId, hk, Option.map_some, hid]
            refine ⟨kp, hwant, hmu.server hnone hsteps honly (.inr hnew), fun a ha hne heq => ?_,
              fun _ => hnew, hread⟩
            by_cases ha' : a = globalDataTdeOid
            · rw [ha', hnew]
            · rw [keyId_congr (honly.others a ha'), keyId_congr (hl.principalKeyOf a)]
              exact hall a ha hne heq
          · obtain ⟨hsteps, honly, hkey, -⟩ := hv
            refine hmu.server hnone hsteps honly (hkey.imp id fun hkey => ?_)
            obtain ⟨k, hk, hid⟩ := hkey
            rw [hat, Option.some.injEq] at hid
            rw [keyId, hk, Option.map_some, hid]
          · -- a file without a header has nothing to read
            intro hok hkms _
            refine absurd ?_ (hv.2.2.2 (hmu.sysOk hok) (hkms.congr hmu.kms) (by simp [hat])).2
            intro info entries k _ hk
            rw [hl.principalKeyOf, hg] at hk
            cases hk

/-! ### A call that returns -/

/-- A change of the default key that returns. The default scope has the key that was asked for, and so
has each database and the server if it had the old default key, and the server also if it had none;
the others have the key they had; and all relation keys and all ranges of the WAL are there and can be
read. -/
theorem default_key_change (w : World) (s t : Server) (c : SetKeyCall) (hs : Consistent w s)
    (hwal : ∀ k, principalKeyOf w s globalDataTdeOid = some k →
      ∀ e ∈ walEntries s, Stamped w k.keyData e)
    (hrun : setDefaultKeyUsingGlobalKeyProvider w c s = .ok () t) :
    ∃ kp, wantedKey w s c = some kp ∧ keyId w t defaultDataTdeOid = some kp ∧
      (∀ a ∈ defaultScopes s, keyId w s a ≠ none → keyId w s a = keyId w s defaultDataTdeOid →
        keyId w t a = some kp) ∧
      (keyId w s globalDataTdeOid = none → keyId w t globalDataTdeOid = some kp) ∧
      (∀ a ∈ defaultScopes s, (keyId w s a = none → a ≠ globalDataTdeOid) →
        (keyId w s a ≠ none → keyId w s a ≠ keyId w s defaultDataTdeOid) →
        principalKeyOf w t a = principalKeyOf w s a) ∧
      (∀ db, db ≠ globalDataTdeOid → relationTable w t db = relationTable w s db ∧
        ∀ x ∈ relationTable w t db, x.2 ≠ none) ∧
      rangeTable w t = rangeTable w s ∧ RangesReadable w t := by
  obtain ⟨kp, hwant, hmoved, hall, hserver, -⟩ :=
    (setDefaultKeyUsingGlobalKeyProvider_keys hs).of_ok hrun
  have hranges : rangeTable w t = rangeTable w s := LoggedSteps.rangeTable_eq hmoved.steps
  refine ⟨kp, hwant, hmoved.default, hall, hserver, fun a ha hnone hdiff => ?_, fun db hdb => ⟨?_, ?_⟩,
    hranges, ?_⟩
  · obtain hsame | ⟨-, ⟨hk, hg⟩ | ⟨hk, heq⟩⟩ := hmoved.others a (ne_default_of_mem ha)
    · exact hsame
    · exact absurd hg (hnone hk)
    · exact absurd heq (hdiff hk)
  · exact hmoved.steps.keySteps.relationTable_eq hdb
  · exact relationTable_readable (hmoved.steps.keySteps.consistent hs) hdb
  · rw [RangesReadable, hranges]
    exact rangesReadable_of_stamped hwal

/-- A server with a default key and a database that uses it. -/
def sampleDefaults : Server := lifecycle sampleWorld (sampleLifecycle.take 2) sampleServer

theorem sampleDefaults_consistent : Consistent sampleWorld sampleDefaults :=
  lifecycle_consistent _ sampleServer_fresh.consistent

theorem default_key_change_sample :
    keyId sampleWorld sampleDefaults 5 = some ([65], -1) ∧ ∃ t,
      setDefaultKeyUsingGlobalKeyProvider sampleWorld (sampleCall [66]) sampleDefaults = .ok () t ∧
      keyId sampleWorld t 5 = some ([66], -1) := by
  have hkey : keyId sampleWorld sampleDefaults 5 = some ([65], -1) := by decide +kernel
  have hdef : keyId sampleWorld sampleDefaults defaultDataTdeOid = some ([65], -1) := by
    decide +kernel
  have hwal : walEntries sampleDefaults = [] := by decide +kernel
  obtain ⟨_, t, hrun⟩ := exists_of_returns (m := setDefaultKeyUsingGlobalKeyProvider sampleWorld
    (sampleCall [66])) (s := sampleDefaults) (by decide +kernel)
  obtain ⟨kp, hwant, -, hmoved, -⟩ := default_key_change sampleWorld sampleDefaults t
    (sampleCall [66]) sampleDefaults_consistent (fun k _ e he => by rw [hwal] at he; cases he) hrun
  have hkp : wantedKey sampleWorld sampleDefaults (sampleCall [66]) = some ([66], -1) := by
    decide +kernel
  rw [hkp, Option.some.injEq] at hwant
  refine ⟨hkey, t, hrun, ?_⟩
  rw [hmoved 5 (by decide +kernel) (by simp [hkey]) (by rw [hkey, hdef]), hwant]

end OpenPgTde
