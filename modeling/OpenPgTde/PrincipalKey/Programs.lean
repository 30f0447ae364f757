import OpenPgTde.PrincipalKey.Step

/-!
The operations on principal keys are made of the steps of `Step`.

Each specification has the same shape: from a consistent state the operation, whether it returns or
raises an error, has made a number of steps. Everything that is invariant under the steps is then
invariant under the operations. On the way the specifications say what a lookup returns, since the
conditions of the later steps depend on it.
-/

namespace OpenPgTde

open Lib.Effect Lib.SlotArray

variable {w : World} {s t u : Server} {scope : Oid}

/-! ### Steps that only load keys into the cache -/

/-- From `s` to `t` keys were loaded into the cache and nothing else happened. -/
structure Loaded (w : World) (s t : Server) : Prop where
  steps : LoggedSteps w s t
  keyFiles : t.keyFiles = s.keyFiles
  walKeys : t.walKeys = s.walKeys
  providers : t.providers = s.providers
  databases : t.databases = s.databases
  xlog : t.xlog = s.xlog
  kms : t.kms = s.kms
  cache : ∀ scope k, s.cache scope = some k → t.cache scope = some k
  cached : ∀ scope k, t.cache scope = some k →
    s.cache scope = some k ∨ principalKeyOf w s scope = some k
  sysOk : s.SysOk → t.SysOk

theorem Loaded.refl (s : Server) : Loaded w s s :=
  ⟨.refl, rfl, rfl, rfl, rfl, rfl, rfl, fun _ _ h => h, fun _ _ h => .inl h, id⟩

theorem Loaded.scopeInfo (h : Loaded w s t) (scope : Oid) : scopeInfo t scope = scopeInfo s scope :=
  scopeInfo_congr (fun _ => by rw [h.keyFiles]) fun _ => by rw [h.walKeys]

theorem Loaded.principalKeyOf (h : Loaded w s t) (scope : Oid) :
    principalKeyOf w t scope = principalKeyOf w s scope :=
  principalKeyOf_congr (fun _ => by rw [h.providers]) (fun _ => by rw [h.keyFiles])
    fun _ => by rw [h.walKeys]

theorem Loaded.trans (h : Loaded w s t) (h' : Loaded w t u) : Loaded w s u where
  steps := Relation.ReflTransGen.trans h.steps h'.steps
  keyFiles := h'.keyFiles.trans h.keyFiles
  walKeys := h'.walKeys.trans h.walKeys
  providers := h'.providers.trans h.providers
  databases := h'.databases.trans h.databases
  xlog := h'.xlog.trans h.xlog
  kms := h'.kms.trans h.kms
  cache a k hk := h'.cache a k (h.cache a k hk)
  cached a k hk := by
    obtain hk | hk := h'.cached a k hk
    · exact h.cached a k hk
    · exact .inr (by rw [← h.principalKeyOf, hk])
  sysOk hs := h'.sysOk (h.sysOk hs)

theorem Quiet.loaded (h : Quiet s t) : Loaded w s t := by
  have hstep : LoggedSteps w s t := .single (.quiet h)
  have hok := h.sysOk
  obtain ⟨rng, clock, sys, -, rfl⟩ := h
  exact ⟨hstep, rfl, rfl, rfl, rfl, rfl, rfl, fun _ _ h => h, fun _ _ h => .inl h, hok⟩

theorem Loaded.scopeOk (h : Loaded w s t) (hs : ScopeOk w s scope) : ScopeOk w t scope :=
  h.steps.keySteps.scopeOk hs

theorem Loaded.consistent (h : Loaded w s t) (hs : Consistent w s) : Consistent w t :=
  h.steps.keySteps.consistent hs

/-! ### Looking up a principal key -/

/-- The keyring gives the key that the header of the scope names. -/
def Reachable (w : World) (s : Server) (scope : Oid) : Prop :=
  ∀ info, scopeInfo s scope = some info → ∃ r k,
    getKeyProviderByID s.providers info.data.keyringId scope = some r ∧
    keyringGetKey w s.kms r info.data.name = .ok (some k) ∧
    verifyPrincipalKeyInfo w info k.data = true

/-- Every keyring answers and has the keys that are kept in it. -/
def Server.KeyringsAnswer (s : Server) : Prop := ∀ r name, s.kms r name = .stored

theorem Server.KeyringsAnswer.congr (h : s.KeyringsAnswer) (hk : t.kms = s.kms) :
    t.KeyringsAnswer := by
  intro r name
  rw [hk]
  exact h r name

theorem HeaderFor.reachable {info : TDESignedPrincipalKeyInfo} {k : TDEPrincipalKey}
    (h : HeaderFor w s.providers scope info k) (hi : scopeInfo s scope = some info)
    (hkms : s.KeyringsAnswer) : Reachable w s scope := by
  intro info' hi'
  rw [hi] at hi'
  cases hi'
  obtain ⟨r, hr, hvault, hvalid⟩ := h.fetched
  refine ⟨r, ⟨info.data.name, k.keyData⟩, hr,
    keyringGetKey_of_stored (hkms r info.data.name) hvault hvalid, ?_⟩
  have hn := h.named
  simp only [namedKey, hr, hvault] at hn
  split at hn
  · assumption
  · cases hn

theorem ScopeOk.reachable (h : ScopeOk w s scope) (hkms : s.KeyringsAnswer) :
    Reachable w s scope := by
  intro info hi
  obtain ⟨k, hk⟩ := h.header info hi
  exact hk.reachable hi hkms info hi

theorem pushPrincipalKeyToCache_spec (k : TDEPrincipalKey)
    (hc : s.cache k.keyInfo.databaseId = none) :
    wp (pushPrincipalKeyToCache k)
      (fun _ t => Quiet (s.putCache k.keyInfo.databaseId (some k)) t)
      (fun _ t => Quiet (s.putCache k.keyInfo.databaseId (some k)) t ∧ ¬s.SysOk) s := by
  unfold pushPrincipalKeyToCache
  simp only [wp_bind, wp_get, hc, Option.isNone_none, if_true, wp_set]
  exact (sysCall_spec _).mono (fun _ _ h => h) fun _ _ h => ⟨h.2.1, h.2.2⟩

theorem scopeInfo_spec :
    wp (if scope = globalDataTdeOid then getServerKeyInfo else getPrincipalKeyInfo scope)
      (fun r t => Quiet s t ∧ r = scopeInfo s scope) (fun _ t => Quiet s t ∧ ¬s.SysOk) s := by
  unfold scopeInfo
  split
  · exact getServerKeyInfo_spec
  · exact getPrincipalKeyInfo_spec

theorem getPrincipalKeyFromKeyring_spec :
    wp (getPrincipalKeyFromKeyring w scope)
      (fun r t => Quiet s t ∧ r = principalKeyOf w s scope ∧ (r = none → scopeInfo s scope = none))
      (fun _ t => Quiet s t ∧ (s.SysOk → ¬Reachable w s scope)) s := by
  refine (wp_bind ..).2 (scopeInfo_spec.mono (fun r t ht => ?_) fun _ t h =>
    ⟨h.1, fun hs => absurd hs h.2⟩)
  obtain ⟨hq, rfl⟩ := ht
  cases hi : scopeInfo s scope with
  | none => exact ⟨hq, by rw [principalKeyOf, hi]; rfl, fun _ => rfl⟩
  | some info =>
      have hp : t.providers = s.providers := hq.providers
      have hkms : t.kms = s.kms := hq.loaded (w := w) |>.kms
      simp only [wp_bind, wp_get, hp, hkms]
      have hreach : Reachable w s scope → ∃ r k,
          getKeyProviderByID s.providers info.data.keyringId scope = some r ∧
          keyringGetKey w s.kms r info.data.name = .ok (some k) ∧
          verifyPrincipalKeyInfo w info k.data = true := fun h => h info hi
      cases hr : getKeyProviderByID s.providers info.data.keyringId scope with
      | none =>
          refine ⟨hq, fun _ h => ?_⟩
          obtain ⟨r, k, hr', -⟩ := hreach h
          rw [hr] at hr'; cases hr'
      | some keyring =>
          dsimp only
          cases hk : keyringGetKey w s.kms keyring info.data.name with
          | error code =>
              refine ⟨hq, fun _ h => ?_⟩
              obtain ⟨r, k, hr', hk', -⟩ := hreach h
              rw [hr] at hr'; cases hr'
              rw [hk] at hk'; cases hk'
          | ok key =>
              cases key with
              | none =>
                  refine ⟨hq, fun _ h => ?_⟩
                  obtain ⟨r, k, hr', hk', -⟩ := hreach h
                  rw [hr] at hr'; cases hr'
                  rw [hk] at hk'; cases hk'
              | some k =>
                  have hv := (keyringGetKey_eq_some hk).1
                  simp only [wp_ite, wp_pure, wp_throw]
                  refine ⟨fun hver => ⟨hq, ?_, fun h => by cases h⟩,
                    fun hver => ⟨hq, fun _ h => ?_⟩⟩
                  · simp [principalKeyOf, hi, namedKey, hr, hv, hver]
                  · obtain ⟨r, k', hr', hk', hver'⟩ := hreach h
                    rw [hr] at hr'; cases hr'
                    rw [hk] at hk'; cases hk'
                    exact absurd hver' hver

/-- A lookup returns the principal key of the scope, which is in the cache afterwards. All it needs
is a cache that agrees with the header, and a header that names its own scope. -/
theorem lookup_spec (hcached : ∀ k, s.cache scope = some k → principalKeyOf w s scope = some k)
    (howns : ∀ info, scopeInfo s scope = some info → info.data.databaseId = scope) :
    wp (getPrincipalKeyNoDefault w scope)
      (fun r t => Loaded w s t ∧ r = principalKeyOf w s scope ∧ t.cache scope = r ∧
        (r = none → scopeInfo s scope = none))
      (fun _ t => Loaded w s t ∧ (s.SysOk → s.cache scope = none ∧ ¬Reachable w s scope)) s := by
  unfold getPrincipalKeyNoDefault
  simp only [wp_bind, wp_get]
  cases hc : s.cache scope with
  | some k => exact ⟨Loaded.refl s, (hcached k hc).symm, hc, fun h => by cases h⟩
  | none =>
      simp only [wp_bind]
      refine getPrincipalKeyFromKeyring_spec.mono (fun r t ht => ?_) fun _ t h =>
        ⟨h.1.loaded, fun hok => ⟨trivial, h.2 hok⟩⟩
      obtain ⟨hq, rfl, hnone⟩ := ht
      have hct : t.cache scope = none := by
        obtain ⟨_, _, _, _, rfl⟩ := hq
        exact hc
      cases hk : principalKeyOf w s scope with
      | none => exact ⟨hq.loaded, rfl, hct, fun _ => hnone hk⟩
      | some k =>
          have howner : k.keyInfo.databaseId = scope := by
            obtain ⟨info, hi, hn⟩ := principalKeyOf_eq_some.1 hk
            rw [keyInfo_of_namedKey hn, howns info hi]
          have hpk : principalKeyOf w t scope = some k := by
            rw [(hq.loaded (w := w)).principalKeyOf, hk]
          have hput : Loaded w t (t.putCache scope (some k)) := by
            refine ⟨.single (.load hct hpk), rfl, rfl, rfl, rfl, rfl, rfl, fun a k' hk' => ?_,
              fun a k' hk' => ?_, id⟩
            · by_cases ha : a = scope
              · rw [ha, hct] at hk'; cases hk'
              · simpa [ha] using hk'
            · by_cases ha : a = scope
              · subst ha
                obtain rfl : k = k' := by simpa using hk'
                exact .inr hpk
              · exact .inl (by simpa [ha] using hk')
          have hpush : Loaded w s (t.putCache scope (some k)) := hq.loaded.trans hput
          simp only [wp_bind]
          refine (pushPrincipalKeyToCache_spec k (by rw [howner, hct])).mono (fun _ v hv => ?_)
            fun _ v hv => ⟨?_, fun hok => absurd (hq.sysOk hok) hv.2⟩
          · rw [howner] at hv
            simp only [wp_get, wp_pure]
            have hcv : v.cache scope = some k := hv.loaded (w := w) |>.cache scope k (by simp)
            exact ⟨hpush.trans hv.loaded, hcv, trivial, fun h => by rw [hcv] at h; cases h⟩
          · rw [howner] at hv
            exact hpush.trans hv.1.loaded

theorem getPrincipalKeyNoDefault_spec (hs : ScopeOk w s scope) :
    wp (getPrincipalKeyNoDefault w scope)
      (fun r t => Loaded w s t ∧ r = principalKeyOf w s scope ∧ t.cache scope = r)
      (fun _ t => Loaded w s t ∧ (s.SysOk → s.cache scope = none ∧ ¬Reachable w s scope)) s := by
  refine (lookup_spec hs.cached fun info hi => ?_).mono (fun _ _ h => ⟨h.1, h.2.1, h.2.2.1⟩)
    fun _ _ h => h
  obtain ⟨k, hk⟩ := hs.header info hi
  exact hk.owner

/-! ### Keys that can be named by a header -/

/-- Whatever header is signed with `k` for the scope names `k`. -/
def KeyFor (w : World) (providers : Oid → List KeyringProviderRecord) (scope : Oid)
    (k : TDEPrincipalKey) : Prop :=
  k.keyInfo.databaseId = scope ∧ ∀ info : TDESignedPrincipalKeyInfo, info.data = k.keyInfo →
    verifyPrincipalKeyInfo w info k.keyData = true → HeaderFor w providers scope info k

/-- A key that was just fetched from a provider of the scope. -/
theorem keyFor_of_provider {providers : Oid → List KeyringProviderRecord} {providerOid : Oid}
    {providerName keyName : List UInt8} {kms : KeyringProviderRecord → List UInt8 → KmsReply}
    {r : KeyringProviderRecord} {k : KeyInfo} {now : Timeval} (hp : ProvidersOk providers)
    (hscope : providerOid = globalDataTdeOid ∨
      providerOid = scope ∧ scope ≠ defaultDataTdeOid ∧ scope ≠ globalDataTdeOid)
    (hr : getKeyProviderByName providers providerName providerOid = some r)
    (hk : keyringGetKey w kms r keyName = .ok (some k)) :
    KeyFor w providers scope ⟨⟨scope, r.providerId, now, k.name⟩, k.data⟩ := by
  obtain ⟨hmem, htype⟩ := mem_of_getKeyProviderByName hr
  -- the sign of the id leads back to the file the record was found in
  have hfile : providerScope r.providerId scope = providerOid ∧
      (scope = defaultDataTdeOid ∨ scope = globalDataTdeOid → r.providerId < 0) := by
    obtain rfl | ⟨rfl, hd, hg⟩ := hscope
    · have := hp.global r hmem
      simp [providerScope, this]
    · have := hp.database _ hg r hmem
      refine ⟨by simp [providerScope, not_lt.2 this.le], fun h => ?_⟩
      obtain h | h := h
      · exact absurd h hd
      · exact absurd h hg
  have hid : getKeyProviderByID providers r.providerId scope = some r :=
    getKeyProviderByID_of_mem (hp.nodup _) (by rwa [hfile.1]) rfl htype
  obtain ⟨hvault, hvalid⟩ := keyringGetKey_eq_some hk
  have hname := w.vault_name hvault
  refine ⟨rfl, fun info hinfo hver => ⟨?_, by rw [hinfo], fun h => ?_, ?_⟩⟩
  · simp only [namedKey, hinfo, hid, hname]
    simp only [hver, if_true]
  · rw [hinfo]
    exact hfile.2 h
  · rw [hinfo]
    exact ⟨r, hid, hname, hvalid⟩

/-- The default key under the name of another scope. -/
theorem keyFor_of_default {k : TDEPrincipalKey} (hs : ScopeOk w s defaultDataTdeOid)
    (hk : principalKeyOf w s defaultDataTdeOid = some k) (scope : Oid) :
    KeyFor w s.providers scope
      { k with keyInfo := { k.keyInfo with databaseId := scope } } := by
  obtain ⟨info, entries, hf, hh, -⟩ := hs.exists_current (by decide) hk
  have hneg : info.data.keyringId < 0 := hh.shared (.inl rfl)
  have hinfo : k.keyInfo = info.data := keyInfo_of_namedKey hh.named
  obtain ⟨r, hr, hvault, hvalid⟩ := hh.fetched
  have hlookup : getKeyProviderByID s.providers info.data.keyringId scope = some r := by
    rw [← hr]
    simp [getKeyProviderByID, providerScope, hneg]
  refine ⟨rfl, fun info' hinfo' hver => ⟨?_, by rw [hinfo'], fun _ => ?_, ?_⟩⟩
  · simp only [hinfo] at hinfo'
    simp only [namedKey, hinfo', hlookup, hvault]
    simp only at hver
    simp only [hver, if_true, hinfo]
  · rw [hinfo', hinfo]
    exact hneg
  · rw [hinfo', hinfo]
    exact ⟨r, hlookup, hvault, hvalid⟩

/-! ### Runs of which it depends whether they are logged -/

/-- The steps that were made; all of them logged in the case `logged`. -/
def Steps (w : World) (logged : Bool) (s t : Server) : Prop :=
  KeySteps w s t ∧ (logged = true → LoggedSteps w s t)

section Steps

variable {x : Bool}

theorem LoggedSteps.steps (h : LoggedSteps w s t) : Steps w x s t := ⟨h.keySteps, fun _ => h⟩

theorem Steps.trans (h : Steps w x s t) (h' : Steps w x t u) : Steps w x s u :=
  ⟨Relation.ReflTransGen.trans h.1 h'.1, fun hx =>
    Relation.ReflTransGen.trans (h.2 hx) (h'.2 hx)⟩

theorem Steps.quiet (h : Steps w x s t) (hq : Quiet t u) : Steps w x s u :=
  h.trans (LoggedSteps.steps (.single (.quiet hq)))

end Steps

/-! ### What a routine for one scope leaves alone -/

/-- The other scopes have the principal keys they had, and the world outside is the same. -/
structure OnlyScope (w : World) (scope : Oid) (s t : Server) : Prop where
  others : ∀ a, a ≠ scope → principalKeyOf w t a = principalKeyOf w s a
  walKeys : scope ≠ globalDataTdeOid → t.walKeys .walKeys = s.walKeys .walKeys
  kms : t.kms = s.kms
  sysOk : s.SysOk → t.SysOk

theorem Loaded.onlyScope (h : Loaded w s t) : OnlyScope w scope s t :=
  ⟨fun a _ => h.principalKeyOf a, fun _ => congrFun h.walKeys _, h.kms, h.sysOk⟩

theorem OnlyScope.trans (h : OnlyScope w scope s t) (h' : OnlyScope w scope t u) :
    OnlyScope w scope s u :=
  ⟨fun a ha => (h'.others a ha).trans (h.others a ha),
    fun hg => (h'.walKeys hg).trans (h.walKeys hg), h'.kms.trans h.kms,
    fun hs => h'.sysOk (h.sysOk hs)⟩

theorem OnlyScope.quiet (h : OnlyScope w scope s t) (hq : Quiet t u) : OnlyScope w scope s u :=
  h.trans hq.loaded.onlyScope

/-- Records, cache entries and the file of the scope itself are what a routine may write. -/
theorem OnlyScope.of_file {f : KeyFilePath → Option KeyFile} {rs : List XLogRecord}
    {cache : Oid → Option TDEPrincipalKey}
    (hf : ∀ a, a ≠ scope → f (.keys a) = s.keyFiles (.keys a)) :
    OnlyScope w scope s { s with keyFiles := f, cache := cache, xlog := rs } :=
  ⟨fun a ha => principalKeyOf_congr (fun _ => rfl) (fun _ => hf a ha) fun _ => rfl, fun _ => rfl,
    rfl, id⟩

theorem OnlyScope.of_walFile {f : WalKeyPath → Option WalKeyFile} {rs : List XLogRecord}
    {cache : Oid → Option TDEPrincipalKey} :
    OnlyScope w globalDataTdeOid s { s with walKeys := f, cache := cache, xlog := rs } :=
  ⟨fun _ ha => principalKeyOf_congr (fun _ => rfl) (fun _ => rfl) fun h => absurd h ha,
    fun h => absurd rfl h, rfl, id⟩

/-! ### The first key of a scope -/

/-- The part of `set_principal_key_with_keyring` and of `GetPrincipalKey` that gives a scope its
first key. -/
theorem firstKey_spec {k : TDEPrincipalKey} (x : Bool) (hs : ScopeOk w s scope)
    (hi : scopeInfo s scope = none) (hk : KeyFor w s.providers scope k) :
    wp (do
        if scope = globalDataTdeOid then saveServerKey w k x else savePrincipalKey w k x
        pushPrincipalKeyToCache k)
      (fun _ t => Steps w x s t ∧ principalKeyOf w t scope = some k ∧ t.cache scope = some k ∧
        OnlyScope w scope s t)
      (fun _ t => Steps w x s t ∧ ¬s.SysOk ∧ OnlyScope w scope s t ∧
        (principalKeyOf w t scope = none ∨ principalKeyOf w t scope = some k)) s := by
  have hc : s.cache scope = none := hs.cache_none hi
  have howner := hk.1
  have hadd : ∀ rs, AddRecords w k rs → ¬s.SysOk → LoggedSteps w s (s.logged rs) := by
    rintro rs (rfl | ⟨info, rfl, hdata, hver⟩) hok
    · rw [logged_nil]
    · exact .single (.brokenAdd hok (hk.2 info hdata hver))
  have hnone : ∀ {u t : Server}, Quiet u t → scopeInfo u scope = none →
      principalKeyOf w t scope = none := by
    intro u t hq hu
    rw [(hq.loaded (w := w)).principalKeyOf, principalKeyOf, hu]
    rfl
  -- the state in which the header is written and the key is in the cache
  have key : ∀ {u v : Server}, Quiet u v → u.cache = s.cache →
      Steps w x s (u.putCache scope (some k)) → principalKeyOf w u scope = some k →
      OnlyScope w scope s (u.putCache scope (some k)) →
      wp (pushPrincipalKeyToCache k)
        (fun _ t => Steps w x s t ∧ principalKeyOf w t scope = some k ∧ t.cache scope = some k ∧
          OnlyScope w scope s t)
        (fun _ t => Steps w x s t ∧ ¬s.SysOk ∧ OnlyScope w scope s t ∧
          (principalKeyOf w t scope = none ∨ principalKeyOf w t scope = some k)) v := by
    intro u v hv hcu hks hpk honly
    have hcv : v.cache k.keyInfo.databaseId = none := by
      obtain ⟨_, _, _, _, rfl⟩ := hv
      rw [howner]
      exact (congrFun hcu scope).trans hc
    refine (pushPrincipalKeyToCache_spec k hcv).mono (fun _ t ht => ?_) fun _ t ht => ?_
    · rw [howner] at ht
      have hq : Quiet (u.putCache scope (some k)) t := (hv.putCache _ _).trans ht
      refine ⟨hks.quiet hq, ?_, ?_, honly.quiet hq⟩
      · rw [(hq.loaded (w := w)).principalKeyOf]
        exact hpk
      · exact hq.loaded (w := w) |>.cache scope k (by simp)
    · rw [howner] at ht
      have hq : Quiet (u.putCache scope (some k)) t := (hv.putCache _ _).trans ht.1
      refine ⟨hks.quiet hq, fun h => ht.2 (hv.sysOk (honly.sysOk h)), honly.quiet hq, .inr ?_⟩
      rw [(hq.loaded (w := w)).principalKeyOf]
      exact hpk
  by_cases hg : scope = globalDataTdeOid
  · subst hg
    rw [if_pos rfl, wp_bind]
    refine (saveServerKey_spec k x).mono (fun _ t ht => ?_) fun _ t ht => ?_
    · obtain ⟨info, hdata, hver, hq⟩ := ht
      have hh := hk.2 info hdata hver
      refine key hq rfl ?_ ?_ .of_walFile
      · cases x with
        | true => exact LoggedSteps.steps (.single (.saveServer hi hh))
        | false =>
            simp only [Bool.false_eq_true, if_false, logged_nil]
            have hstep : LoggedStep w s (((s.putWalKeys .walKeys (some (.current info []))).putCache
              globalDataTdeOid (some k)).logged [.addPrincipalKey info]) := .saveServer hi hh
            exact ⟨.single (.unlogged hstep rfl), fun h => by cases h⟩
      · exact principalKeyOf_of_headerFor (scopeInfo_wal_current (by simp; rfl)) hh
    · obtain ⟨hok, rs, hrs, h | h⟩ := ht
      · have hl : LoggedSteps w s t := .tail (hadd rs hrs hok) (.quiet h)
        exact ⟨hl.steps, hok, .quiet (.of_file fun _ _ => rfl) h, .inl (hnone h hi)⟩
      · have hl : LoggedSteps w s t := .tail (.tail (hadd rs hrs hok)
          (.brokenSaveServer hok hi)) (.quiet h)
        exact ⟨hl.steps, hok, .quiet .of_walFile h, .inl (hnone h (by simp [scopeInfo]; rfl))⟩
  · rw [if_neg hg, wp_bind]
    refine (savePrincipalKey_spec k x).mono (fun _ t ht => ?_) fun _ t ht => ?_
    · obtain ⟨info, hdata, hver, hq⟩ := ht
      rw [howner] at hq
      have hh := hk.2 info hdata hver
      refine key hq rfl ?_ ?_ (.of_file fun a ha => by simp [ha])
      · cases x with
        | true => exact LoggedSteps.steps (.single (.save hg hi hh))
        | false =>
            simp only [Bool.false_eq_true, if_false, logged_nil]
            have hstep : LoggedStep w s (((s.putKeyFile (.keys scope) (some (.current info
              []))).putCache scope (some k)).logged [.addPrincipalKey info]) := .save hg hi hh
            exact ⟨.single (.unlogged hstep rfl), fun h => by cases h⟩
      · exact principalKeyOf_of_headerFor (scopeInfo_current hg (by simp; rfl)) hh
    · rw [howner] at ht
      obtain ⟨hok, rs, hrs, h | h⟩ := ht
      · have hl : LoggedSteps w s t := .tail (hadd rs hrs hok) (.quiet h)
        exact ⟨hl.steps, hok, .quiet (.of_file fun _ _ => rfl) h, .inl (hnone h hi)⟩
      · have hl : LoggedSteps w s t := .tail (.tail (hadd rs hrs hok)
          (.brokenSave hok hg hi)) (.quiet h)
        exact ⟨hl.steps, hok, .quiet (.of_file fun a ha => by simp [ha]) h,
          .inl (hnone h (by simp [scopeInfo, hg]; rfl))⟩

/-! ### Rotation -/

/-- What a rotation makes of a database key file: a header signed by the new key, and the live
entries with the table they had. -/
structure Rewritten (w : World) (pk newPk : TDEPrincipalKey) (entries : List TDEMapEntry)
    (info : TDESignedPrincipalKeyInfo) (new : List TDEMapEntry) : Prop where
  data : info.data = newPk.keyInfo
  verified : verifyPrincipalKeyInfo w info newPk.keyData = true
  live : ∀ e ∈ new, e.type = .key
  table : keyTable w newPk.keyData new = keyTable w pk.keyData entries

structure RewrittenWal (w : World) (pk newPk : TDEPrincipalKey) (entries : List WalKeyFileEntry)
    (info : TDESignedPrincipalKeyInfo) (new : List WalKeyFileEntry) : Prop where
  data : info.data = newPk.keyInfo
  verified : verifyPrincipalKeyInfo w info newPk.keyData = true
  readable : WalReadable w pk.keyData entries
  table : walTable w newPk.keyData new = walTable w pk.keyData entries

/-- The state after a rotation: the file and the cache entry of the scope are new. -/
def Server.rotated (s : Server) (scope : Oid) (newPk : TDEPrincipalKey) (writeXlog : Bool)
    (info : TDESignedPrincipalKeyInfo) (new : List TDEMapEntry) : Server :=
  (((s.logged (if writeXlog then [rotateRecord newPk] else [])).putKeyFile (.keys scope)
    (some (.current info new))).putKeyFile (.keysTmp scope) none).putCache scope (some newPk)

def Server.rotatedWal (s : Server) (newPk : TDEPrincipalKey) (writeXlog : Bool)
    (info : TDESignedPrincipalKeyInfo) (new : List WalKeyFileEntry) : Server :=
  (((s.logged (if writeXlog then [rotateRecord newPk] else [])).putWalKeys .walKeys
    (some (.current info new))).putWalKeys .walKeysTmp none).putCache globalDataTdeOid (some newPk)

section Rotation

variable {pk newPk : TDEPrincipalKey} (x : Bool)

/-- Replacing the cache entry is the last part of a rotation. -/
theorem replaceCache_spec (hpk : pk.keyInfo.databaseId = scope)
    (hnew : newPk.keyInfo.databaseId = scope) (hq : Quiet u s) :
    wp (do clearPrincipalKeyCache pk.keyInfo.databaseId; pushPrincipalKeyToCache newPk)
      (fun _ t => Quiet (u.putCache scope (some newPk)) t)
      (fun _ t => Quiet (u.putCache scope (some newPk)) t ∧ ¬u.SysOk) s := by
  simp only [clearPrincipalKeyCache, wp_bind, wp_modify, hpk]
  have hcache : (s.putCache scope none).cache newPk.keyInfo.databaseId = none := by
    simp [hnew]
  have hput : (s.putCache scope none).putCache scope (some newPk) =
      s.putCache scope (some newPk) := by
    simp [Server.putCache]
  refine (pushPrincipalKeyToCache_spec newPk hcache).mono (fun _ t ht => ?_) fun _ t ht => ?_
  · rw [hnew, hput] at ht
    exact (hq.putCache _ _).trans ht
  · rw [hnew, hput] at ht
    exact ⟨(hq.putCache _ _).trans ht.1, fun h => ht.2 (hq.sysOk h)⟩

/-- The rotation of a file. It needs no more of the old key than that the entries decrypt under
it. -/
theorem rotateFile_spec {entries : List TDEMapEntry} (hg : scope ≠ globalDataTdeOid)
    (hf : ((s.keyFiles (.keys scope)).bind KeyFile.entries).getD [] = entries)
    (hpk : pk.keyInfo.databaseId = scope) (hnew : newPk.keyInfo.databaseId = scope) :
    wp (rotatePrincipalKey w scope pk newPk x)
      (fun _ t => ∃ info' new, Rewritten w pk newPk entries info' new ∧
        Quiet (s.rotated scope newPk x info' new) t)
      (fun _ t => (s.SysOk → (s.keyFiles (.keys scope)).bind KeyFile.entries ≠ none →
          ¬Readable w pk.keyData entries) ∧
        ((∃ f, Quiet (s.putKeyFile (.keysTmp scope) f) t) ∨
          ∃ info' new, Rewritten w pk newPk entries info' new ∧
            Quiet (s.rotated scope newPk x info' new) t)) s := by
  unfold rotatePrincipalKey
  rw [if_neg hg, wp_bind]
  rw [← hpk] at hf
  refine (performRotateKey_spec pk newPk x hf).mono (fun _ t ht => ?_) fun _ t ht => ?_
  · obtain ⟨info', new, hdata, hver, hlive, htable, hq⟩ := ht
    rw [hpk] at hq
    exact (replaceCache_spec hpk hnew hq).mono
      (fun _ v hv => ⟨info', new, ⟨hdata, hver, hlive, htable⟩, hv⟩)
      fun _ v hv => ⟨fun h _ => absurd h hv.2, .inr ⟨info', new, ⟨hdata, hver, hlive, htable⟩, hv.1⟩⟩
  · rw [hpk] at ht
    exact ⟨ht.1, .inl ht.2⟩

theorem rotateWalFile_spec {entries : List WalKeyFileEntry}
    (hf : walEntries s = entries)
    (hpk : pk.keyInfo.databaseId = globalDataTdeOid)
    (hnew : newPk.keyInfo.databaseId = globalDataTdeOid) :
    wp (rotatePrincipalKey w globalDataTdeOid pk newPk x)
      (fun _ t => ∃ info' new, RewrittenWal w pk newPk entries info' new ∧
        Quiet (s.rotatedWal newPk x info' new) t)
      (fun _ t => (s.SysOk → (s.walKeys .walKeys).bind WalKeyFile.entries ≠ none →
          ¬WalReadable w pk.keyData entries) ∧
        ((∃ f, Quiet (s.putWalKeys .walKeysTmp f) t) ∨
          ∃ info' new, RewrittenWal w pk newPk entries info' new ∧
            Quiet (s.rotatedWal newPk x info' new) t)) s := by
  unfold rotatePrincipalKey
  rw [if_pos rfl, wp_bind]
  refine (performRotateServerKey_spec pk newPk x hf).mono (fun _ t ht => ?_) fun _ t ht => ?_
  · obtain ⟨hr, info', new, hdata, hver, htable, hq⟩ := ht
    exact (replaceCache_spec hpk hnew hq).mono
      (fun _ v hv => ⟨info', new, ⟨hdata, hver, hr, htable⟩, hv⟩)
      fun _ v hv => ⟨fun h _ => absurd h hv.2, .inr ⟨info', new, ⟨hdata, hver, hr, htable⟩, hv.1⟩⟩
  · exact ⟨ht.1, .inl ht.2⟩

theorem steps_rotated {info : TDESignedPrincipalKeyInfo} {entries new : List TDEMapEntry}
    {info' : TDESignedPrincipalKeyInfo} (hg : scope ≠ globalDataTdeOid)
    (hf : s.keyFiles (.keys scope) = some (.current info entries))
    (hpk : principalKeyOf w s scope = some pk) (hk : KeyFor w s.providers scope newPk)
    (h : Rewritten w pk newPk entries info' new) :
    Steps w x s (s.rotated scope newPk x info' new) := by
  have hh := hk.2 info' h.data h.verified
  have hstep : LoggedStep w s (s.rotated scope newPk true info' new) :=
    .rotate hg hf hpk hh h.live h.table
  cases x with
  | true => exact ⟨.single (.logged hstep), fun _ => .single hstep⟩
  | false =>
      have hrec : s.rotated scope newPk true info' new =
          (s.rotated scope newPk false info' new).logged [rotateRecord newPk] := by
        simp only [Server.rotated, Bool.false_eq_true, if_true, if_false, logged_nil]
        rfl
      rw [hrec] at hstep
      exact ⟨.single (.unlogged hstep (by simp [Server.rotated])), fun h => by cases h⟩

theorem steps_rotatedWal {info : TDESignedPrincipalKeyInfo} {entries new : List WalKeyFileEntry}
    {info' : TDESignedPrincipalKeyInfo} (hf : s.walKeys .walKeys = some (.current info entries))
    (hpk : principalKeyOf w s globalDataTdeOid = some pk)
    (hk : KeyFor w s.providers globalDataTdeOid newPk)
    (h : RewrittenWal w pk newPk entries info' new) :
    Steps w x s (s.rotatedWal newPk x info' new) := by
  have hh := hk.2 info' h.data h.verified
  have hstep : LoggedStep w s (s.rotatedWal newPk true info' new) :=
    .rotateServer hf hpk h.readable hh h.table
  cases x with
  | true => exact ⟨.single (.logged hstep), fun _ => .single hstep⟩
  | false =>
      have hrec : s.rotatedWal newPk true info' new =
          (s.rotatedWal newPk false info' new).logged [rotateRecord newPk] := by
        simp only [Server.rotatedWal, Bool.false_eq_true, if_true, if_false, logged_nil]
        rfl
      rw [hrec] at hstep
      exact ⟨.single (.unlogged hstep (by simp [Server.rotatedWal])), fun h => by cases h⟩

/-- The entries of the file of WAL keys are readable under the server key. -/
def WalFileReadable (w : World) (s : Server) : Prop :=
  ∀ info entries k, s.walKeys .walKeys = some (.current info entries) →
    principalKeyOf w s globalDataTdeOid = some k → WalReadable w k.keyData entries

theorem WalFileReadable.congr (h : WalFileReadable w s)
    (hk : principalKeyOf w t globalDataTdeOid = principalKeyOf w s globalDataTdeOid)
    (hf : t.walKeys .walKeys = s.walKeys .walKeys) : WalFileReadable w t := by
  intro info entries k hf' hk'
  exact h info entries k (by rw [← hf, hf']) (by rw [← hk, hk'])

theorem Loaded.walFileReadable (h : Loaded w s t) (hs : WalFileReadable w s) :
    WalFileReadable w t :=
  hs.congr (h.principalKeyOf _) (congrFun h.walKeys _)

/-- A rotation that succeeds gives the scope the new key. System calls aside it can only fail on an
unreadable entry of the file of WAL keys. -/
theorem rotatePrincipalKey_spec (hs : ScopeOk w s scope)
    (hpk : principalKeyOf w s scope = some pk) (hk : KeyFor w s.providers scope newPk) :
    wp (rotatePrincipalKey w scope pk newPk x)
      (fun _ t => Steps w x s t ∧ principalKeyOf w t scope = some newPk ∧
        t.cache scope = some newPk ∧ OnlyScope w scope s t ∧
        (scope = globalDataTdeOid → WalFileReadable w s))
      (fun _ t => Steps w x s t ∧ OnlyScope w scope s t ∧
        (principalKeyOf w t scope = some pk ∨ principalKeyOf w t scope = some newPk) ∧
        (s.SysOk → scope = globalDataTdeOid ∧ ¬WalFileReadable w s)) s := by
  have howner : pk.keyInfo.databaseId = scope := hs.owner hpk
  by_cases hg : scope = globalDataTdeOid
  · subst hg
    obtain ⟨info, entries, hf, -⟩ := hs.exists_wal_current hpk
    have hnew : ∀ {info' new}, RewrittenWal w pk newPk entries info' new →
        principalKeyOf w (s.rotatedWal newPk x info' new) globalDataTdeOid = some newPk :=
      fun h => principalKeyOf_of_headerFor (scopeInfo_wal_current (by simp [Server.rotatedWal]; rfl))
        (hk.2 _ h.data h.verified)
    refine (rotateWalFile_spec x (walEntries_of_current hf) howner hk.1).mono (fun _ t ht => ?_) fun _ t ht => ?_
    · obtain ⟨info', new, hr, hq⟩ := ht
      refine ⟨(steps_rotatedWal x hf hpk hk hr).quiet hq, ?_, ?_, .quiet .of_walFile hq,
        fun _ info₀ entries₀ k₀ hf₀ hk₀ => ?_⟩
      · rw [(hq.loaded (w := w)).principalKeyOf, hnew hr]
      · exact (hq.loaded (w := w)).cache _ _ (by simp [Server.rotatedWal])
      · rw [hf] at hf₀
        rw [hpk] at hk₀
        cases hf₀
        cases hk₀
        exact hr.readable
    · obtain ⟨hbad, ht⟩ := ht
      have herr : s.SysOk → globalDataTdeOid = globalDataTdeOid ∧ ¬WalFileReadable w s :=
        fun hok => ⟨rfl, fun h => hbad hok (by simp [hf, WalKeyFile.entries])
          (h info entries pk hf hpk)⟩
      obtain ⟨f, hq⟩ | ⟨info', new, hr, hq⟩ := ht
      · have hkey : principalKeyOf w t globalDataTdeOid = some pk := by
          rw [(hq.loaded (w := w)).principalKeyOf, ← hpk]
          exact principalKeyOf_congr (fun _ => rfl) (fun _ => rfl) fun _ => by simp
        exact ⟨LoggedSteps.steps (.tail (.single (.tmpWal f)) (.quiet hq)), .quiet .of_walFile hq,
          .inl hkey, herr⟩
      · refine ⟨(steps_rotatedWal x hf hpk hk hr).quiet hq, .quiet .of_walFile hq, .inr ?_, herr⟩
        rw [(hq.loaded (w := w)).principalKeyOf, hnew hr]
  · obtain ⟨info, entries, hf, -⟩ := hs.exists_current hg hpk
    have hnew : ∀ {info' new}, Rewritten w pk newPk entries info' new →
        principalKeyOf w (s.rotated scope newPk x info' new) scope = some newPk :=
      fun h => principalKeyOf_of_headerFor (scopeInfo_current hg (by simp [Server.rotated]; rfl))
        (hk.2 _ h.data h.verified)
    have honly : ∀ {info' new}, OnlyScope w scope s (s.rotated scope newPk x info' new) :=
      .of_file fun a ha => by simp [ha]
    refine (rotateFile_spec x hg (entries_of_current hf) howner hk.1).mono (fun _ t ht => ?_)
      fun _ t ht => ?_
    · obtain ⟨info', new, hr, hq⟩ := ht
      refine ⟨(steps_rotated x hg hf hpk hk hr).quiet hq, ?_, ?_, .quiet honly hq,
        fun h => absurd h hg⟩
      · rw [(hq.loaded (w := w)).principalKeyOf, hnew hr]
      · exact (hq.loaded (w := w)).cache _ _ (by simp [Server.rotated])
    · obtain ⟨hbad, ht⟩ := ht
      have herr : s.SysOk → scope = globalDataTdeOid ∧ ¬WalFileReadable w s :=
        fun hok => absurd (hs.readable hg info entries pk hf hpk)
          (hbad hok (by simp [hf, KeyFile.entries]))
      obtain ⟨f, hq⟩ | ⟨info', new, hr, hq⟩ := ht
      · have hkey : principalKeyOf w t scope = some pk := by
          rw [(hq.loaded (w := w)).principalKeyOf, ← hpk]
          exact principalKeyOf_congr (fun _ => rfl) (fun _ => by simp) fun _ => rfl
        exact ⟨LoggedSteps.steps (.tail (.single (.tmp scope f)) (.quiet hq)),
          .quiet (.of_file fun a ha => by simp) hq, .inl hkey, herr⟩
      · refine ⟨(steps_rotated x hg hf hpk hk hr).quiet hq, .quiet honly hq, .inr ?_, herr⟩
        rw [(hq.loaded (w := w)).principalKeyOf, hnew hr]

end Rotation

/-! ### Setting a key -/

/-- Where the key of a scope may come from: a global provider, or for a database also one of its
own. -/
def ProviderScopeOk (providerOid scope : Oid) : Prop :=
  providerOid = globalDataTdeOid ∨
    providerOid = scope ∧ scope ≠ defaultDataTdeOid ∧ scope ≠ globalDataTdeOid

/-- What two principal keys are compared by: the name and the keyring. -/
def TDEPrincipalKey.id (k : TDEPrincipalKey) : List UInt8 × ℤ := (k.keyInfo.name, k.keyInfo.keyringId)

/-- What the principal key of a scope is compared by. -/
def keyId (w : World) (s : Server) (scope : Oid) : Option (List UInt8 × ℤ) :=
  (principalKeyOf w s scope).map TDEPrincipalKey.id

theorem isSamePrincipalKey_iff {a b : TDEPrincipalKey} :
    isSamePrincipalKey (some a) (some b) = true ↔ b.id = a.id := by
  simp only [isSamePrincipalKey, TDEPrincipalKey.id, Bool.and_eq_true, decide_eq_true_eq,
    Prod.mk.injEq]
  exact ⟨fun h => ⟨h.1.symm, h.2.symm⟩, fun h => ⟨h.1.symm, h.2.symm⟩⟩

theorem keyId_eq_some {scope : Oid} {x : List UInt8 × ℤ} :
    keyId w s scope = some x ↔ ∃ k, principalKeyOf w s scope = some k ∧ k.id = x :=
  Option.map_eq_some_iff

theorem keyId_congr {scope : Oid} (h : principalKeyOf w t scope = principalKeyOf w s scope) :
    keyId w t scope = keyId w s scope := by
  rw [keyId, keyId, h]

/-- The key that the provider keeps under the name, by the name that it has there. -/
def keyAt (w : World) (s : Server) (providerOid : Oid) (providerName keyName : List UInt8) :
    Option (List UInt8 × ℤ) :=
  match getKeyProviderByName s.providers providerName providerOid with
  | none => none
  | some r => ((w.vault r keyName).filter fun k => validateKey k).map fun k => (k.name, r.providerId)

theorem keyAt_congr {providerOid : Oid} {providerName keyName : List UInt8}
    (h : t.providers = s.providers) :
    keyAt w t providerOid providerName keyName = keyAt w s providerOid providerName keyName := by
  rw [keyAt, keyAt, h]

/-- What a keyring answers, if it answers. -/
theorem keyringGetKey_of_answer (w : World) (r : KeyringProviderRecord) (keyName : List UInt8)
    (hkms : s.KeyringsAnswer) : (∃ k, keyringGetKey w s.kms r keyName = .ok (some k)) ↔
      ((w.vault r keyName).filter fun k => validateKey k) ≠ none := by
  simp only [keyringGetKey, hkms r keyName]
  cases w.vault r keyName with
  | none => simp
  | some k => cases hk : validateKey k <;> simp [hk]

/-- Setting the key of a scope gives it the key that the provider keeps under the name, and changes
the key of no other scope. If it fails, the scope may or may not have it. -/
theorem setPrincipalKeyWithKeyring_spec {providerOid : Oid} (hs : Consistent w s)
    (hscope : ProviderScopeOk providerOid scope) (keyName providerName : List UInt8) :
    wp (setPrincipalKeyWithKeyring w keyName providerName providerOid scope)
      (fun _ t => LoggedSteps w s t ∧ OnlyScope w scope s t ∧
        ∃ k, principalKeyOf w t scope = some k ∧ t.cache scope = some k ∧
          keyAt w s providerOid providerName keyName = some k.id)
      (fun _ t => LoggedSteps w s t ∧ OnlyScope w scope s t ∧
        (principalKeyOf w t scope = principalKeyOf w s scope ∨
          ∃ k, principalKeyOf w t scope = some k ∧
            keyAt w s providerOid providerName keyName = some k.id) ∧
        (s.SysOk → s.KeyringsAnswer → keyAt w s providerOid providerName keyName ≠ none →
          scope = globalDataTdeOid ∧ ¬WalFileReadable w s)) s := by
  refine (wp_bind ..).2 ((getPrincipalKeyNoDefault_spec (hs.scopes scope)).mono (fun curr t ht => ?_)
    fun _ t h => ⟨h.1.steps, h.1.onlyScope, .inl (h.1.principalKeyOf scope), fun hok hkms =>
      absurd ((hs.scopes scope).reachable hkms) (h.2 hok).2⟩)
  obtain ⟨hl, rfl, -⟩ := ht
  have ht : Consistent w t := hl.consistent hs
  -- nothing is written where the key cannot be had
  have hfail : ((s.SysOk → s.KeyringsAnswer →
      keyAt w s providerOid providerName keyName = none) →
      LoggedSteps w s t ∧ OnlyScope w scope s t ∧
        (principalKeyOf w t scope = principalKeyOf w s scope ∨
          ∃ k, principalKeyOf w t scope = some k ∧
            keyAt w s providerOid providerName keyName = some k.id) ∧
        (s.SysOk → s.KeyringsAnswer → keyAt w s providerOid providerName keyName ≠ none →
          scope = globalDataTdeOid ∧ ¬WalFileReadable w s)) := fun hno =>
    ⟨hl.steps, hl.onlyScope, .inl (hl.principalKeyOf scope), fun hok hkms hkey =>
      absurd (hno hok hkms) hkey⟩
  rw [← keyAt_congr hl.providers] at hfail ⊢
  simp only [wp_bind, wp_get]
  cases hr : getKeyProviderByName t.providers providerName providerOid with
  | none =>
      refine hfail fun _ _ => ?_
      rw [keyAt, hr]
  | some keyring =>
      dsimp only
      have hnone : (∀ k, keyringGetKey w t.kms keyring keyName ≠ .ok (some k)) →
          s.SysOk → s.KeyringsAnswer → keyAt w t providerOid providerName keyName = none := by
        intro hno _ hkms
        have := mt (keyringGetKey_of_answer w keyring keyName
          (hkms.congr hl.kms)).2
          fun h => h.elim hno
        rw [keyAt, hr]
        simpa using this
      cases hk : keyringGetKey w t.kms keyring keyName with
      | error code => exact hfail (hnone (by simp [hk]))
      | ok key =>
          cases key with
          | none => exact hfail (hnone (by simp [hk]))
          | some k =>
              simp only [newPrincipalKey, wp_bind, wp_pure]
              refine getTimeOfDay_spec.mono (fun now u hu => ?_) fun _ _ h => h.elim
              have hlu : Loaded w s u := hl.trans hu.loaded
              have hcu : Consistent w u := hlu.consistent hs
              have hp : u.providers = t.providers := hu.providers
              have hfor : KeyFor w u.providers scope
                  ⟨⟨scope, keyring.providerId, now, k.name⟩, k.data⟩ := by
                rw [hp]
                exact keyFor_of_provider ht.providers hscope hr hk
              have hid : keyAt w t providerOid providerName keyName =
                  some (k.name, keyring.providerId) := by
                obtain ⟨hvault, hvalid⟩ := keyringGetKey_eq_some hk
                rw [keyAt, hr]
                simp [hvault, hvalid, Option.filter]
              rw [← hlu.principalKeyOf scope]
              cases hc : principalKeyOf w u scope with
              | none =>
                  have hi := (hcu.scopes scope).principalKeyOf_none.1 hc
                  refine (firstKey_spec true (hcu.scopes scope) hi hfor).mono (fun _ v hv => ?_)
                    fun _ v hv => ?_
                  · exact ⟨Relation.ReflTransGen.trans hlu.steps (hv.1.2 rfl),
                      hlu.onlyScope.trans hv.2.2.2, _, hv.2.1, hv.2.2.1, hid⟩
                  · refine ⟨Relation.ReflTransGen.trans hlu.steps (hv.1.2 rfl),
                      hlu.onlyScope.trans hv.2.2.1, ?_, fun hok => absurd (hlu.sysOk hok) hv.2.1⟩
                    exact hv.2.2.2.imp id fun h =>
                      ⟨⟨⟨scope, keyring.providerId, now, k.name⟩, k.data⟩, h, hid⟩
              | some curr =>
                  refine (rotatePrincipalKey_spec true (hcu.scopes scope) hc hfor).mono
                    (fun _ v hv => ?_) fun _ v hv => ?_
                  · exact ⟨Relation.ReflTransGen.trans hlu.steps (hv.1.2 rfl),
                      hlu.onlyScope.trans hv.2.2.2.1, _, hv.2.1, hv.2.2.1, hid⟩
                  · refine ⟨Relation.ReflTransGen.trans hlu.steps (hv.1.2 rfl),
                      hlu.onlyScope.trans hv.2.1, ?_, fun hok _ _ => ?_⟩
                    · exact hv.2.2.1.imp id fun h =>
                        ⟨⟨⟨scope, keyring.providerId, now, k.name⟩, k.data⟩, h, hid⟩
                    · obtain ⟨rfl, hno⟩ := hv.2.2.2 (hlu.sysOk hok)
                      exact ⟨rfl, fun h => hno (hlu.walFileReadable h)⟩

/-- The default key is what it was, and scopes that used the key `oldId` may have gone over to
`newId`; no other scope has another key. -/
structure Carried (w : World) (oldId newId : List UInt8 × ℤ) (s t : Server) : Prop where
  steps : LoggedSteps w s t
  default : principalKeyOf w t defaultDataTdeOid = principalKeyOf w s defaultDataTdeOid
  carried : ∀ a, a ≠ defaultDataTdeOid → principalKeyOf w t a = principalKeyOf w s a ∨
    keyId w s a = some oldId ∧ keyId w t a = some newId
  kms : t.kms = s.kms
  sysOk : s.SysOk → t.SysOk

theorem Loaded.carried {oldId newId : List UInt8 × ℤ} (h : Loaded w s t) :
    Carried w oldId newId s t :=
  ⟨h.steps, h.principalKeyOf _, fun a _ => .inl (h.principalKeyOf a), h.kms, h.sysOk⟩

theorem Carried.trans {oldId newId : List UInt8 × ℤ} (h : Carried w oldId newId s t)
    (h' : Carried w oldId newId t u) : Carried w oldId newId s u := by
  refine ⟨Relation.ReflTransGen.trans h.steps h'.steps, h'.default.trans h.default, fun a ha => ?_,
    h'.kms.trans h.kms, fun hs => h'.sysOk (h.sysOk hs)⟩
  obtain hk | ⟨hold, hnew⟩ := h.carried a ha
  · obtain hk' | ⟨hold', hnew'⟩ := h'.carried a ha
    · exact .inl (hk'.trans hk)
    · exact .inr ⟨by rw [← keyId_congr hk, hold'], hnew'⟩
  · obtain hk' | ⟨-, hnew'⟩ := h'.carried a ha
    · exact .inr ⟨hold, by rw [keyId_congr hk', hnew]⟩
    · exact .inr ⟨hold, hnew'⟩

theorem Carried.of_onlyScope {oldId newId : List UInt8 × ℤ} (hl : LoggedSteps w s t)
    (h : OnlyScope w scope s t) (hscope : scope ≠ defaultDataTdeOid)
    (hkey : principalKeyOf w t scope = principalKeyOf w s scope ∨
      keyId w s scope = some oldId ∧ keyId w t scope = some newId) :
    Carried w oldId newId s t := by
  refine ⟨hl, h.others _ hscope.symm, fun a _ => ?_, h.kms, h.sysOk⟩
  by_cases ha : a = scope
  · rw [ha]
    exact hkey
  · exact .inl (h.others a ha)

/-- A scope that has gone over stays. -/
theorem Carried.keyId_eq {oldId newId : List UInt8 × ℤ} (h : Carried w oldId newId s t)
    (hscope : scope ≠ defaultDataTdeOid) (hk : keyId w s scope = some newId) :
    keyId w t scope = some newId := by
  obtain hk' | ⟨-, hnew⟩ := h.carried scope hscope
  · rw [keyId_congr hk', hk]
  · exact hnew

/-- A scope that uses the old default key is rotated to the new one; the default key itself is not
touched by that. -/
theorem updateDefaultPrincipalKey_spec {oldKey newKey : TDEPrincipalKey} (hs : Consistent w s)
    (hnew : principalKeyOf w s defaultDataTdeOid = some newKey)
    (hscope : scope ≠ defaultDataTdeOid) :
    wp (updateDefaultPrincipalKey w oldKey newKey scope)
      (fun _ t => Carried w oldKey.id newKey.id s t ∧
        (keyId w s scope = some oldKey.id → keyId w t scope = some newKey.id ∧
          (scope = globalDataTdeOid → WalFileReadable w s)))
      (fun _ t => Carried w oldKey.id newKey.id s t ∧ (s.SysOk → s.KeyringsAnswer →
        scope = globalDataTdeOid ∧ keyId w s scope = some oldKey.id ∧ ¬WalFileReadable w s)) s := by
  refine (wp_bind ..).2 ((getPrincipalKeyNoDefault_spec (hs.scopes scope)).mono (fun r t ht => ?_)
    fun _ t h => ⟨h.1.carried, fun hok hkms =>
      absurd ((hs.scopes scope).reachable hkms) (h.2 hok).2⟩)
  obtain ⟨hl, rfl, -⟩ := ht
  have hnew' : principalKeyOf w t defaultDataTdeOid = some newKey := by
    rw [hl.principalKeyOf, hnew]
  have hct := hl.consistent hs
  cases hk : principalKeyOf w s scope with
  | none =>
      refine ⟨hl.carried, fun h => ?_⟩
      rw [keyId, hk] at h
      cases h
  | some k =>
      have hkt : principalKeyOf w t scope = some k := by rw [hl.principalKeyOf, hk]
      have howner : k.keyInfo.databaseId = scope := (hs.scopes scope).owner hk
      have hid : keyId w s scope = some k.id := by rw [keyId, hk, Option.map_some]
      simp only [wp_ite, wp_pure, isSamePrincipalKey_iff]
      refine ⟨fun hsame => ?_, fun hdiff => ⟨hl.carried, fun h => ?_⟩⟩
      · rw [hsame] at hid
        unfold rotateDefaultKeyForDatabase
        rw [howner]
        refine (rotatePrincipalKey_spec true (hct.scopes scope) hkt
          (keyFor_of_default (hct.scopes _) hnew' scope)).mono (fun _ u hu => ?_) fun _ u hu => ?_
        · have hidu : keyId w u scope = some newKey.id := by
            rw [keyId, hu.2.1]
            rfl
          refine ⟨hl.carried.trans (.of_onlyScope (hu.1.2 rfl) hu.2.2.2.1 hscope
            (.inr ⟨by rw [keyId_congr (hl.principalKeyOf scope), hid], hidu⟩)), fun _ => ⟨hidu,
            fun hg => ?_⟩⟩
          exact (hu.2.2.2.2 hg).congr (hl.principalKeyOf _).symm (congrFun hl.walKeys _).symm
        · refine ⟨hl.carried.trans (.of_onlyScope (hu.1.2 rfl) hu.2.1 hscope ?_), fun hok _ => ?_⟩
          · obtain hold | hnew := hu.2.2.1
            · exact .inl (by rw [hold, hkt])
            · refine .inr ⟨by rw [keyId_congr (hl.principalKeyOf scope), hid], ?_⟩
              rw [keyId, hnew]
              rfl
          · obtain ⟨hg, hno⟩ := hu.2.2.2 (hl.sysOk hok)
            exact ⟨hg, hid, fun h => hno (hl.walFileReadable h)⟩
      · rw [hid, Option.some.injEq] at h
        exact absurd h hdiff

/-- The scopes that `open_pg_tde_update_default_principal_key_everywhere` goes through. -/
def defaultScopes (s : Server) : List Oid := globalDataTdeOid :: s.databases.map (·.oid)

/-- All of them go over. -/
theorem updateDefaultPrincipalKeyEverywhere_spec {oldKey newKey : TDEPrincipalKey}
    (hs : Consistent w s) (hnew : principalKeyOf w s defaultDataTdeOid = some newKey) :
    wp (updateDefaultPrincipalKeyEverywhere w oldKey newKey)
      (fun _ t => Carried w oldKey.id newKey.id s t ∧ (∀ a ∈ defaultScopes s,
        keyId w s a = some oldKey.id → keyId w t a = some newKey.id) ∧
        (keyId w s globalDataTdeOid = some oldKey.id → WalFileReadable w s))
      (fun _ t => Carried w oldKey.id newKey.id s t ∧ (s.SysOk → s.KeyringsAnswer →
        keyId w s globalDataTdeOid = some oldKey.id ∧ ¬WalFileReadable w s)) s := by
  refine (wp_bind ..).2 ((updateDefaultPrincipalKey_spec hs hnew (by decide)).mono
    (fun _ t ht => ?_) fun _ t h => ⟨h.1, fun hok hkms => (h.2 hok hkms).2⟩)
  simp only [wp_bind, wp_get]
  have hdbs : t.databases = s.databases := ht.1.steps.keySteps.databases
  -- the databases that are done have gone over, and those that are left are as they were or have
  have hloop : ∀ (dbs : List DatabaseId) (u : Server), Carried w oldKey.id newKey.id s u →
      wp (forM dbs fun db => updateDefaultPrincipalKey w oldKey newKey db.oid)
        (fun _ v => Carried w oldKey.id newKey.id s v ∧ Carried w oldKey.id newKey.id u v ∧
          ∀ db ∈ dbs, keyId w s db.oid = some oldKey.id → keyId w v db.oid = some newKey.id)
        (fun _ v => Carried w oldKey.id newKey.id s v ∧ ¬(s.SysOk ∧ s.KeyringsAnswer)) u := by
    intro dbs
    induction dbs with
    | nil => exact fun u hu => ⟨hu, (Loaded.refl u).carried, by simp⟩
    | cons db dbs ih =>
        intro u hu
        have hcu : Consistent w u := hu.steps.keySteps.consistent hs
        have hnewu : principalKeyOf w u defaultDataTdeOid = some newKey := by
          rw [hu.default, hnew]
        refine (wp_bind ..).2 ((updateDefaultPrincipalKey_spec hcu hnewu db.ne_default).mono
          (fun _ v hv => ?_) fun _ v hv => ⟨hu.trans hv.1, fun h => ?_⟩)
        · refine (ih v (hu.trans hv.1)).mono (fun _ x hx => ⟨hx.1, hv.1.trans hx.2.1, fun db' hdb' h =>
            ?_⟩) fun _ _ hx => hx
          obtain rfl | hdb' := List.mem_cons.1 hdb'
          · refine hx.2.1.keyId_eq db'.ne_default ?_
            obtain hk | ⟨-, hk⟩ := hu.carried db'.oid db'.ne_default
            · exact (hv.2 (by rw [keyId_congr hk, h])).1
            · exact hv.1.keyId_eq db'.ne_default hk
          · exact hx.2.2 db' hdb' h
        · exact db.ne_global (hv.2 (hu.sysOk h.1) (h.2.congr hu.kms)).1
  rw [hdbs]
  refine (hloop s.databases t ht.1).mono (fun _ v hv => ⟨hv.1, fun a ha h => ?_,
    fun h => (ht.2 h).2 rfl⟩) fun _ v hv => ⟨hv.1, fun hok hkms => absurd ⟨hok, hkms⟩ hv.2⟩
  obtain rfl | ha := List.mem_cons.1 ha
  · exact hv.2.1.keyId_eq (by decide) (ht.2 h).1
  · obtain ⟨db, hdb, rfl⟩ := List.mem_map.1 ha
    exact hv.2.2 db hdb h

/-- Setting the key of a scope and, for the default scope, carrying it to the scopes that used the
old one. -/
theorem setAndUpdate_spec {providerOid : Oid} (hs : Consistent w s)
    (hscope : ProviderScopeOk providerOid scope) (keyName providerName : List UInt8)
    {existing : Option TDEPrincipalKey} (hd : existing ≠ none → scope = defaultDataTdeOid) :
    wp (do
        setPrincipalKeyWithKeyring w keyName providerName providerOid scope
        match existing with
        | none => pure ()
        | some oldKey =>
          match ← getPrincipalKeyNoDefault w scope with
          | none => pure ()
          | some newKey => updateDefaultPrincipalKeyEverywhere w oldKey newKey)
      (fun _ t => LoggedSteps w s t) (fun _ t => LoggedSteps w s t) s := by
  refine (wp_bind ..).2 ((setPrincipalKeyWithKeyring_spec hs hscope keyName providerName).mono
    (fun _ u hu => ?_) fun _ u hu => hu.1)
  have hcu := hu.1.keySteps.consistent hs
  cases existing with
  | none => exact hu.1
  | some oldKey =>
      obtain rfl := hd (by simp)
      simp only [wp_bind]
      refine (getPrincipalKeyNoDefault_spec (hcu.scopes _)).mono (fun r v hv => ?_)
        fun _ v hv => Relation.ReflTransGen.trans hu.1 hv.1.steps
      obtain ⟨hlv, rfl, -⟩ := hv
      have hsv : LoggedSteps w s v := Relation.ReflTransGen.trans hu.1 hlv.steps
      obtain ⟨k, hk, -⟩ := hu.2.2
      rw [hk]
      have hkv : principalKeyOf w v defaultDataTdeOid = some k := by
        rw [hlv.principalKeyOf, hk]
      exact (updateDefaultPrincipalKeyEverywhere_spec (hlv.consistent hcu) hkv).mono
        (fun _ x hx => Relation.ReflTransGen.trans hsv hx.1.steps)
        fun _ x hx => Relation.ReflTransGen.trans hsv hx.1.steps

theorem setPrincipalKeyInternal_spec {providerOid : Oid} (hs : Consistent w s)
    (hscope : ProviderScopeOk providerOid scope) (c : SetKeyCall) :
    wp (setPrincipalKeyInternal w providerOid scope c) (fun _ t => LoggedSteps w s t)
      (fun _ t => LoggedSteps w s t) s := by
  unfold setPrincipalKeyInternal
  cases checkSetKeyCall providerOid c with
  | error e => exact .refl
  | ok names =>
      obtain ⟨keyName, providerName⟩ := names
      dsimp only
      refine (wp_ite ..).2 ⟨fun hd => ?_, fun _ => ?_⟩
      · -- looking up the key that is there already only loads it
        refine (wp_bind ..).2 ((getPrincipalKeyNoDefault_spec (hs.scopes scope)).mono
          (fun existing t ht => ?_) fun _ t h => h.1.steps)
        exact (setAndUpdate_spec (ht.1.consistent hs) hscope keyName providerName
          fun _ => hd).mono (fun _ u hu => Relation.ReflTransGen.trans ht.1.steps hu)
          fun _ u hu => Relation.ReflTransGen.trans ht.1.steps hu
      · exact setAndUpdate_spec hs hscope keyName providerName fun h => absurd rfl h

theorem setDefaultKeyUsingGlobalKeyProvider_spec (hs : Consistent w s) (c : SetKeyCall) :
    wp (setDefaultKeyUsingGlobalKeyProvider w c) (fun _ t => LoggedSteps w s t)
      (fun _ t => LoggedSteps w s t) s := by
  refine (wp_bind ..).2 ((setPrincipalKeyInternal_spec hs (.inl rfl) c).mono (fun _ t ht => ?_)
    fun _ _ h => h)
  have hct := ht.keySteps.consistent hs
  refine (wp_bind ..).2 ((getPrincipalKeyNoDefault_spec (hct.scopes _)).mono (fun r u hu => ?_)
    fun _ u hu => Relation.ReflTransGen.trans ht hu.1.steps)
  have hsu : LoggedSteps w s u := Relation.ReflTransGen.trans ht hu.1.steps
  cases r with
  | some k => exact hsu
  | none =>
      exact (setPrincipalKeyInternal_spec (hu.1.consistent hct) (.inl rfl) c).mono
        (fun _ v hv => Relation.ReflTransGen.trans hsu hv)
        fun _ v hv => Relation.ReflTransGen.trans hsu hv

/-! ### Deleting a key -/

/-- The file of the scope has a header and no live entries. -/
def Deletable (s : Server) (scope : Oid) : Prop :=
  ∃ info entries, s.keyFiles (.keys scope) = some (.current info entries) ∧
    ∀ e ∈ entries, e.type ≠ .key

theorem Deletable.congr (h : Deletable s scope)
    (hk : t.keyFiles (.keys scope) = s.keyFiles (.keys scope)) : Deletable t scope := by
  obtain ⟨info, entries, hf, hno⟩ := h
  exact ⟨info, entries, by rw [hk, hf], hno⟩

/-- The scopes of the list have lost their keys; no other scope has another key. -/
structure Dropped (w : World) (scopes : List Oid) (s t : Server) : Prop where
  lost : ∀ a ∈ scopes, principalKeyOf w t a = none
  others : ∀ a, a ∉ scopes → principalKeyOf w t a = principalKeyOf w s a

theorem Loaded.dropped (h : Loaded w s t) : Dropped w [] s t :=
  ⟨fun _ ha => absurd ha List.not_mem_nil, fun a _ => h.principalKeyOf a⟩

theorem Quiet.dropped {rs : List XLogRecord} (h : Quiet (s.logged rs) t) : Dropped w [] s t := by
  refine ⟨fun _ ha => absurd ha List.not_mem_nil, fun a _ => ?_⟩
  rw [(h.loaded (w := w)).principalKeyOf]
  exact principalKeyOf_congr (fun _ => rfl) (fun _ => rfl) fun _ => rfl

theorem Dropped.trans {l l' : List Oid} (h : Dropped w l s t) (h' : Dropped w l' t u) :
    Dropped w (l ++ l') s u := by
  refine ⟨fun a ha => ?_, fun a ha => ?_⟩
  · by_cases hl' : a ∈ l'
    · exact h'.lost a hl'
    · rw [h'.others a hl']
      exact h.lost a ((List.mem_append.1 ha).resolve_right hl')
  · rw [List.mem_append, not_or] at ha
    rw [h'.others a ha.2, h.others a ha.1]

theorem deleteAndClear_spec (hg : scope ≠ globalDataTdeOid) (hd : Deletable s scope) :
    wp (do deletePrincipalKey scope; clearPrincipalKeyCache scope)
      (fun _ t => LoggedSteps w s t ∧ Dropped w [scope] s t ∧
        ∀ a, a ≠ scope → t.keyFiles (.keys a) = s.keyFiles (.keys a))
      (fun _ t => LoggedSteps w s t ∧ Dropped w [] s t) s := by
  obtain ⟨info, entries, hf, hno⟩ := hd
  refine (wp_bind ..).2 (deletePrincipalKey_spec.mono (fun _ t ht => ?_) fun _ t ht => ?_)
  · have hq := ht.1.putCache scope none
    have hstep : LoggedStep w s (((s.logged [.deletePrincipalKey scope]).putKeyFile (.keys scope)
        none).putCache scope none) := .delete hg hf hno
    refine ⟨.tail (.single hstep) (.quiet hq), ⟨fun a ha => ?_, fun a ha => ?_⟩, fun a ha => ?_⟩
    · obtain rfl := List.mem_singleton.1 ha
      rw [(hq.loaded (w := w)).principalKeyOf]
      simp [principalKeyOf, scopeInfo, hg]
    · rw [List.mem_singleton] at ha
      rw [(hq.loaded (w := w)).principalKeyOf]
      exact principalKeyOf_congr (fun _ => rfl) (fun _ => by simp [ha]) fun _ => rfl
    · rw [hq.keyFiles]
      simp [ha]
  · have hbad : ¬s.SysOk := fun hs => by
      have := ht.2 hs
      rw [hf] at this; cases this
    exact ⟨.tail (.single (.brokenDelete _ hbad)) (.quiet ht.1), ht.1.dropped⟩

/-- The count that guards a deletion. -/
theorem deletable_of_count {k : TDEPrincipalKey} (hs : ScopeOk w s scope)
    (hg : scope ≠ globalDataTdeOid) (hk : principalKeyOf w s scope = some k)
    (hn : (((s.keyFiles (.keys scope)).bind KeyFile.entries).getD []).countP
      (fun e : TDEMapEntry => e.type = .key && ((0 : Oid) = 0 || e.spcOid = 0)) = 0) :
    Deletable s scope := by
  obtain ⟨info, entries, hf, -⟩ := hs.exists_current hg hk
  rw [hf] at hn
  simp only [Option.bind_some, KeyFile.entries, Option.getD_some, List.countP_eq_zero] at hn
  exact ⟨info, entries, hf, fun e he ht => hn e he (by simp [ht])⟩

theorem Deletable.relationTable (h : Deletable s scope) : relationTable w s scope = [] := by
  obtain ⟨info, entries, hf, hno⟩ := h
  unfold OpenPgTde.relationTable
  rw [hf]
  cases principalKeyOf w s scope with
  | none => rfl
  | some k => exact keyTable_eq_nil.2 hno

/-- The key of the scope is what it was, or it is now the default key. -/
def KeptOrDefault (w : World) (scope : Oid) (s t : Server) : Prop :=
  keyId w t scope = keyId w s scope ∨
    ∃ x, keyId w s defaultDataTdeOid = some x ∧ keyId w t scope = some x

theorem Loaded.keptOrDefault (h : Loaded w s t) : KeptOrDefault w scope s t :=
  .inl (keyId_congr (h.principalKeyOf scope))

/-- A database that has relation keys does not lose its key by a deletion: it goes over to the
default key. -/
theorem deleteKey_spec (hs : Consistent w s) (db : DatabaseId) :
    wp (deleteKey w db)
      (fun _ t => LoggedSteps w s t ∧
        (∀ a, a ≠ db.oid → principalKeyOf w t a = principalKeyOf w s a) ∧
        (relationTable w s db.oid ≠ [] → KeptOrDefault w db.oid s t))
      (fun _ t => LoggedSteps w s t ∧
        (∀ a, a ≠ db.oid → principalKeyOf w t a = principalKeyOf w s a) ∧
        (relationTable w s db.oid ≠ [] → KeptOrDefault w db.oid s t)) s := by
  have hloaded : ∀ {t}, Loaded w s t → LoggedSteps w s t ∧
      (∀ a, a ≠ db.oid → principalKeyOf w t a = principalKeyOf w s a) ∧
      (relationTable w s db.oid ≠ [] → KeptOrDefault w db.oid s t) := fun h =>
    ⟨h.steps, fun a _ => h.principalKeyOf a, fun _ => h.keptOrDefault⟩
  refine (wp_bind ..).2 ((getPrincipalKeyNoDefault_spec (hs.scopes db.oid)).mono (fun r t ht => ?_)
    fun _ t h => hloaded h.1)
  obtain ⟨hl, rfl, -⟩ := ht
  have hct := hl.consistent hs
  cases hk : principalKeyOf w s db.oid with
  | none => exact hloaded hl
  | some k =>
      have hkt : principalKeyOf w t db.oid = some k := by rw [hl.principalKeyOf, hk]
      refine (wp_bind ..).2 ((countEncryptionKeys_spec 0
        ((hct.scopes db.oid).format db.ne_global)).mono (fun n u hu => ?_)
        fun _ u hu => hloaded (hl.trans hu.1.loaded))
      obtain ⟨hq, hn⟩ := hu
      have hlu : Loaded w s u := hl.trans hq.loaded
      have hcu := hlu.consistent hs
      have hku : principalKeyOf w u db.oid = some k := by rw [hlu.principalKeyOf, hk]
      simp only [wp_ite]
      refine ⟨fun hne => ?_, fun hzero => ?_⟩
      · -- with relation keys in the file the database goes over to the default key
        rw [wp_bind]
        refine (getPrincipalKeyNoDefault_spec (hcu.scopes defaultDataTdeOid)).mono
          (fun r v hv => ?_) fun _ v hv => hloaded (hlu.trans hv.1)
        obtain ⟨hlv, rfl, -⟩ := hv
        have hsv : Loaded w s v := hlu.trans hlv
        have hcv := hsv.consistent hs
        cases hd : principalKeyOf w u defaultDataTdeOid with
        | none => exact hloaded hsv
        | some defaultKey =>
            have hdv : principalKeyOf w v defaultDataTdeOid = some defaultKey := by
              rw [hlv.principalKeyOf, hd]
            have hds : keyId w s defaultDataTdeOid = some defaultKey.id := by
              rw [keyId, ← hlu.principalKeyOf, hd, Option.map_some]
            have hkv : principalKeyOf w v db.oid = some k := by rw [hlv.principalKeyOf, hku]
            have howner := (hcv.scopes db.oid).owner hkv
            have hnew : ∀ {x}, principalKeyOf w x db.oid = some { defaultKey with keyInfo :=
                { defaultKey.keyInfo with databaseId := db.oid } } →
                KeptOrDefault w db.oid s x := fun h =>
              .inr ⟨defaultKey.id, hds, by rw [keyId, h]; rfl⟩
            simp only [wp_ite, wp_throw]
            refine ⟨fun _ => hloaded hsv, fun _ => ?_⟩
            unfold rotateDefaultKeyForDatabase
            rw [howner]
            refine (rotatePrincipalKey_spec true (hcv.scopes db.oid) hkv
              (keyFor_of_default (hcv.scopes _) hdv db.oid)).mono
              (fun _ x hx => ⟨Relation.ReflTransGen.trans hsv.steps (hx.1.2 rfl),
                (hsv.onlyScope.trans hx.2.2.2.1).others, fun _ => hnew hx.2.1⟩)
              fun _ x hx => ⟨Relation.ReflTransGen.trans hsv.steps (hx.1.2 rfl),
                (hsv.onlyScope.trans hx.2.1).others, fun _ => ?_⟩
            obtain hold | hx := hx.2.2.1
            · exact .inl (keyId_congr (by rw [hold, hk]))
            · exact hnew hx
      · have hd : Deletable u db.oid := by
          refine Deletable.congr ?_ (congrFun hq.keyFiles _)
          exact deletable_of_count (hct.scopes db.oid) db.ne_global hkt (by
            rw [← hn]; simpa using hzero)
        have hempty : relationTable w s db.oid = [] :=
          (hd.congr (congrFun hlu.keyFiles _).symm).relationTable
        exact (deleteAndClear_spec db.ne_global hd).mono
          (fun _ x hx => ⟨Relation.ReflTransGen.trans hlu.steps hx.1, fun a ha =>
            (hlu.dropped.trans hx.2.1).others a (by simpa using ha), fun h => absurd hempty h⟩)
          fun _ x hx => ⟨Relation.ReflTransGen.trans hlu.steps hx.1, fun a _ =>
            (hlu.dropped.trans hx.2).others a (by simp), fun h => absurd hempty h⟩

/-- The scan only loads keys, and every database it lists can be deleted; these are the databases
that use the key. -/
theorem databasesUsingDefaultKey_spec (hs : Consistent w s) (defaultKey : TDEPrincipalKey)
    (dbs : List DatabaseId) :
    wp (databasesUsingDefaultKey w defaultKey dbs)
      (fun r t => Loaded w s t ∧ r.Sublist dbs ∧ (∀ db ∈ r, Deletable t db.oid) ∧ (∀ db ∈ dbs,
        isSamePrincipalKey (some defaultKey) (principalKeyOf w s db.oid) = true → db ∈ r) ∧
        ∀ db ∈ r, isSamePrincipalKey (some defaultKey) (principalKeyOf w s db.oid) = true)
      (fun _ t => Loaded w s t) s := by
  induction dbs generalizing s with
  | nil => exact ⟨Loaded.refl s, .refl _, by simp, by simp, by simp⟩
  | cons db dbs ih =>
      refine (wp_bind ..).2 ((getPrincipalKeyNoDefault_spec (hs.scopes db.oid)).mono
        (fun r t ht => ?_) fun _ t h => h.1)
      obtain ⟨hl, rfl, -⟩ := ht
      have hct := hl.consistent hs
      simp only [wp_ite]
      refine ⟨fun hsame => ?_, fun hdiff => ?_⟩
      · obtain ⟨k, hk⟩ : ∃ k, principalKeyOf w s db.oid = some k := by
          cases hk : principalKeyOf w s db.oid with
          | none => rw [hk] at hsame; cases hsame
          | some k => exact ⟨k, rfl⟩
        have hkt : principalKeyOf w t db.oid = some k := by rw [hl.principalKeyOf, hk]
        refine (wp_bind ..).2 ((countEncryptionKeys_spec 0
          ((hct.scopes db.oid).format db.ne_global)).mono (fun n u hu => ?_)
          fun _ u hu => hl.trans hu.1.loaded)
        obtain ⟨hq, hn⟩ := hu
        have hlu : Loaded w s u := hl.trans hq.loaded
        simp only [wp_ite, wp_throw, wp_bind, wp_pure]
        refine ⟨fun _ => hlu, fun hzero => ?_⟩
        refine (ih (hlu.consistent hs)).mono (fun r v hv => ?_) fun _ v hv => hlu.trans hv
        refine ⟨hlu.trans hv.1, hv.2.1.cons_cons db, ?_, fun a ha hsame' => ?_, fun a ha => ?_⟩
        · have hd : Deletable t db.oid := deletable_of_count (hct.scopes db.oid) db.ne_global hkt
            (by rw [← hn]; simpa using hzero)
          have hdv : Deletable v db.oid := hd.congr (by rw [hv.1.keyFiles, hq.keyFiles])
          simpa [hdv] using hv.2.2.1
        · obtain rfl | ha := List.mem_cons.1 ha
          · exact List.mem_cons_self
          · exact List.mem_cons_of_mem db (hv.2.2.2.1 a ha (by rwa [hlu.principalKeyOf]))
        · obtain rfl | ha := List.mem_cons.1 ha
          · exact hsame
          · rw [← hlu.principalKeyOf]
            exact hv.2.2.2.2 a ha
      · refine (ih hct).mono (fun r u hu => ⟨hl.trans hu.1, hu.2.1.cons db, hu.2.2.1,
          fun a ha hsame => ?_, fun a ha => ?_⟩) fun _ u hu => hl.trans hu
        · obtain rfl | ha := List.mem_cons.1 ha
          · exact absurd hsame hdiff
          · exact hu.2.2.2.1 a ha (by rwa [hl.principalKeyOf])
        · rw [← hl.principalKeyOf]
          exact hu.2.2.2.2 a ha

/-- The loop over the databases of a default key. -/
theorem deleteAll_spec (dbs : List DatabaseId) (hnodup : dbs.Nodup)
    (hd : ∀ db ∈ dbs, Deletable s db.oid) (hdefault : Deletable s defaultDataTdeOid) :
    wp (forM dbs fun db => do deletePrincipalKey db.oid; clearPrincipalKeyCache db.oid)
      (fun _ t => LoggedSteps w s t ∧ Dropped w (dbs.map (·.oid)) s t ∧
        Deletable t defaultDataTdeOid)
      (fun _ t => LoggedSteps w s t ∧ ∃ l ⊆ dbs.map (·.oid), Dropped w l s t) s := by
  induction dbs generalizing s with
  | nil => exact ⟨.refl, (Loaded.refl s).dropped, hdefault⟩
  | cons db dbs ih =>
      rw [List.nodup_cons] at hnodup
      rw [List.forM_cons, wp_bind]
      refine (deleteAndClear_spec db.ne_global (hd db List.mem_cons_self)).mono (fun _ t ht => ?_)
        fun _ t ht => ⟨ht.1, [], by simp, ht.2⟩
      have hrest : ∀ a ∈ dbs, Deletable t a.oid := fun a ha => by
        refine (hd a (List.mem_cons_of_mem db ha)).congr (ht.2.2 _ fun heq => ?_)
        rw [DatabaseId.ext heq] at ha
        exact hnodup.1 ha
      have hdt : Deletable t defaultDataTdeOid := hdefault.congr (ht.2.2 _ (Ne.symm db.ne_default))
      refine (ih hnodup.2 hrest hdt).mono
        (fun _ u hu => ⟨Relation.ReflTransGen.trans ht.1 hu.1, ht.2.1.trans hu.2.1, hu.2.2⟩)
        fun _ u hu => ⟨Relation.ReflTransGen.trans ht.1 hu.1, ?_⟩
      obtain ⟨l, hl, hu⟩ := hu.2
      exact ⟨_, List.cons_subset_cons _ hl, ht.2.1.trans hu⟩

theorem deleteServerAndClear_spec {info : TDESignedPrincipalKeyInfo}
    (hf : s.walKeys .walKeys = some (.current info [])) :
    wp (do deleteServerKey; clearPrincipalKeyCache globalDataTdeOid)
      (fun _ t => KeySteps w s t ∧ Dropped w [globalDataTdeOid] s t ∧ t.keyFiles = s.keyFiles)
      (fun _ t => KeySteps w s t ∧ Dropped w [] s t) s := by
  refine (wp_bind ..).2 (deleteServerKey_spec.mono (fun _ t ht => ?_) fun _ t ht => ?_)
  · have hq := ht.1.putCache globalDataTdeOid none
    have hstep : KeyStep w s (((s.logged [.deletePrincipalKey globalDataTdeOid]).putWalKeys
        .walKeys none).putCache globalDataTdeOid none) := .deleteServer hf
    refine ⟨.tail (.single hstep) (.logged (.quiet hq)), ⟨fun a ha => ?_, fun a ha => ?_⟩,
      hq.keyFiles⟩
    · obtain rfl := List.mem_singleton.1 ha
      rw [(hq.loaded (w := w)).principalKeyOf]
      simp [principalKeyOf, scopeInfo]
    · rw [List.mem_singleton] at ha
      rw [(hq.loaded (w := w)).principalKeyOf]
      exact principalKeyOf_congr (fun _ => rfl) (fun _ => rfl) fun h => absurd h ha
  · have hbad : ¬s.SysOk := fun hs => by
      have := ht.2 hs
      rw [hf] at this; cases this
    exact ⟨.tail (.single (.logged (.brokenDelete _ hbad))) (.logged (.quiet ht.1)),
      ht.1.dropped⟩

/-- Deleting the default key also deletes the server key: it is the same key, it protects no WAL
keys, and no database stands in the way. -/
structure DropsServerKey (w : World) (s : Server) : Prop where
  same : isSamePrincipalKey (principalKeyOf w s defaultDataTdeOid)
    (principalKeyOf w s globalDataTdeOid) = true
  unused : ∃ info, s.walKeys .walKeys = some (.current info [])
  databases : ∀ db ∈ s.databases, isSamePrincipalKey (principalKeyOf w s defaultDataTdeOid)
    (principalKeyOf w s db.oid) = true → Deletable s db.oid

theorem isSamePrincipalKey_principalKeyOf {k : TDEPrincipalKey} :
    isSamePrincipalKey (some k) (principalKeyOf w s scope) = true ↔
      keyId w s scope = some k.id := by
  unfold keyId
  cases principalKeyOf w s scope with
  | none => simp [isSamePrincipalKey]
  | some k' => simp [isSamePrincipalKey_iff]

/-- What a deletion of the default key does to the keys of the scopes: only scopes that use the
default key lose it, and if the default scope loses it then all of them do. -/
def DefaultDropped (w : World) (s t : Server) : Prop :=
  ∃ l, Dropped w l s t ∧
    (∀ a ∈ l, a = defaultDataTdeOid ∨ keyId w s a = keyId w s defaultDataTdeOid) ∧
    (defaultDataTdeOid ∈ l → ∀ a ∈ defaultScopes s,
      keyId w s a = keyId w s defaultDataTdeOid → a ∈ l)

theorem Loaded.defaultDropped (h : Loaded w s t) : DefaultDropped w s t :=
  ⟨[], h.dropped, by simp, by simp⟩

/-- A deletion of the default key is made of logged steps, unless it deletes the server key too. -/
theorem deleteDefaultKey_spec (hs : Consistent w s) (superuser : Bool) {x : Bool}
    (hx : x = true → superuser = true → ¬DropsServerKey w s) :
    wp (deleteDefaultKey w superuser) (fun _ t => Steps w x s t ∧ DefaultDropped w s t)
      (fun _ t => Steps w x s t ∧ DefaultDropped w s t) s := by
  have hloaded : ∀ {t}, Loaded w s t → Steps w x s t ∧ DefaultDropped w s t := fun h =>
    ⟨h.steps.steps, h.defaultDropped⟩
  refine (wp_ite ..).2 ⟨fun _ => hloaded (Loaded.refl s), fun hsuper => ?_⟩
  refine (wp_bind ..).2 ((getPrincipalKeyNoDefault_spec (hs.scopes _)).mono (fun r t ht => ?_)
    fun _ t h => hloaded h.1)
  obtain ⟨hl, rfl, -⟩ := ht
  have hct := hl.consistent hs
  cases hk : principalKeyOf w s defaultDataTdeOid with
  | none => exact hloaded hl
  | some k =>
      have hkt : principalKeyOf w t defaultDataTdeOid = some k := by rw [hl.principalKeyOf, hk]
      have hid : keyId w s defaultDataTdeOid = some k.id := by rw [keyId, hk, Option.map_some]
      simp only [wp_bind, wp_get]
      refine (databasesUsingDefaultKey_spec hct k t.databases).mono (fun dbs u hu => ?_)
        fun _ u hu => hloaded (hl.trans hu)
      obtain ⟨hlu, hsub, hdbs, husing, hused⟩ := hu
      simp only [isSamePrincipalKey_principalKeyOf, keyId_congr (hl.principalKeyOf _),
        hl.databases] at husing hused
      have hnodup : dbs.Nodup := hsub.nodup hct.databases
      have hsu : Loaded w s u := hl.trans hlu
      have hdefault : Deletable u defaultDataTdeOid := by
        obtain ⟨info, entries, hf, -⟩ := (hct.scopes _).exists_current (by decide) hkt
        exact ⟨info, entries, by rw [hlu.keyFiles, hf],
          (hct.scopes _).bare rfl info entries hf⟩
      have hmem : ∀ a ∈ dbs.map (·.oid), a ≠ defaultDataTdeOid ∧ keyId w s a = some k.id := by
        intro a ha
        obtain ⟨db, hdb, rfl⟩ := List.mem_map.1 ha
        exact ⟨db.ne_default, hused db hdb⟩
      -- the databases and the default scope, once the server key is out of the way
      have hrest : ∀ v l, Steps w x s v → Dropped w l s v → (∀ a ∈ l, a = globalDataTdeOid) →
          (keyId w s globalDataTdeOid = some k.id ↔ globalDataTdeOid ∈ l) →
          v.keyFiles = u.keyFiles →
          wp (do
            forM dbs fun db => do
              deletePrincipalKey db.oid
              clearPrincipalKeyCache db.oid
            deletePrincipalKey defaultDataTdeOid
            clearPrincipalKeyCache defaultDataTdeOid)
            (fun _ t => Steps w x s t ∧ DefaultDropped w s t)
            (fun _ t => Steps w x s t ∧ DefaultDropped w s t) v := by
        intro v l hv hdrop hglobal hserver hfiles
        have hpart : ∀ {y l'}, l' ⊆ dbs.map (·.oid) → Dropped w l' v y → DefaultDropped w s y := by
          intro y l' hsub' hy
          refine ⟨l ++ l', hdrop.trans hy, fun a ha => .inr ?_, fun ha => ?_⟩
          · obtain ha | ha := List.mem_append.1 ha
            · obtain rfl := hglobal a ha
              rw [hid, hserver]
              exact ha
            · rw [hid]
              exact (hmem a (hsub' ha)).2
          · obtain ha | ha := List.mem_append.1 ha
            · exact absurd (hglobal _ ha) (by decide)
            · exact absurd rfl (hmem _ (hsub' ha)).1
        refine (wp_bind ..).2 ((deleteAll_spec dbs hnodup
          (fun db hdb => (hdbs db hdb).congr (by rw [hfiles]))
          (hdefault.congr (by rw [hfiles]))).mono (fun _ y hy => ?_)
          fun _ y hy => ⟨hv.trans hy.1.steps, ?_⟩)
        · have hsy : Steps w x s y := hv.trans hy.1.steps
          refine (deleteAndClear_spec (by decide) hy.2.2).mono
            (fun _ z hz => ⟨hsy.trans hz.1.steps, ?_⟩)
            fun _ z hz => ⟨hsy.trans hz.1.steps, ?_⟩
          · refine ⟨_, (hdrop.trans hy.2.1).trans hz.2.1, fun a ha => ?_, fun _ a ha hsame => ?_⟩
            · rw [List.mem_append, List.mem_append, List.mem_singleton] at ha
              obtain (ha | ha) | ha := ha
              · obtain rfl := hglobal a ha
                rw [hid, hserver]
                exact .inr ha
              · rw [hid]
                exact .inr (hmem a ha).2
              · exact .inl ha
            · rw [hid] at hsame
              rw [List.mem_append, List.mem_append]
              obtain rfl | ha := List.mem_cons.1 ha
              · exact .inl (.inl (hserver.1 hsame))
              · obtain ⟨db, hdb, rfl⟩ := List.mem_map.1 ha
                exact .inl (.inr (List.mem_map_of_mem (husing db hdb hsame)))
          · exact hpart (by simp) (hy.2.1.trans hz.2)
        · obtain ⟨l', hsub', hy'⟩ := hy.2
          exact hpart hsub' hy'
      have hcu := hsu.consistent hs
      refine (getPrincipalKeyNoDefault_spec (hcu.scopes _)).mono (fun r v hv => ?_)
        fun _ v hv => hloaded (hsu.trans hv.1)
      obtain ⟨hlv, rfl, -⟩ := hv
      have hsv : Loaded w s v := hsu.trans hlv
      have hcv := hsv.consistent hs
      simp only [wp_ite, isSamePrincipalKey_principalKeyOf, keyId_congr (hsu.principalKeyOf _)]
      refine ⟨fun hsame => ?_, fun hdiff => hrest v [] hsv.steps.steps hsv.dropped (by simp)
        (by simp [hdiff]) hlv.keyFiles⟩
      obtain ⟨sk, hsk, -⟩ := keyId_eq_some.1 hsame
      obtain ⟨info, entries, hf, -⟩ := (hcv.scopes _).exists_wal_current
        (by rw [hsv.principalKeyOf, hsk])
      refine (wp_bind ..).2 ((countWalRangesInFile_spec
        ((hcv.scopes globalDataTdeOid).walFormat rfl)).mono (fun n y hy => ?_)
        fun _ y hy => hloaded (hsv.trans hy.1.loaded))
      obtain ⟨hq, rfl⟩ := hy
      have hsy : Loaded w s y := hsv.trans hq.loaded
      simp only [wp_ite, hf]
      refine ⟨fun _ => hloaded hsy, fun hzero => ?_⟩
      have hnil : entries = [] := by simpa [WalKeyFile.entries] using hzero
      subst hnil
      have hnot : x = false := by
        refine Bool.eq_false_iff.2 fun h => hx h (by simpa using hsuper) ⟨?_, ?_, fun db hdb hdk => ?_⟩
        · rw [hk]
          exact isSamePrincipalKey_principalKeyOf.2 hsame
        · exact ⟨info, by rw [← hsv.walKeys, hf]⟩
        · rw [hk, isSamePrincipalKey_principalKeyOf] at hdk
          exact (hdbs db (husing db hdb hdk)).congr (by rw [hsu.keyFiles])
      subst hnot
      have hfy : y.walKeys .walKeys = some (.current info []) := by rw [hq.walKeys, hf]
      have hdel : ∀ {z}, KeySteps w y z → Steps w false s z := fun hz =>
        hsy.steps.steps.trans ⟨hz, fun h => by cases h⟩
      simp only [wp_bind] at hrest
      have hdelete := (deleteServerAndClear_spec (w := w) hfy).mono
        (fun _ z hz => hrest z [globalDataTdeOid] (hdel hz.1) (hsy.dropped.trans hz.2.1) (by simp)
          (by simp [hsame]) (by rw [hz.2.2, hq.keyFiles, hlv.keyFiles]))
        (fun _ z hz => (⟨hdel hz.1, [], hsy.dropped.trans hz.2, by simp, by simp⟩ :
          Steps w false s z ∧ DefaultDropped w s z))
      simpa only [wp_bind] using hdelete

/-! ### The fallback -/

/-- A scope that has a header does not fall back. -/
theorem getPrincipalKey_header_spec
    (hcached : ∀ k, s.cache scope = some k → principalKeyOf w s scope = some k)
    (howns : ∀ info, scopeInfo s scope = some info → info.data.databaseId = scope)
    (hi : scopeInfo s scope ≠ none) :
    wp (getPrincipalKey w scope)
      (fun r t => Loaded w s t ∧ ∃ k, r = some k ∧ principalKeyOf w s scope = some k)
      (fun _ t => Loaded w s t ∧ (s.SysOk → ¬Reachable w s scope)) s := by
  refine (wp_bind ..).2 ((lookup_spec hcached howns).mono (fun r t ht => ?_)
    fun _ t h => ⟨h.1, fun hok => (h.2 hok).2⟩)
  obtain ⟨hl, hr, -, hnone⟩ := ht
  cases r with
  | none => exact absurd (hnone rfl) hi
  | some k => exact ⟨hl, k, rfl, hr.symm⟩

/-- What a lookup with the fallback to the default key may change: a scope that has no key takes
over the default key. -/
structure FellBack (w : World) (scope : Oid) (s t : Server) : Prop where
  steps : KeySteps w s t
  others : ∀ a, a ≠ scope → principalKeyOf w t a = principalKeyOf w s a
  own : keyId w t scope = keyId w s scope ∨
    keyId w s scope = none ∧ keyId w t scope = keyId w s defaultDataTdeOid

theorem Loaded.fellBack (h : Loaded w s t) : FellBack w scope s t :=
  ⟨h.steps.keySteps, fun a _ => h.principalKeyOf a, .inl (keyId_congr (h.principalKeyOf scope))⟩

theorem FellBack.loaded (h : FellBack w scope s t) (h' : Loaded w t u) : FellBack w scope s u := by
  refine ⟨Relation.ReflTransGen.trans h.steps h'.steps.keySteps, fun a ha => ?_, ?_⟩
  · rw [h'.principalKeyOf, h.others a ha]
  · rw [keyId_congr (h'.principalKeyOf scope)]
    exact h.own

/-- Looking up a key, with the fallback to the default key. -/
theorem getPrincipalKey_spec (hs : Consistent w s) :
    wp (getPrincipalKey w scope)
      (fun r t => FellBack w scope s t ∧ r = principalKeyOf w t scope ∧ t.cache scope = r ∧
        (scopeInfo s scope ≠ none → Loaded w s t))
      (fun _ t => FellBack w scope s t ∧ (scopeInfo s scope ≠ none → Loaded w s t ∧
        (s.SysOk → s.cache scope = none ∧ ¬Reachable w s scope))) s := by
  refine (wp_bind ..).2 ((getPrincipalKeyNoDefault_spec (hs.scopes scope)).mono (fun r t ht => ?_)
    fun _ t h => ⟨h.1.fellBack, fun _ => h⟩)
  obtain ⟨hl, hr, hcache⟩ := ht
  have hct := hl.consistent hs
  cases r with
  | some k => exact ⟨hl.fellBack, by rw [hl.principalKeyOf, ← hr], hcache, fun _ => hl⟩
  | none =>
      have hi : scopeInfo s scope = none := (hs.scopes scope).principalKeyOf_none.1 hr.symm
      have hno : keyId w s scope = none := by rw [keyId, ← hr, Option.map_none]
      refine (wp_bind ..).2 ((getPrincipalKeyNoDefault_spec (hct.scopes _)).mono (fun d u hu => ?_)
        fun _ u hu => ⟨(hl.trans hu.1).fellBack, fun h => absurd hi h⟩)
      obtain ⟨hlu, rfl, -⟩ := hu
      have hsu : Loaded w s u := hl.trans hlu
      have hcu := hsu.consistent hs
      have hiu : scopeInfo u scope = none := by rw [hsu.scopeInfo, hi]
      cases hd : principalKeyOf w t defaultDataTdeOid with
      | none =>
          refine ⟨hsu.fellBack, ?_, ?_, fun h => absurd hi h⟩
          · exact ((hcu.scopes scope).principalKeyOf_none.2 hiu).symm
          · exact (hcu.scopes scope).cache_none hiu
      | some k =>
          have hdu : principalKeyOf w u defaultDataTdeOid = some k := by
            rw [hlu.principalKeyOf, hd]
          have hid : keyId w s defaultDataTdeOid = some k.id := by
            rw [keyId, ← hl.principalKeyOf, hd, Option.map_some]
          -- the header of the scope, if it was written, names the default key
          have hfell : ∀ {x}, KeySteps w u x → OnlyScope w scope u x →
              (principalKeyOf w x scope = none ∨ principalKeyOf w x scope =
                some { k with keyInfo := { k.keyInfo with databaseId := scope } }) →
              FellBack w scope s x := by
            intro x hx honly hkey
            refine ⟨Relation.ReflTransGen.trans hsu.steps.keySteps hx, fun a ha => ?_, ?_⟩
            · rw [honly.others a ha, hsu.principalKeyOf]
            · obtain hkey | hkey := hkey
              · exact .inl (by rw [hno, keyId, hkey, Option.map_none])
              · exact .inr ⟨hno, by rw [hid, keyId, hkey]; rfl⟩
          have hget : ∀ x, FellBack w scope s x → wp (getPrincipalKeyNoDefault w scope)
              (fun r y => FellBack w scope s y ∧ r = principalKeyOf w y scope ∧ y.cache scope = r ∧
                (scopeInfo s scope ≠ none → Loaded w s y))
              (fun _ y => FellBack w scope s y ∧ (scopeInfo s scope ≠ none → Loaded w s y ∧
                (s.SysOk → s.cache scope = none ∧ ¬Reachable w s scope))) x := by
            intro x hx
            have hcx := hx.steps.consistent hs
            refine (getPrincipalKeyNoDefault_spec (hcx.scopes scope)).mono (fun r y hy => ?_)
              fun e y hy => ⟨hx.loaded hy.1, fun h => absurd hi h⟩
            exact ⟨hx.loaded hy.1, by rw [hy.1.principalKeyOf, hy.2.1], hy.2.2,
              fun h => absurd hi h⟩
          have hfirst := (firstKey_spec false (hcu.scopes scope) hiu
            (keyFor_of_default (hcu.scopes _) hdu scope)).mono
            (fun _ x hx => hget x (hfell hx.1.1 hx.2.2.2 (.inr hx.2.1)))
            (fun e x hx => (⟨hfell hx.1.1 hx.2.2.1 hx.2.2.2, fun h => absurd hi h⟩ :
              FellBack w scope s x ∧ (scopeInfo s scope ≠ none → Loaded w s x ∧
                (s.SysOk → s.cache scope = none ∧ ¬Reachable w s scope))))
          simpa only [wp_ite, wp_bind] using hfirst

end OpenPgTde
