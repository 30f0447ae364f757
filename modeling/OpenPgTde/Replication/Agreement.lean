import OpenPgTde.Replication.Primary

/-!
Agreement of primary and standby on principal keys.

A standby that starts as a copy of the primary replays the records of set, rotate and delete. Its
headers then name the keys that those of the primary name. The relation `Follows` carries the proof:
it ties the headers and the tables of WAL keys of the two servers, and asks of the cache of the
standby no more than that it decrypts what is in the file, since the replay of a deletion leaves the
deleted key in the cache. The one record replay cannot follow is the deletion of the server key: it
removes the file of a database key instead of the file of WAL keys.
-/

namespace OpenPgTde

open Lib.Effect Lib.SlotArray

variable {w : World} {p p' s t u : Server} {scope : Oid}

/-- What the header of a scope says: the provider and the name of the key. -/
def headerName (s : Server) (scope : Oid) : Option (ℤ × List UInt8) :=
  (scopeInfo s scope).map fun info => (info.data.keyringId, info.data.name)

theorem headerName_eq_none : headerName s scope = none ↔ scopeInfo s scope = none := by
  simp [headerName]

/-! ### A scope of the standby -/

/-- The header of the scope names a key, and whatever key a lookup returns decrypts the entries. -/
structure ScopeReady (w : World) (s : Server) (scope : Oid) : Prop where
  format : FormatOk s scope
  header : ∀ info, scopeInfo s scope = some info → ∃ k, HeaderFor w s.providers scope info k
  readable : scope ≠ globalDataTdeOid → ∀ info entries k,
    s.keyFiles (.keys scope) = some (.current info entries) →
    principalKeyOf w s scope = some k → Readable w k.keyData entries
  cached : scope ≠ globalDataTdeOid → ∀ k, s.cache scope = some k →
    k.keyInfo.databaseId = scope ∧ ∀ info entries,
      s.keyFiles (.keys scope) = some (.current info entries) → Readable w k.keyData entries
  walCached : scope = globalDataTdeOid → ∀ k, s.cache scope = some k →
    principalKeyOf w s scope = some k

theorem ScopeOk.ready (h : ScopeOk w s scope) : ScopeReady w s scope where
  format := h.formatOk
  header := h.header
  readable := h.readable
  cached hg k hk := ⟨h.owner (h.cached k hk), fun info entries hf =>
    h.readable hg info entries k hf (h.cached k hk)⟩
  walCached _ := h.cached

theorem ScopeReady.frame (h : ScopeReady w s scope) (hp : t.providers = s.providers)
    (hk : scope ≠ globalDataTdeOid → t.keyFiles (.keys scope) = s.keyFiles (.keys scope))
    (hw : scope = globalDataTdeOid → t.walKeys .walKeys = s.walKeys .walKeys)
    (hc : t.cache scope = s.cache scope) : ScopeReady w t scope := by
  have hpk : principalKeyOf w t scope = principalKeyOf w s scope :=
    principalKeyOf_congr (fun _ => by rw [hp]) hk hw
  refine ⟨⟨fun hg => ?_, fun hg => ?_⟩, fun info hi => ?_, fun hg => ?_, fun hg => ?_, fun hg => ?_⟩
  · rw [hk hg]
    exact h.format.1 hg
  · rw [hw hg]
    exact h.format.2 hg
  · rw [hp]
    exact h.header info (by rw [← scopeInfo_congr hk hw, hi])
  · rw [hk hg, hpk]
    exact h.readable hg
  · rw [hk hg, hc]
    exact h.cached hg
  · rw [hc, hpk]
    exact h.walCached hg

theorem ScopeReady.owns {info : TDESignedPrincipalKeyInfo} (h : ScopeReady w s scope)
    (hi : scopeInfo s scope = some info) : info.data.databaseId = scope := by
  obtain ⟨k, hk⟩ := h.header info hi
  exact hk.owner

theorem ScopeReady.reachable (h : ScopeReady w s scope) (hi : scopeInfo s scope ≠ none)
    (hkms : s.KeyringsAnswer) : Reachable w s scope := by
  obtain ⟨info, hinfo⟩ := Option.ne_none_iff_exists'.1 hi
  obtain ⟨k, hk⟩ := h.header info hinfo
  exact hk.reachable hinfo hkms

theorem ScopeReady.owner {k : TDEPrincipalKey} (h : ScopeReady w s scope)
    (hk : principalKeyOf w s scope = some k) : k.keyInfo.databaseId = scope := by
  obtain ⟨info, hi, hn⟩ := principalKeyOf_eq_some.1 hk
  rw [keyInfo_of_namedKey hn, h.owns hi]

/-- Loading keys into the cache does no harm. -/
theorem ScopeReady.loaded (h : ScopeReady w s scope) (hl : Loaded w s t) : ScopeReady w t scope := by
  have hpk := hl.principalKeyOf scope
  refine ⟨?_, ?_, fun hg => ?_, fun hg k hk => ?_, fun hg k hk => ?_⟩
  · rw [FormatOk, hl.keyFiles, hl.walKeys]
    exact h.format
  · rw [hl.scopeInfo, hl.providers]
    exact h.header
  · rw [hl.keyFiles, hpk]
    exact h.readable hg
  · rw [hl.keyFiles]
    obtain hk | hk := hl.cached scope k hk
    · exact h.cached hg k hk
    · exact ⟨h.owner hk, fun info entries hf => h.readable hg info entries k hf hk⟩
  · rw [hpk]
    obtain hk | hk := hl.cached scope k hk
    · exact h.walCached hg k hk
    · exact hk

/-- A file that has just been written under a key of the scope. -/
theorem ScopeReady.of_current {info : TDESignedPrincipalKeyInfo} {entries : List TDEMapEntry}
    {k : TDEPrincipalKey} (hg : scope ≠ globalDataTdeOid)
    (hf : s.keyFiles (.keys scope) = some (.current info entries))
    (hh : HeaderFor w s.providers scope info k) (hr : Readable w k.keyData entries)
    (hc : ∀ k', s.cache scope = some k' →
      k'.keyInfo.databaseId = scope ∧ Readable w k'.keyData entries) : ScopeReady w s scope := by
  have hi := scopeInfo_current hg hf
  have hpk := principalKeyOf_of_headerFor hi hh
  refine ⟨⟨fun _ f hf' => ?_, fun h => absurd h hg⟩, fun info' hi' => ?_,
    fun _ info' entries' k' hf' hk' => ?_, fun _ k' hk' => ⟨(hc k' hk').1, fun info' entries' hf' => ?_⟩,
    fun h => absurd h hg⟩
  · rw [hf] at hf'
    cases hf'
    simp [KeyFile.entries]
  · rw [hi] at hi'
    cases hi'
    exact ⟨k, hh⟩
  · rw [hf] at hf'
    rw [hpk] at hk'
    cases hf'
    cases hk'
    exact hr
  · rw [hf] at hf'
    cases hf'
    exact (hc k' hk').2

theorem ScopeReady.of_none (hg : scope ≠ globalDataTdeOid) (hf : s.keyFiles (.keys scope) = none)
    (hc : ∀ k, s.cache scope = some k → k.keyInfo.databaseId = scope) : ScopeReady w s scope := by
  refine ⟨⟨fun _ f hf' => ?_, fun h => absurd h hg⟩, fun info hi => ?_,
    fun _ info entries k hf' => ?_, fun _ k hk => ⟨hc k hk, fun info entries hf' => ?_⟩,
    fun h => absurd h hg⟩
  · rw [hf] at hf'; cases hf'
  · simp [scopeInfo, hg, hf] at hi
  · rw [hf] at hf'; cases hf'
  · rw [hf] at hf'; cases hf'

theorem ScopeReady.of_wal_current {info : TDESignedPrincipalKeyInfo}
    {entries : List WalKeyFileEntry} {k : TDEPrincipalKey}
    (hf : s.walKeys .walKeys = some (.current info entries))
    (hh : HeaderFor w s.providers globalDataTdeOid info k)
    (hc : s.cache globalDataTdeOid = none ∨ s.cache globalDataTdeOid = some k) :
    ScopeReady w s globalDataTdeOid :=
  (ScopeOk.of_wal_current hf hh hc).ready

/-- A lookup in a scope that has a header returns a key that decrypts the entries. -/
theorem ScopeReady.lookup (h : ScopeReady w s scope) (hg : scope ≠ globalDataTdeOid)
    (hi : scopeInfo s scope ≠ none) (hok : s.SysOk) :
    wp (getPrincipalKeyNoDefault w scope)
      (fun r t => Loaded w s t ∧ ∃ k, r = some k ∧ k.keyInfo.databaseId = scope ∧
        ∀ info entries, s.keyFiles (.keys scope) = some (.current info entries) →
          Readable w k.keyData entries)
      (fun _ _ => ¬s.KeyringsAnswer) s := by
  cases hc : s.cache scope with
  | some k =>
      unfold getPrincipalKeyNoDefault
      simp only [wp_bind, wp_get, hc, wp_pure]
      exact ⟨Loaded.refl s, k, rfl, h.cached hg k hc⟩
  | none =>
      refine (lookup_spec (by simp [hc]) fun _ => h.owns).mono (fun r t ht => ?_)
        fun _ t ht hkms => (ht.2 hok).2 (h.reachable hi hkms)
      obtain ⟨hl, rfl, -, hnone⟩ := ht
      obtain ⟨k, hk⟩ := Option.ne_none_iff_exists'.1 fun hn => hi (hnone hn)
      exact ⟨hl, k, hk, h.owner hk, fun info entries hf => h.readable hg info entries k hf hk⟩

theorem ScopeReady.lookupServer (h : ScopeReady w s globalDataTdeOid)
    (hi : scopeInfo s globalDataTdeOid ≠ none) (hok : s.SysOk) :
    wp (getPrincipalKeyNoDefault w globalDataTdeOid)
      (fun r t => Loaded w s t ∧ ∃ k, r = some k ∧ principalKeyOf w s globalDataTdeOid = some k)
      (fun _ _ => ¬s.KeyringsAnswer) s := by
  refine (lookup_spec (h.walCached rfl) fun _ => h.owns).mono (fun r t ht => ?_)
    fun _ t ht hkms => (ht.2 hok).2 (h.reachable hi hkms)
  obtain ⟨hl, rfl, -, hnone⟩ := ht
  obtain ⟨k, hk⟩ := Option.ne_none_iff_exists'.1 fun hn => hi (hnone hn)
  exact ⟨hl, k, hk, hk⟩

/-! ### The relation between primary and standby -/

/-- The standby has what the primary has: the same providers, headers that name the same keys, and
the same WAL keys. -/
structure Follows (w : World) (p s : Server) : Prop where
  providers : s.providers = p.providers
  headers : ∀ scope, headerName s scope = headerName p scope
  scopes : ∀ scope, ScopeReady w s scope
  wal : ∀ info entries k info' entries' k',
    p.walKeys .walKeys = some (.current info entries) →
    principalKeyOf w p globalDataTdeOid = some k →
    s.walKeys .walKeys = some (.current info' entries') →
    principalKeyOf w s globalDataTdeOid = some k' →
    walTable w k'.keyData entries' = walTable w k.keyData entries
  sysOk : s.SysOk

theorem Follows.scopeInfo_none (h : Follows w p s) :
    scopeInfo s scope = none ↔ scopeInfo p scope = none := by
  rw [← headerName_eq_none, h.headers, headerName_eq_none]

/-- Steps of the primary that change no file. -/
theorem Follows.left (h : Follows w p s) (hp : p'.providers = p.providers)
    (hk : ∀ a, p'.keyFiles (.keys a) = p.keyFiles (.keys a))
    (hw : p'.walKeys .walKeys = p.walKeys .walKeys) : Follows w p' s where
  providers := by rw [h.providers, hp]
  headers a := by rw [h.headers, headerName, headerName, scopeInfo_congr (fun _ => hk a) fun _ => hw]
  scopes := h.scopes
  wal info entries k info' entries' k' hf hpk := by
    rw [hw] at hf
    rw [principalKeyOf_congr (fun _ => by rw [hp]) (fun _ => hk _) fun _ => hw] at hpk
    exact h.wal info entries k info' entries' k' hf hpk
  sysOk := h.sysOk

/-- Steps of the standby that only load keys. -/
theorem Follows.loaded (h : Follows w p s) (hl : Loaded w s t) : Follows w p t where
  providers := by rw [hl.providers, h.providers]
  headers a := by rw [headerName, hl.scopeInfo, ← headerName, h.headers]
  scopes a := (h.scopes a).loaded hl
  wal info entries k info' entries' k' hf hpk hf' hpk' := by
    rw [hl.walKeys] at hf'
    rw [hl.principalKeyOf] at hpk'
    exact h.wal info entries k info' entries' k' hf hpk hf' hpk'
  sysOk := hl.sysOk h.sysOk

/-- Both servers change the file of one database or of the default scope. -/
theorem Follows.update (h : Follows w p s) (hg : scope ≠ globalDataTdeOid)
    (hp : p'.providers = p.providers)
    (hk : ∀ a, a ≠ scope → p'.keyFiles (.keys a) = p.keyFiles (.keys a))
    (hw : p'.walKeys .walKeys = p.walKeys .walKeys) (hp' : t.providers = s.providers)
    (hk' : ∀ a, a ≠ scope → t.keyFiles (.keys a) = s.keyFiles (.keys a))
    (hw' : t.walKeys .walKeys = s.walKeys .walKeys)
    (hc' : ∀ a, a ≠ scope → t.cache a = s.cache a) (hok : t.SysOk)
    (hname : headerName t scope = headerName p' scope) (hready : ScopeReady w t scope) :
    Follows w p' t := by
  refine ⟨by rw [hp', h.providers, hp], fun a => ?_, fun a => ?_, ?_, hok⟩
  · by_cases ha : a = scope
    · rw [ha, hname]
    · have hleft : scopeInfo p' a = scopeInfo p a := scopeInfo_congr (fun _ => hk a ha) fun _ => hw
      have hright : scopeInfo t a = scopeInfo s a :=
        scopeInfo_congr (fun _ => hk' a ha) fun _ => hw'
      rw [headerName, headerName, hleft, hright]
      exact h.headers a
  · by_cases ha : a = scope
    · rw [ha]
      exact hready
    · exact (h.scopes a).frame hp' (fun _ => hk' a ha) (fun _ => hw') (hc' a ha)
  · intro info entries k info' entries' k' hf hpk hf' hpk'
    rw [hw] at hf
    rw [hw'] at hf'
    have hne : globalDataTdeOid ≠ scope := Ne.symm hg
    rw [principalKeyOf_congr (fun _ => by rw [hp]) (fun _ => hk _ hne) fun _ => hw] at hpk
    rw [principalKeyOf_congr (fun _ => by rw [hp']) (fun _ => hk' _ hne) fun _ => hw'] at hpk'
    exact h.wal info entries k info' entries' k' hf hpk hf' hpk'

/-- Both servers change the file of WAL keys. -/
theorem Follows.updateServer {info info' : TDESignedPrincipalKeyInfo}
    {entries entries' : List WalKeyFileEntry} {k k' : TDEPrincipalKey} (h : Follows w p s)
    (hp : p'.providers = p.providers) (hk : p'.keyFiles = p.keyFiles)
    (hf : p'.walKeys .walKeys = some (.current info entries))
    (hh : HeaderFor w p'.providers globalDataTdeOid info k)
    (hp' : t.providers = s.providers) (hk' : t.keyFiles = s.keyFiles)
    (hf' : t.walKeys .walKeys = some (.current info' entries'))
    (hh' : HeaderFor w t.providers globalDataTdeOid info' k')
    (hc : t.cache globalDataTdeOid = none ∨ t.cache globalDataTdeOid = some k')
    (hc' : ∀ a, a ≠ globalDataTdeOid → t.cache a = s.cache a) (hok : t.SysOk)
    (hname : (info'.data.keyringId, info'.data.name) = (info.data.keyringId, info.data.name))
    (htable : walTable w k'.keyData entries' = walTable w k.keyData entries) :
    Follows w p' t := by
  have hi := scopeInfo_wal_current hf
  have hi' := scopeInfo_wal_current hf'
  have hpk := principalKeyOf_of_headerFor hi hh
  have hpk' := principalKeyOf_of_headerFor hi' hh'
  refine ⟨by rw [hp', h.providers, hp], fun a => ?_, fun a => ?_, ?_, hok⟩
  · by_cases ha : a = globalDataTdeOid
    · subst ha
      rw [headerName, headerName, hi, hi', Option.map_some, Option.map_some, hname]
    · have hleft : scopeInfo p' a = scopeInfo p a :=
        scopeInfo_congr (fun _ => by rw [hk]) fun hg => absurd hg ha
      have hright : scopeInfo t a = scopeInfo s a :=
        scopeInfo_congr (fun _ => by rw [hk']) fun hg => absurd hg ha
      rw [headerName, headerName, hleft, hright]
      exact h.headers a
  · by_cases ha : a = globalDataTdeOid
    · subst ha
      exact ScopeReady.of_wal_current hf' hh' hc
    · exact (h.scopes a).frame hp' (fun _ => by rw [hk']) (fun hg => absurd hg ha) (hc' a ha)
  · intro i es k₁ i' es' k₂ hf₁ hk₁ hf₂ hk₂
    rw [hf] at hf₁
    rw [hpk] at hk₁
    rw [hf'] at hf₂
    rw [hpk'] at hk₂
    cases hf₁
    cases hk₁
    cases hf₂
    cases hk₂
    exact htable

/-! ### Replay of one step -/

/-- Replaying the records takes the standby to a state that follows `p'`; only a keyring that does
not answer can stop it. -/
def Replays (w : World) (p' s : Server) (rs : List XLogRecord) : Prop :=
  wp (forM rs (tdeheapRmgrRedo w)) (fun _ t => Follows w p' t ∧ t.kms = s.kms)
    (fun _ _ => ¬s.KeyringsAnswer) s

theorem Replays.nil (h : Follows w p s) : Replays w p s [] := ⟨h, rfl⟩

theorem Replays.single {r : XLogRecord} (h : wp (tdeheapRmgrRedo w r)
    (fun _ t => ∃ v, Follows w p v ∧ v.kms = s.kms ∧ Quiet v t) (fun _ _ => ¬s.KeyringsAnswer) s) :
    Replays w p s [r] := by
  unfold Replays
  rw [List.forM_cons, wp_bind]
  refine h.mono (fun _ t ht => ?_) fun _ _ h => h
  obtain ⟨v, hv, hkms, hq⟩ := ht
  exact ⟨hv.loaded hq.loaded, (hq.loaded (w := w)).kms.trans hkms⟩

theorem Replays.append {rs rs' : List XLogRecord} (h : Replays w p s rs)
    (h' : ∀ t, Follows w p t → Replays w p' t rs') : Replays w p' s (rs ++ rs') := by
  refine (wp_forM_append ..).2 (h.mono (fun _ t ht => ?_) fun _ _ h => h)
  refine (h' t ht.1).mono (fun _ v hv => ⟨hv.1, hv.2.trans ht.2⟩) fun _ _ hno hkms => hno ?_
  rw [Server.KeyringsAnswer, ht.2]
  exact hkms

/-- The first key of a scope. The cache of the standby may still have a deleted key, but the new
file has no entries. -/
theorem Follows.save {info : TDESignedPrincipalKeyInfo} {k : TDEPrincipalKey} (h : Follows w p s)
    (hg : scope ≠ globalDataTdeOid) (hi : scopeInfo p scope = none)
    (hh : HeaderFor w p.providers scope info k) :
    Replays w (((p.logged [.addPrincipalKey info]).putKeyFile (.keys scope)
      (some (.current info []))).putCache scope (some k)) s [.addPrincipalKey info] := by
  apply Replays.single
  refine (addPrincipalKey_redo_spec hh.owner (h.scopes scope).format).mono (fun _ t ht => ?_)
    fun _ t ht => absurd h.sysOk ht.1
  obtain ⟨hne, -⟩ | ⟨-, hq⟩ := ht
  · exact absurd (h.scopeInfo_none.2 hi) hne
  · have hput : s.putHeader scope info = s.putKeyFile (.keys scope) (some (.current info [])) := by
      simp [Server.putHeader, hg]
    rw [hput] at hq
    have hr : ∀ k' : TDEPrincipalKey, Readable w k'.keyData [] := by simp [Readable]
    rw [← h.providers] at hh
    refine ⟨s.putKeyFile (.keys scope) (some (.current info [])), ?_, rfl, hq⟩
    refine h.update hg rfl (fun a ha => by simp [ha]) rfl rfl (fun a ha => by simp [ha]) rfl
      (fun _ _ => rfl) h.sysOk ?_ ?_
    · simp [headerName, scopeInfo, hg, KeyFile.info]
    · refine ScopeReady.of_current hg (by simp) hh (hr k) fun k' hk' => ⟨?_, hr k'⟩
      exact ((h.scopes scope).cached hg k' hk').1

theorem Follows.saveServer {info : TDESignedPrincipalKeyInfo} {k : TDEPrincipalKey}
    (h : Follows w p s) (hi : scopeInfo p globalDataTdeOid = none)
    (hh : HeaderFor w p.providers globalDataTdeOid info k) :
    Replays w (((p.logged [.addPrincipalKey info]).putWalKeys .walKeys
      (some (.current info []))).putCache globalDataTdeOid (some k)) s
      [.addPrincipalKey info] := by
  apply Replays.single
  refine (addPrincipalKey_redo_spec hh.owner (h.scopes _).format).mono (fun _ t ht => ?_)
    fun _ t ht => absurd h.sysOk ht.1
  have his := h.scopeInfo_none.2 hi
  obtain ⟨hne, -⟩ | ⟨-, hq⟩ := ht
  · exact absurd his hne
  · have hput : s.putHeader globalDataTdeOid info =
        s.putWalKeys .walKeys (some (.current info [])) := by
      simp [Server.putHeader]
    rw [hput] at hq
    have hc : s.cache globalDataTdeOid = none := by
      cases hc : s.cache globalDataTdeOid with
      | none => rfl
      | some k' =>
          have := (h.scopes _).walCached rfl k' hc
          rw [principalKeyOf, his] at this
          cases this
    have hh' : HeaderFor w s.providers globalDataTdeOid info k := by rwa [h.providers]
    refine ⟨s.putWalKeys .walKeys (some (.current info [])), ?_, rfl, hq⟩
    exact h.updateServer rfl rfl (by simp; rfl) hh rfl rfl (by simp) hh' (.inl hc)
      (fun _ _ => rfl) h.sysOk rfl rfl

/-- The deletion of a key that is not the server key. -/
theorem Follows.delete (h : Follows w p s) (hg : scope ≠ globalDataTdeOid) :
    Replays w (((p.logged [.deletePrincipalKey scope]).putKeyFile (.keys scope)
      none).putCache scope none) s [.deletePrincipalKey scope] := by
  apply Replays.single
  refine (deletePrincipalKeyRedo_spec scope).mono (fun _ t ht => ?_) fun _ _ h => h.elim
  obtain hq | ⟨-, hbad⟩ := ht
  · refine ⟨s.putKeyFile (.keys scope) none, ?_, rfl, hq⟩
    refine h.update hg rfl (fun a ha => by simp [ha]) rfl rfl (fun a ha => by simp [ha]) rfl
      (fun _ _ => rfl) h.sysOk ?_ ?_
    · simp [headerName, scopeInfo, hg]
    · exact ScopeReady.of_none hg (by simp) fun k hk => ((h.scopes scope).cached hg k hk).1
  · exact absurd h.sysOk hbad

/-- The rotation of a key. The standby fetches the key that the record names and rewrites its own
file under it. -/
theorem Follows.rotate {info info' : TDESignedPrincipalKeyInfo} {entries new : List TDEMapEntry}
    {k' : TDEPrincipalKey} (h : Follows w p s) (hg : scope ≠ globalDataTdeOid)
    (hf : p.keyFiles (.keys scope) = some (.current info entries))
    (hh : HeaderFor w p.providers scope info' k') :
    Replays w (p.rotated scope k' true info' new) s [rotateRecord k'] := by
  have hk' : k'.keyInfo = info'.data := keyInfo_of_namedKey hh.named
  have hdb : k'.keyInfo.databaseId = scope := by rw [hk', hh.owner]
  obtain ⟨hshared, hknown⟩ := hh.rotateRecord
  rw [hdb] at hshared hknown
  have hi : scopeInfo s scope ≠ none := fun hn => by
    rw [h.scopeInfo_none, scopeInfo_current hg hf] at hn
    cases hn
  apply Replays.single
  show wp (xlTdePerformRotateKey w k'.keyInfo.databaseId _ _) _ _ _
  rw [hdb]
  refine (wp_bind ..).2 (((h.scopes scope).lookup hg hi h.sysOk).mono (fun r t ht => ?_)
    fun _ _ h => h)
  obtain ⟨hl, curr, rfl, hcurr, hread⟩ := ht
  have ht := h.loaded hl
  have hkms : ∀ {v : Server}, v.kms = t.kms → ¬v.KeyringsAnswer → ¬s.KeyringsAnswer := by
    intro v hv hno hyes
    refine hno fun r name => ?_
    rw [hv, hl.kms]
    exact hyes r name
  refine rotateToNamedKey_spec hshared (fun _ hfail => ?_) fun newPk u hu hfor hid hname => ?_
  · refine hkms rfl fun hyes => hfail hyes ?_
    rw [hl.providers, h.providers]
    exact hknown
  · have hfu := ht.loaded (hu.loaded (w := w))
    have hlu : Loaded w s u := hl.trans hu.loaded
    obtain ⟨i, hinfo⟩ := Option.ne_none_iff_exists'.1 (show scopeInfo u scope ≠ none by
      rwa [hlu.scopeInfo])
    obtain ⟨es, hfile⟩ := (hfu.scopes scope).format.exists_current hg hinfo
    have hr : Readable w curr.keyData es := hread i es (by rw [← hlu.keyFiles, hfile])
    refine (rotateFile_spec false hg (entries_of_current hfile) hcurr hfor.1).mono (fun _ v hv => ?_) fun _ v hv => ?_
    · obtain ⟨i', new', hw', hq⟩ := hv
      have hnew : Readable w newPk.keyData new' := readable_of_keyTable_eq hr hw'.table
      rw [← hu.providers] at hfor
      have hh' := hfor.2 i' hw'.data hw'.verified
      refine ⟨u.rotated scope newPk false i' new', ?_, hlu.kms, hq⟩
      refine hfu.update hg rfl (fun a ha => by simp [Server.rotated, ha]) rfl rfl
        (fun a ha => by simp [Server.rotated, ha]) rfl
        (fun a ha => by simp [Server.rotated, ha]) hfu.sysOk ?_ ?_
      · have hname' := hname (by rw [hl.providers, h.providers]; exact hknown)
        simp [headerName, scopeInfo, hg, Server.rotated, KeyFile.info, hw'.data, hid, hname', hk']
      · refine ScopeReady.of_current hg (by simp [Server.rotated]) hh' hnew fun k hk => ?_
        obtain rfl : newPk = k := by simpa [Server.rotated] using hk
        exact ⟨hfor.1, hnew⟩
    · exact absurd hr (hv.1 hfu.sysOk (by simp [hfile, KeyFile.entries]))

theorem Follows.rotateServer {info info' : TDESignedPrincipalKeyInfo}
    {entries new : List WalKeyFileEntry} {k k' : TDEPrincipalKey} (h : Follows w p s)
    (hf : p.walKeys .walKeys = some (.current info entries))
    (hpk : principalKeyOf w p globalDataTdeOid = some k)
    (hr : WalReadable w k.keyData entries)
    (hh : HeaderFor w p.providers globalDataTdeOid info' k')
    (htable : walTable w k'.keyData new = walTable w k.keyData entries) :
    Replays w (p.rotatedWal k' true info' new) s [rotateRecord k'] := by
  have hk' : k'.keyInfo = info'.data := keyInfo_of_namedKey hh.named
  have hdb : k'.keyInfo.databaseId = globalDataTdeOid := by rw [hk', hh.owner]
  obtain ⟨hshared, hknown⟩ := hh.rotateRecord
  rw [hdb] at hshared hknown
  have hi : scopeInfo s globalDataTdeOid ≠ none := fun hn => by
    rw [h.scopeInfo_none, scopeInfo_wal_current hf] at hn
    cases hn
  apply Replays.single
  show wp (xlTdePerformRotateKey w k'.keyInfo.databaseId _ _) _ _ _
  rw [hdb]
  refine (wp_bind ..).2 (((h.scopes _).lookupServer hi h.sysOk).mono (fun r t ht => ?_)
    fun _ _ h => h)
  obtain ⟨hl, curr, rfl, hcurr⟩ := ht
  have ht := h.loaded hl
  have hkms : ∀ {v : Server}, v.kms = t.kms → ¬v.KeyringsAnswer → ¬s.KeyringsAnswer := by
    intro v hv hno hyes
    refine hno fun r name => ?_
    rw [hv, hl.kms]
    exact hyes r name
  refine rotateToNamedKey_spec hshared (fun _ hfail => ?_) fun newPk u hu hfor hid hname => ?_
  · refine hkms rfl fun hyes => hfail hyes ?_
    rw [hl.providers, h.providers]
    exact hknown
  · have hfu := ht.loaded (hu.loaded (w := w))
    have hlu : Loaded w s u := hl.trans hu.loaded
    obtain ⟨i, hinfo⟩ := Option.ne_none_iff_exists'.1 (show scopeInfo u globalDataTdeOid ≠ none by
      rwa [hlu.scopeInfo])
    obtain ⟨es, hfile⟩ := (hfu.scopes _).format.exists_wal_current hinfo
    have hcu : principalKeyOf w u globalDataTdeOid = some curr := by
      rw [hlu.principalKeyOf, hcurr]
    have htab := hfu.wal info entries k i es curr hf hpk hfile hcu
    have hru : WalReadable w curr.keyData es := walReadable_of_walTable_eq hr htab
    refine (rotateWalFile_spec false (walEntries_of_current hfile) ((hfu.scopes _).owner hcu) hfor.1).mono
      (fun _ v hv => ?_) fun _ v hv => ?_
    · obtain ⟨i', new', hw', hq⟩ := hv
      rw [← hu.providers] at hfor
      have hh' := hfor.2 i' hw'.data hw'.verified
      refine ⟨u.rotatedWal newPk false i' new', ?_, hlu.kms, hq⟩
      refine hfu.updateServer rfl rfl (by simp [Server.rotatedWal]; rfl) hh rfl rfl
        (by simp [Server.rotatedWal]; rfl) hh' (.inr (by simp [Server.rotatedWal]))
        (fun a ha => by simp [Server.rotatedWal, ha]) hfu.sysOk ?_ ?_
      · have hname' := hname (by rw [hl.providers, h.providers]; exact hknown)
        rw [hw'.data, hid, hname', hk']
      · rw [hw'.table, htab, htable]
    · exact absurd hru (hv.1 hfu.sysOk (by simp [hfile, WalKeyFile.entries]))

/-! ### Replay of a run -/

/-- From `p` to `p'` the primary wrote a log that a standby can follow. -/
structure Followed (w : World) (p p' : Server) : Prop where
  sysOk : p.SysOk → p'.SysOk
  log : p.SysOk → ∃ rs, p'.xlog = p.xlog ++ rs ∧ ∀ s, Follows w p s → Replays w p' s rs

theorem Followed.refl (p : Server) : Followed w p p :=
  ⟨id, fun _ => ⟨[], by simp, fun _ h => .nil h⟩⟩

theorem Followed.trans {p'' : Server} (h : Followed w p p') (h' : Followed w p' p'') :
    Followed w p p'' := by
  refine ⟨fun hok => h'.sysOk (h.sysOk hok), fun hok => ?_⟩
  obtain ⟨rs, hrs, hr⟩ := h.log hok
  obtain ⟨rs', hrs', hr'⟩ := h'.log (h.sysOk hok)
  exact ⟨rs ++ rs', by rw [hrs', hrs, List.append_assoc], fun s hs => (hr s hs).append hr'⟩

/-- Steps that touch no file of a scope and log nothing. -/
theorem Followed.of_eq (hok : p.SysOk → p'.SysOk) (hx : p'.xlog = p.xlog)
    (hp : p'.providers = p.providers)
    (hk : ∀ a, p'.keyFiles (.keys a) = p.keyFiles (.keys a))
    (hw : p'.walKeys .walKeys = p.walKeys .walKeys) : Followed w p p' :=
  ⟨hok, fun _ => ⟨[], by rw [hx, List.append_nil], fun _ h => .nil (h.left hp hk hw)⟩⟩

/-- Where no system call fails, every step of the primary is one the standby follows. -/
theorem LoggedStep.followed (h : LoggedStep w p p') : Followed w p p' := by
  cases h with
  | quiet hq =>
      have hl := hq.loaded (w := w)
      exact .of_eq hq.sysOk hl.xlog hl.providers (fun a => by rw [hl.keyFiles]) (by rw [hl.walKeys])
  | load => exact .of_eq id rfl rfl (fun _ => rfl) rfl
  | tmp => exact .of_eq id rfl rfl (fun _ => by simp) rfl
  | tmpWal => exact .of_eq id rfl rfl (fun _ => rfl) (by simp)
  | brokenAdd hbad => exact ⟨id, fun hok => absurd hok hbad⟩
  | brokenDelete _ hbad => exact ⟨id, fun hok => absurd hok hbad⟩
  | brokenSave hbad => exact ⟨id, fun hok => absurd hok hbad⟩
  | brokenSaveServer hbad => exact ⟨id, fun hok => absurd hok hbad⟩
  | save hg hi hh => exact ⟨id, fun _ => ⟨_, rfl, fun s h => h.save hg hi hh⟩⟩
  | saveServer hi hh => exact ⟨id, fun _ => ⟨_, rfl, fun s h => h.saveServer hi hh⟩⟩
  | rotate hg hf _ hh => exact ⟨id, fun _ => ⟨_, rfl, fun s h => h.rotate hg hf hh⟩⟩
  | rotateServer hf hpk hr hh htable =>
      exact ⟨id, fun _ => ⟨_, rfl, fun s h => h.rotateServer hf hpk hr hh htable⟩⟩
  | delete hg => exact ⟨id, fun _ => ⟨_, rfl, fun s h => h.delete hg⟩⟩

theorem LoggedSteps.followed (h : LoggedSteps w p p') : Followed w p p' := by
  induction h with
  | refl => exact .refl p
  | tail _ h ih => exact ih.trans h.followed

/-- The operations on principal keys: all operations of a primary but those on relations and the
lookup that may fall back on the default key. -/
def LifecycleOp.onPrincipalKey : LifecycleOp → Bool
  | createRelationKey .. => false
  | removeRelationKey .. => false
  | removeLeftoverKey .. => false
  | getPrincipalKey _ => false
  | _ => true

/-- The operation does not delete the server key. -/
def LifecycleOp.KeepsServerKey (w : World) (s : Server) : LifecycleOp → Prop
  | deleteDefaultKey superuser => superuser = true → ¬DropsServerKey w s
  | _ => True

/-- No operation of the run deletes the server key. -/
def ServerKeyKept (w : World) : List LifecycleOp → Server → Prop
  | [], _ => True
  | op :: ops, s => op.KeepsServerKey w s ∧ ServerKeyKept w ops (after (op.exec w) s)

theorem LifecycleOp.exec_followed (op : LifecycleOp) (hop : op.onPrincipalKey = true)
    (hp : Consistent w p) (hkeeps : op.KeepsServerKey w p) :
    Followed w p (after (op.exec w) p) := by
  have hlogged : ∀ {m : M Unit}, wp m (fun _ t => LoggedSteps w p t)
      (fun _ t => LoggedSteps w p t) p → Followed w p (after m p) := fun h => h.after.followed
  cases op with
  | setKeyUsingDatabaseKeyProvider db c =>
      exact hlogged (setPrincipalKeyInternal_spec hp
        (.inr ⟨rfl, db.ne_default, db.ne_global⟩) c)
  | setKeyUsingGlobalKeyProvider db c =>
      exact hlogged (setPrincipalKeyInternal_spec hp (.inl rfl) c)
  | setServerKeyUsingGlobalKeyProvider c =>
      exact hlogged (setPrincipalKeyInternal_spec hp (.inl rfl) c)
  | setDefaultKeyUsingGlobalKeyProvider c =>
      exact hlogged (setDefaultKeyUsingGlobalKeyProvider_spec hp c)
  | deleteKey db => exact hlogged ((deleteKey_spec hp db).mono (fun _ _ h => h.1) fun _ _ h => h.1)
  | deleteDefaultKey superuser =>
      have h := (deleteDefaultKey_spec hp superuser (x := true) fun _ => hkeeps).after
      exact (h.1.2 rfl).followed
  | getPrincipalKeyNoDefault scope =>
      exact hlogged ((wp_bind ..).2 ((getPrincipalKeyNoDefault_spec (hp.scopes scope)).mono
        (fun _ t ht => ht.1.steps) fun _ t ht => ht.1.steps))
  | environment kms cipher dataCipher databases =>
      exact .of_eq id rfl rfl (fun _ => rfl) rfl
  | getPrincipalKey scope => cases hop
  | createRelationKey db spcOid relNumber => cases hop
  | removeRelationKey db spcOid relNumber => cases hop
  | removeLeftoverKey db spcOid relNumber => cases hop

theorem lifecycle_followed (ops : List LifecycleOp) (hops : ∀ op ∈ ops, op.onPrincipalKey = true)
    (hp : Consistent w p) (hkept : ServerKeyKept w ops p) :
    Followed w p (lifecycle w ops p) := by
  induction ops generalizing p with
  | nil => exact .refl p
  | cons op ops ih =>
      have hstep := op.exec_followed (hops op List.mem_cons_self) hp hkept.1
      exact hstep.trans (ih (fun o ho => hops o (List.mem_cons_of_mem op ho))
        (op.exec_consistent hp) hkept.2)

/-- A standby that starts as a copy of the primary: the same files, and nothing in the cache that
the files do not say. -/
structure StartsAs (w : World) (p s : Server) : Prop where
  providers : s.providers = p.providers
  keyFiles : s.keyFiles = p.keyFiles
  walKeys : s.walKeys = p.walKeys
  cache : ∀ scope k, s.cache scope = some k → principalKeyOf w s scope = some k

theorem StartsAs.follows (h : StartsAs w p s) (hp : Consistent w p) (hok : s.SysOk) :
    Follows w p s := by
  have hi : ∀ a, scopeInfo s a = scopeInfo p a := fun a =>
    scopeInfo_congr (fun _ => by rw [h.keyFiles]) fun _ => by rw [h.walKeys]
  have hpk : ∀ a, principalKeyOf w s a = principalKeyOf w p a := fun a =>
    principalKeyOf_congr (fun _ => by rw [h.providers]) (fun _ => by rw [h.keyFiles])
      fun _ => by rw [h.walKeys]
  refine ⟨h.providers, fun a => by rw [headerName, hi, headerName], fun a => ScopeOk.ready ?_, ?_,
    hok⟩
  · refine ⟨?_, ?_, h.cache a, ?_, ?_, ?_⟩
    · rw [hi, h.providers]
      exact (hp.scopes a).header
    · rw [h.keyFiles, hpk]
      exact (hp.scopes a).readable
    · rw [h.keyFiles]
      exact (hp.scopes a).bare
    · rw [h.keyFiles]
      exact (hp.scopes a).format
    · rw [h.walKeys]
      exact (hp.scopes a).walFormat
  · intro info entries k info' entries' k' hf hk hf' hk'
    rw [h.walKeys, hf] at hf'
    rw [hpk, hk] at hk'
    cases hf'
    cases hk'
    rfl

/-- After a run of principal-key operations none of which deletes the server key, replay of the
records of the run on a standby that started as a copy of the primary leaves it with the same
headers; and it goes to the end if the keyrings answer. -/
theorem principal_key_replay (w : World) (p s : Server) (hp : Consistent w p) (hpok : p.SysOk)
    (hs : StartsAs w p s) (hsok : s.SysOk) (ops : List LifecycleOp)
    (hops : ∀ op ∈ ops, op.onPrincipalKey = true) (hkept : ServerKeyKept w ops p) :
    ∃ rs, (lifecycle w ops p).xlog = p.xlog ++ rs ∧
      (∀ t, forM rs (tdeheapRmgrRedo w) s = .ok ⟨⟩ t →
        ∀ scope, headerName t scope = headerName (lifecycle w ops p) scope) ∧
      (s.KeyringsAnswer → ∃ t, forM rs (tdeheapRmgrRedo w) s = .ok ⟨⟩ t) := by
  obtain ⟨rs, hrs, hreplay⟩ := (lifecycle_followed ops hops hp hkept).log hpok
  have h : Replays w (lifecycle w ops p) s rs := hreplay s (hs.follows hp hsok)
  refine ⟨rs, hrs, fun t ht scope => ?_, fun hkms => ?_⟩
  · exact (h.of_ok ht).1.headers scope
  · cases hm : forM rs (tdeheapRmgrRedo w) s with
    | ok a t => exact ⟨t, rfl⟩
    | error e t => exact absurd hkms (h.of_error hm)

/-- A server key, a default key, a key for the database; the default key is deleted again. -/
def sampleKeyOps : List LifecycleOp :=
  [.setServerKeyUsingGlobalKeyProvider (sampleCall [65]),
    .setDefaultKeyUsingGlobalKeyProvider (sampleCall [66]),
    .setKeyUsingGlobalKeyProvider sampleDatabase (sampleCall [67]),
    .deleteDefaultKey true]

theorem sampleKeyOps_kept : ServerKeyKept sampleWorld sampleKeyOps sampleServer := by
  refine ⟨trivial, trivial, trivial, fun _ h => ?_, trivial⟩
  have hsame := h.same
  revert hsame
  decide +kernel

theorem principal_key_replay_sample :
    ∃ rs t, (lifecycle sampleWorld sampleKeyOps sampleServer).xlog = [] ++ rs ∧
      forM rs (tdeheapRmgrRedo sampleWorld) sampleServer = .ok ⟨⟩ t ∧
      ∀ scope, headerName t scope =
        headerName (lifecycle sampleWorld sampleKeyOps sampleServer) scope := by
  obtain ⟨rs, hrs, hagree, hok⟩ := principal_key_replay sampleWorld sampleServer sampleServer
    sampleServer_fresh.consistent (fun _ => rfl) ⟨rfl, rfl, rfl, fun _ _ h => by cases h⟩
    (fun _ => rfl) sampleKeyOps (by simp [sampleKeyOps, LifecycleOp.onPrincipalKey])
    sampleKeyOps_kept
  obtain ⟨t, ht⟩ := hok fun _ _ => rfl
  exact ⟨rs, t, hrs, ht, hagree t ht⟩

/-- A default key that is also the server key is set and deleted. -/
def sampleDropped : List LifecycleOp :=
  [.setDefaultKeyUsingGlobalKeyProvider (sampleCall [65]), .deleteDefaultKey true]

/-- Replay of the two operations goes to the end, and the standby is left with a server key that the
primary no longer has. -/
theorem principal_key_replay_drops :
    (∃ t, forM (lifecycle sampleWorld sampleDropped sampleServer).xlog
        (tdeheapRmgrRedo sampleWorld) sampleServer = .ok ⟨⟩ t ∧
      headerName t globalDataTdeOid = some (-1, [65])) ∧
    headerName (lifecycle sampleWorld sampleDropped sampleServer) globalDataTdeOid = none := by
  refine ⟨?_, by decide +kernel⟩
  have h : (match forM (lifecycle sampleWorld sampleDropped sampleServer).xlog
      (tdeheapRmgrRedo sampleWorld) sampleServer with
    | .ok _ t => headerName t globalDataTdeOid
    | .error _ _ => none) = some (-1, [65]) := by
    decide +kernel
  split at h
  · next t ht => exact ⟨t, ht, h⟩
  · cases h

end OpenPgTde
