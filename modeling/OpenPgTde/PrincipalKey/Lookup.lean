import OpenPgTde.Providers.Specs
import OpenPgTde.Xlog.Specs

/-!
What lookups return, whatever the files contain.

The other specifications of the lookups are about consistent servers, in which every entry can be
decrypted. Here nothing is assumed about entries, keys or versions: the outcome of a lookup, an error
included, is a function of the headers, the entries, the cache and what the keyrings answer. So two
servers that agree in these cannot be told apart by lookups.
-/

namespace OpenPgTde

open Lib.Effect

variable {w : World} {s t u : Server} {scope : Oid}

/-- Headers and cached keys are those of the scope they are found under. -/
structure OwnScopes (s : Server) : Prop where
  header : ∀ a info, scopeInfo s a = some info → info.data.databaseId = a
  cached : ∀ a k, s.cache a = some k → k.keyInfo.databaseId = a

/-! ### Principal keys -/

/-- What fetching the key that the header names comes to. -/
def fetchedKey (w : World) (s : Server) (scope : Oid) : Except TdeError (Option TDEPrincipalKey) :=
  match scopeInfo s scope with
  | none => .ok none
  | some info =>
    match getKeyProviderByID s.providers info.data.keyringId scope with
    | none => .error (.unknownKeyring info.data.keyringId)
    | some keyring =>
      match keyringGetKey w s.kms keyring info.data.name with
      | .error code => .error (.keyringFailed code)
      | .ok none => .error (.keyNotFound info.data.name)
      | .ok (some k) =>
        if verifyPrincipalKeyInfo w info k.data then .ok (some ⟨info.data, k.data⟩)
        else .error (.headerNotVerified info.data.name)

/-- The key of a scope, from the cache or else from the keyring. -/
def currentKey (w : World) (s : Server) (scope : Oid) : Except TdeError (Option TDEPrincipalKey) :=
  match s.cache scope with
  | some k => .ok (some k)
  | none => fetchedKey w s scope

/-- The key of a scope, or else the default key. -/
def usedKey (w : World) (s : Server) (scope : Oid) : Except TdeError (Option TDEPrincipalKey) :=
  match currentKey w s scope with
  | .ok none =>
    match currentKey w s defaultDataTdeOid with
    | .ok (some k) => .ok (some { k with keyInfo := { k.keyInfo with databaseId := scope } })
    | r => r
  | r => r

/-- At most the key of one scope has been fetched and put into the cache. -/
def Fetched (w : World) (s : Server) (scope : Oid) (t : Server) : Prop :=
  Quiet s t ∨ ∃ k, s.cache scope = none ∧ fetchedKey w s scope = .ok (some k) ∧
    Quiet (s.putCache scope (some k)) t

theorem fetchedKey_eq_ok_none (h : fetchedKey w s scope = .ok none) : scopeInfo s scope = none := by
  unfold fetchedKey at h
  split at h
  · assumption
  · split at h
    · cases h
    · split at h
      · cases h
      · cases h
      · split at h <;> cases h

theorem exists_info_of_fetchedKey {k : TDEPrincipalKey}
    (h : fetchedKey w s scope = .ok (some k)) :
    ∃ info, scopeInfo s scope = some info ∧ k.keyInfo = info.data := by
  unfold fetchedKey at h
  split at h
  · cases h
  · rename_i info hi
    split at h
    · cases h
    · split at h
      · cases h
      · cases h
      · split at h
        · cases h
          exact ⟨info, hi, rfl⟩
        · cases h

theorem OwnScopes.of_fetchedKey {k : TDEPrincipalKey} (hs : OwnScopes s)
    (h : fetchedKey w s scope = .ok (some k)) : k.keyInfo.databaseId = scope := by
  obtain ⟨info, hi, hk⟩ := exists_info_of_fetchedKey h
  rw [hk]
  exact hs.header scope info hi

theorem currentKey_eq_ok_none (h : currentKey w s scope = .ok none) :
    s.cache scope = none ∧ scopeInfo s scope = none := by
  unfold currentKey at h
  split at h
  · cases h
  · exact ⟨by assumption, fetchedKey_eq_ok_none h⟩

theorem OwnScopes.of_currentKey {k : TDEPrincipalKey} (hs : OwnScopes s)
    (h : currentKey w s scope = .ok (some k)) : k.keyInfo.databaseId = scope := by
  unfold currentKey at h
  split at h
  · rename_i k' hk'
    obtain rfl : k' = k := by simpa using h
    exact hs.cached scope k' hk'
  · exact hs.of_fetchedKey h

theorem Fetched.keyFiles (h : Fetched w s scope t) : t.keyFiles = s.keyFiles := by
  obtain h | ⟨k, -, -, h⟩ := h <;> exact h.keyFiles

theorem Fetched.walKeys (h : Fetched w s scope t) : t.walKeys = s.walKeys := by
  obtain h | ⟨k, -, -, h⟩ := h <;> exact h.walKeys

theorem Fetched.providers (h : Fetched w s scope t) : t.providers = s.providers := by
  obtain h | ⟨k, -, -, h⟩ := h <;> exact h.providers

theorem Fetched.kms (h : Fetched w s scope t) : t.kms = s.kms := by
  obtain h | ⟨k, -, -, h⟩ := h <;> exact (h.loaded (w := w)).kms

theorem Fetched.sysOk (h : Fetched w s scope t) (hs : s.SysOk) : t.SysOk := by
  obtain h | ⟨k, -, -, h⟩ := h <;> exact h.sysOk hs

theorem Fetched.cache_of_ne (h : Fetched w s scope t) {a : Oid} (ha : a ≠ scope) :
    t.cache a = s.cache a := by
  obtain h | ⟨k, -, -, h⟩ := h
  · rw [h.cache]
  · rw [h.cache, putCache_cache, Function.update_of_ne ha]

theorem fetchedKey_congr (hp : t.providers = s.providers) (hk : t.kms = s.kms)
    (hi : scopeInfo t scope = scopeInfo s scope) : fetchedKey w t scope = fetchedKey w s scope := by
  unfold fetchedKey
  rw [hp, hk, hi]

theorem Fetched.scopeInfo (h : Fetched w s scope t) (a : Oid) : scopeInfo t a = scopeInfo s a :=
  scopeInfo_congr (fun _ => by rw [h.keyFiles]) fun _ => by rw [h.walKeys]

theorem Fetched.fetchedKey (h : Fetched w s scope t) (a : Oid) :
    fetchedKey w t a = fetchedKey w s a :=
  fetchedKey_congr h.providers h.kms (h.scopeInfo a)

/-- Keeping a key that has been fetched does not show. -/
theorem Fetched.currentKey (h : Fetched w s scope t) (a : Oid) :
    currentKey w t a = currentKey w s a := by
  have hfetch := h.fetchedKey a
  obtain hq | ⟨k, hc, hk, hq⟩ := h
  · rw [OpenPgTde.currentKey, OpenPgTde.currentKey, hq.cache, hfetch]
  · by_cases ha : a = scope
    · subst ha
      rw [OpenPgTde.currentKey, OpenPgTde.currentKey, hq.cache, putCache_cache,
        Function.update_self, hc, hk]
    · rw [OpenPgTde.currentKey, OpenPgTde.currentKey, hq.cache, putCache_cache,
        Function.update_of_ne ha, hfetch]

theorem Fetched.ownScopes (h : Fetched w s scope t) (hs : OwnScopes s) : OwnScopes t := by
  refine ⟨fun a info hi => hs.header a info (by rwa [h.scopeInfo] at hi), fun a k hk => ?_⟩
  by_cases ha : a = scope
  · subst ha
    obtain hq | ⟨k', -, hk', hq⟩ := h
    · exact hs.cached a k (by rwa [hq.cache] at hk)
    · rw [hq.cache, putCache_cache, Function.update_self] at hk
      cases hk
      exact hs.of_fetchedKey hk'
  · exact hs.cached a k (by rwa [h.cache_of_ne ha] at hk)

theorem Quiet.ownScopes (h : Quiet s t) (hs : OwnScopes s) : OwnScopes t := by
  have hfetched : Fetched ⟨Lib.Aead.transparent, fun _ _ => none, nofun⟩ s 0 t := .inl h
  exact hfetched.ownScopes hs

theorem Quiet.currentKey (h : Quiet s t) (a : Oid) : currentKey w t a = currentKey w s a := by
  have hfetched : Fetched w s a t := .inl h
  exact hfetched.currentKey a

theorem getPrincipalKeyFromKeyring_outcome :
    wp (getPrincipalKeyFromKeyring w scope)
      (fun r t => fetchedKey w s scope = .ok r ∧ Quiet s t)
      (fun e t => (s.SysOk → fetchedKey w s scope = .error e) ∧ Quiet s t) s := by
  refine (wp_bind ..).2 (scopeInfo_spec.mono (fun r t ht => ?_) fun _ t h =>
    ⟨fun hok => absurd hok h.2, h.1⟩)
  obtain ⟨hq, rfl⟩ := ht
  have hp : t.providers = s.providers := hq.providers
  have hkms : t.kms = s.kms := (hq.loaded (w := w)).kms
  unfold fetchedKey
  cases scopeInfo s scope with
  | none => exact ⟨rfl, hq⟩
  | some info =>
      simp only [wp_bind, wp_get, hp, hkms]
      cases getKeyProviderByID s.providers info.data.keyringId scope with
      | none => exact ⟨fun _ => rfl, hq⟩
      | some keyring =>
          dsimp only
          cases keyringGetKey w s.kms keyring info.data.name with
          | error code => exact ⟨fun _ => rfl, hq⟩
          | ok key =>
              cases key with
              | none => exact ⟨fun _ => rfl, hq⟩
              | some k =>
                  simp only [wp_ite, wp_pure, wp_throw]
                  refine ⟨fun hver => ⟨by rw [if_pos hver], hq⟩, fun hver =>
                    ⟨fun _ => by rw [if_neg hver], hq⟩⟩

theorem getPrincipalKeyNoDefault_outcome (hs : OwnScopes s) :
    wp (getPrincipalKeyNoDefault w scope)
      (fun r t => currentKey w s scope = .ok r ∧ Fetched w s scope t ∧ t.cache scope = r)
      (fun e t => (s.SysOk → currentKey w s scope = .error e) ∧ Fetched w s scope t) s := by
  unfold getPrincipalKeyNoDefault currentKey
  simp only [wp_bind, wp_get]
  cases hc : s.cache scope with
  | some k => exact ⟨rfl, .inl (Quiet.refl s), hc⟩
  | none =>
      simp only [wp_bind]
      refine getPrincipalKeyFromKeyring_outcome.mono (fun r t ht => ?_) fun _ t ht =>
        ⟨ht.1, .inl ht.2⟩
      obtain ⟨hr, hq⟩ := ht
      have hct : t.cache scope = none := by rw [hq.cache, hc]
      cases r with
      | none => exact ⟨hr, .inl hq, hct⟩
      | some k =>
          have howner := hs.of_fetchedKey hr
          simp only [wp_bind]
          refine (pushPrincipalKeyToCache_spec k (by rw [howner, hct])).mono (fun _ v hv => ?_)
            fun _ v hv => ⟨fun hok => absurd (hq.sysOk hok) hv.2, ?_⟩
          · rw [howner] at hv
            have hcv : v.cache scope = some k := by
              rw [hv.cache, putCache_cache, Function.update_self]
            simp only [wp_get, wp_pure, hcv]
            exact ⟨hr, .inr ⟨k, hc, hr, (hq.putCache _ _).trans hv⟩, trivial⟩
          · rw [howner] at hv
            exact .inr ⟨k, hc, hr, (hq.putCache _ _).trans hv.1⟩

/-- Whether the lookup takes over the default key, and what is in the files afterwards. -/
inductive Used (w : World) (s : Server) (scope : Oid) (r : Option TDEPrincipalKey) (t : Server) :
    Prop
  | own (hr : currentKey w s scope = .ok none → r = none) (hf : t.keyFiles = s.keyFiles)
      (hw : t.walKeys = s.walKeys)
  | default (hnone : currentKey w s scope = .ok none)
      (hw : scope = globalDataTdeOid → ∃ info, t.walKeys .walKeys = some (.current info []))

theorem usedKey_of_ne {r : Except TdeError (Option TDEPrincipalKey)}
    (h : currentKey w s scope = r) (hr : r ≠ .ok none) : usedKey w s scope = r := by
  unfold usedKey
  rw [h]
  split
  · exact absurd rfl hr
  · rfl

theorem getPrincipalKey_outcome (hs : OwnScopes s) :
    wp (getPrincipalKey w scope)
      (fun r t => usedKey w s scope = .ok r ∧ (s.SysOk → t.SysOk) ∧ Used w s scope r t)
      (fun e _ => s.SysOk → usedKey w s scope = .error e) s := by
  refine (wp_bind ..).2 ((getPrincipalKeyNoDefault_outcome hs).mono (fun r t ht => ?_)
    fun e t ht hok => usedKey_of_ne (ht.1 hok) nofun)
  obtain ⟨hr, ht, hct⟩ := ht
  cases r with
  | some k =>
      exact ⟨usedKey_of_ne hr nofun, ht.sysOk, .own (fun h => by rw [hr] at h; cases h) ht.keyFiles
        ht.walKeys⟩
  | none =>
      have hused : ∀ r', currentKey w s defaultDataTdeOid = r' → usedKey w s scope =
          match r' with
          | .ok (some k) => .ok (some { k with keyInfo := { k.keyInfo with databaseId := scope } })
          | r' => r' := by
        rintro _ rfl
        rw [usedKey, hr]
      refine (wp_bind ..).2 ((getPrincipalKeyNoDefault_outcome (ht.ownScopes hs)).mono
        (fun d u hu => ?_) fun e u hu hok => ?_)
      · obtain ⟨hd, hu, -⟩ := hu
        rw [ht.currentKey] at hd
        cases d with
        | none =>
            exact ⟨hused _ hd, fun hok => hu.sysOk (ht.sysOk hok), .own (fun _ => rfl)
              (hu.keyFiles.trans ht.keyFiles) (hu.walKeys.trans ht.walKeys)⟩
        | some k =>
            have hne : scope ≠ defaultDataTdeOid := by
              rintro rfl
              rw [hr] at hd
              cases hd
            have hcu : u.cache scope = none := by rw [hu.cache_of_ne hne, hct]
            have hok : s.SysOk → u.SysOk := fun hok => hu.sysOk (ht.sysOk hok)
            -- the header is written, then the key goes into the cache
            have hpush : ∀ {v x : Server}, Quiet x v → x.cache = u.cache → (u.SysOk → x.SysOk) →
                (scope = globalDataTdeOid → ∃ info, x.walKeys .walKeys = some (.current info [])) →
                wp (do
                  pushPrincipalKeyToCache
                    { k with keyInfo := { k.keyInfo with databaseId := scope } }
                  getPrincipalKeyNoDefault w scope)
                (fun r t => usedKey w s scope = .ok r ∧ (s.SysOk → t.SysOk) ∧ Used w s scope r t)
                (fun e _ => s.SysOk → usedKey w s scope = .error e) v := by
              intro v x hv hcx hokx hwx
              have hcv : v.cache scope = none := by rw [hv.cache, hcx, hcu]
              have hokv : s.SysOk → v.SysOk := fun h => hv.sysOk (hokx (hok h))
              refine (wp_bind ..).2 ((pushPrincipalKeyToCache_spec _ hcv).mono (fun _ y hy => ?_)
                fun _ y hy h => absurd (hokv h) hy.2)
              have hcy : y.cache scope =
                  some { k with keyInfo := { k.keyInfo with databaseId := scope } } := by
                rw [hy.cache, putCache_cache, Function.update_self]
              unfold getPrincipalKeyNoDefault
              simp only [wp_bind, wp_get, hcy, wp_pure]
              refine ⟨hused _ hd, fun h => hy.sysOk (hokv h), .default hr fun hg => ?_⟩
              rw [hy.walKeys, putCache_walKeys, hv.walKeys]
              exact hwx hg
            refine (wp_ite ..).2 ⟨fun hg => ?_, fun hg => ?_⟩
            · refine (wp_bind ..).2 ((saveServerKey_spec _ false).mono (fun _ v hv => ?_)
                fun _ v hv h => absurd (hok h) hv.1)
              obtain ⟨info, -, -, hv⟩ := hv
              rw [if_neg (by decide), logged_nil] at hv
              exact hpush hv rfl id fun _ => ⟨info, by simp⟩
            · refine (wp_bind ..).2 ((savePrincipalKey_spec _ false).mono (fun _ v hv => ?_)
                fun _ v hv h => absurd (hok h) hv.1)
              obtain ⟨info, -, -, hv⟩ := hv
              rw [if_neg (by decide), logged_nil] at hv
              exact hpush hv rfl id fun h => absurd h hg
      · have hd := hu.1 (ht.sysOk hok)
        rw [ht.currentKey] at hd
        exact hused _ hd

/-! ### Relation keys -/

/-- What a lookup of a relation's key comes to. An entry is in a file with a header, so the default
key is of no concern. -/
def smgrKeyOutcome (w : World) (s : Server) (rel : RelFileLocator) :
    Except TdeError (Option InternalKey) :=
  match s.keyFiles (.keys rel.dbOid) with
  | none => .ok none
  | some f =>
    match f.entries with
    | none => .error (.wrongVersion (.keys rel.dbOid))
    | some entries =>
      match entries.find? (TDEMapEntry.isKeyOf rel.spcOid rel.relNumber) with
      | none => .ok none
      | some e =>
        match usedKey w s rel.dbOid with
        | .error err => .error err
        | .ok none => .error .principalKeyNotConfigured
        | .ok (some pk) =>
          match e.unwrap w pk.keyData with
          | none => .error .decryptFailed
          | some k => .ok (some k)

theorem usedKey_congr (h : ∀ a, currentKey w t a = currentKey w s a) (scope : Oid) :
    usedKey w t scope = usedKey w s scope := by
  unfold usedKey
  rw [h, h]

theorem getSmgrKey_outcome (hs : OwnScopes s) (rel : RelFileLocator) :
    wp (getSmgrKey w rel) (fun r _ => smgrKeyOutcome w s rel = .ok r)
      (fun e _ => s.SysOk → smgrKeyOutcome w s rel = .error e) s := by
  unfold getSmgrKey smgrKeyOutcome
  simp only [wp_bind, wp_get]
  cases hf : s.keyFiles (.keys rel.dbOid) with
  | none => rfl
  | some f =>
      dsimp only
      refine (wp_bind ..).2 ((findMapEntry_reads rel).mono (fun r t ht => ?_)
        fun e t ht hok => ?_)
      · obtain ⟨hq, rfl, hne⟩ := ht
        rw [hf, Option.bind_some] at hne ⊢
        obtain ⟨entries, hent⟩ := Option.ne_none_iff_exists'.1 hne
        rw [hent]
        dsimp only [Option.getD_some]
        cases entries.find? (TDEMapEntry.isKeyOf rel.spcOid rel.relNumber) with
        | none => rfl
        | some e =>
            have hcur : ∀ a, currentKey w t a = currentKey w s a := hq.currentKey
            refine (wp_bind ..).2 ((getPrincipalKey_outcome (hq.ownScopes hs)).mono
              (fun r u hu => ?_) fun err u hu hok => ?_)
            · obtain ⟨hr, -⟩ := hu
              rw [usedKey_congr hcur] at hr
              rw [hr]
              cases r with
              | none => exact fun _ => rfl
              | some pk =>
                  dsimp only
                  unfold decryptRelKey
                  cases e.unwrap w pk.keyData with
                  | none => exact fun _ => rfl
                  | some k => rfl
            · have hr := hu (hq.sysOk hok)
              rw [usedKey_congr hcur] at hr
              rw [hr]
      · obtain ⟨hnone, herr⟩ := ht.2.2 hok
        rw [hf, Option.bind_some] at hnone
        rw [hnone, herr (by rw [hf]; exact Option.some_ne_none _)]

/-! ### Ranges of the WAL -/

/-- What reading the entries of the WAL key file comes to. -/
def fileEntries (s : Server) : Except TdeError (List WalKeyFileEntry) :=
  match s.walKeys .walKeys with
  | none => .error .couldNotOpenWal
  | some f =>
    match f.entries with
    | none => .error .wrongWalVersion
    | some entries => .ok entries

/-- The same after a lookup of the key. A file that gets its header only then has no entries. -/
def foundEntries (w : World) (s : Server) : Except TdeError (List WalKeyFileEntry) :=
  match currentKey w s globalDataTdeOid with
  | .ok none => .ok []
  | _ => fileEntries s

/-- What a lookup of the last range comes to. -/
def lastRangeOutcome (w : World) (s : Server) : Except TdeError (Option WalEncryptionRange) :=
  match usedKey w s globalDataTdeOid with
  | .error e => .error e
  | .ok none => .ok none
  | .ok (some pk) =>
    match foundEntries w s with
    | .error e => .error e
    | .ok entries =>
      match entries.getLast? with
      | none => .ok none
      | some e =>
        match walRangeOfEntry w pk.keyData e with
        | none => .error .decryptFailed
        | some range => .ok (some range)

/-- What a fetch of the ranges from a location on comes to: the ranges that are added to the list. -/
def fetchedRanges (w : World) (s : Server) (start : WalLocation) :
    Except TdeError (List WalEncryptionRange) :=
  match usedKey w s globalDataTdeOid with
  | .error e => .error e
  | .ok none => .ok []
  | .ok (some pk) =>
    match foundEntries w s with
    | .error e => .error e
    | .ok [] => .ok [noWalRange]
    | .ok entries =>
      match (entries.filter (isFetched start)).mapM (walRangeOfEntry w pk.keyData) with
      | none => .error .decryptFailed
      | some ranges => .ok ranges

theorem openWalKeyFileRead_outcome :
    wp (openWalKeyFileRead .walKeys false) (fun r _ => ∃ es, r = some es ∧ fileEntries s = .ok es)
      (fun e _ => s.SysOk → fileEntries s = .error e) s := by
  refine (wp_bind ..).2 ((sysCall_spec _).mono (fun _ t ht => ?_) fun _ t h hok => absurd hok h.2.2)
  simp only [wp_bind, wp_get, ht.walKeys, fileEntries]
  cases s.walKeys .walKeys with
  | none => exact fun _ => rfl
  | some f => cases f <;> first | exact ⟨_, rfl, rfl⟩ | exact fun _ => rfl

theorem Used.fileEntries {pk : TDEPrincipalKey} (h : Used w s globalDataTdeOid (some pk) t) :
    fileEntries t = foundEntries w s := by
  unfold foundEntries
  cases h with
  | own hr hf hw =>
      have hsame : OpenPgTde.fileEntries t = OpenPgTde.fileEntries s := by
        unfold OpenPgTde.fileEntries
        rw [hw]
      split
      · rename_i hnone
        cases hr hnone
      · exact hsame
  | default hnone hw =>
      obtain ⟨info, hw⟩ := hw rfl
      rw [hnone]
      simp [OpenPgTde.fileEntries, hw, WalKeyFile.entries]

theorem readLastWalRange_outcome (hs : OwnScopes s) :
    wp (readLastWalRange w) (fun r _ => lastRangeOutcome w s = .ok r)
      (fun e _ => s.SysOk → lastRangeOutcome w s = .error e) s := by
  unfold lastRangeOutcome
  refine (wp_bind ..).2 ((getPrincipalKey_outcome hs).mono (fun r t ht => ?_) fun e t ht hok => ?_)
  · obtain ⟨hr, hok, ht⟩ := ht
    rw [hr]
    cases r with
    | none => rfl
    | some pk =>
        dsimp only
        refine (wp_bind ..).2 (openWalKeyFileRead_outcome.mono (fun r u hu => ?_)
          fun e u hu hs => ?_)
        · obtain ⟨entries, rfl, hent⟩ := hu
          rw [ht.fileEntries] at hent
          rw [hent]
          dsimp only [Option.getD_some]
          cases entries.getLast? with
          | none => rfl
          | some e =>
              dsimp only
              unfold walRangeFromEntry
              cases walRangeOfEntry w pk.keyData e with
              | none => exact fun _ => rfl
              | some range => rfl
        · have hent := hu (hok hs)
          rw [ht.fileEntries] at hent
          rw [hent]
  · rw [ht hok]

/-- The loop adds what the entries decrypt to, or stops at the first one that does not decrypt. -/
theorem fetchLoop_outcome (pk : TDEPrincipalKey) (entries : List WalKeyFileEntry) (x : WalState) :
    wp (forM entries fun e => do
        let range ← onServer (walRangeFromEntry w pk e)
        addWalRangeToCache range)
      (fun _ y => ∃ ranges, entries.mapM (walRangeOfEntry w pk.keyData) = some ranges ∧
        y.process.cache = ranges.foldl (fun cache r => addWalRange r cache) x.process.cache)
      (fun e _ => entries.mapM (walRangeOfEntry w pk.keyData) = none ∧ e = .decryptFailed) x := by
  induction entries generalizing x with
  | nil => exact ⟨[], rfl, rfl⟩
  | cons e entries ih =>
      rw [List.forM_cons, wp_bind, wp_bind, wp_onServer]
      simp only [List.mapM_cons]
      unfold walRangeFromEntry
      cases walRangeOfEntry w pk.keyData e with
      | none => exact ⟨rfl, rfl⟩
      | some range =>
          refine (ih _).mono (fun _ y hy => ?_) fun err y hy => ⟨?_, hy.2⟩
          · obtain ⟨ranges, hr, hy⟩ := hy
            exact ⟨range :: ranges, by rw [hr]; rfl, hy⟩
          · rw [hy.1]
            rfl

/-- The list of ranges after a fetch. -/
def cacheAfterFetch (w : World) (start : WalLocation) (x : WalState) :
    Except TdeError (List WalEncryptionRange) :=
  match fetchWalKeys w start x with
  | .ok _ y => .ok y.process.cache
  | .error e _ => .error e

theorem fetchWalKeys_outcome {x : WalState} (hs : OwnScopes x.server) (start : WalLocation) :
    wp (fetchWalKeys w start)
      (fun _ y => ∃ ranges, fetchedRanges w x.server start = .ok ranges ∧
        y.process.cache = ranges.foldl (fun cache r => addWalRange r cache) x.process.cache)
      (fun e _ => x.server.SysOk → fetchedRanges w x.server start = .error e) x := by
  unfold fetchedRanges
  rw [fetchWalKeys, wp_bind, wp_onServer]
  refine (getPrincipalKey_outcome hs).mono (fun r t ht => ?_) fun e t ht hok => ?_
  · obtain ⟨hr, hok, ht⟩ := ht
    rw [hr]
    cases r with
    | none => exact ⟨[], rfl, rfl⟩
    | some pk =>
        dsimp only
        rw [wp_bind, wp_onServer]
        refine openWalKeyFileRead_outcome.mono (fun r u hu => ?_) fun e u hu hs => ?_
        · obtain ⟨entries, rfl, hent⟩ := hu
          rw [ht.fileEntries] at hent
          rw [hent]
          cases entries with
          | nil => exact ⟨[noWalRange], rfl, rfl⟩
          | cons e entries =>
              refine (fetchLoop_outcome pk _ _).mono (fun _ y hy => ?_) fun err y hy _ => ?_
              · obtain ⟨ranges, hr, hy⟩ := hy
                exact ⟨ranges, by simp only [hr], hy⟩
              · obtain ⟨hnone, rfl⟩ := hy
                simp only [hnone]
        · have hent := hu (hok hs)
          rw [ht.fileEntries] at hent
          rw [hent]
  · rw [ht hok]

/-! ### Servers that lookups cannot tell apart -/

/-- The same keys and entries for every lookup. -/
structure LooksLike (w : World) (s t : Server) : Prop where
  keyFiles : ∀ db, t.keyFiles (.keys db) = s.keyFiles (.keys db)
  walKeys : t.walKeys .walKeys = s.walKeys .walKeys
  currentKey : ∀ a, currentKey w t a = currentKey w s a

theorem LooksLike.smgrKeyOutcome (h : LooksLike w s t) (rel : RelFileLocator) :
    smgrKeyOutcome w t rel = smgrKeyOutcome w s rel := by
  unfold OpenPgTde.smgrKeyOutcome
  rw [h.keyFiles, usedKey_congr h.currentKey]

theorem LooksLike.foundEntries (h : LooksLike w s t) : foundEntries w t = foundEntries w s := by
  unfold OpenPgTde.foundEntries fileEntries
  rw [h.currentKey, h.walKeys]

theorem LooksLike.getSmgrKey (h : LooksLike w s t) (hs : OwnScopes s) (ht : OwnScopes t)
    (hoks : s.SysOk) (hokt : t.SysOk) (rel : RelFileLocator) :
    outcome (getSmgrKey w rel) t = outcome (getSmgrKey w rel) s := by
  have hout : ∀ {u : Server}, OwnScopes u → u.SysOk →
      outcome (OpenPgTde.getSmgrKey w rel) u = OpenPgTde.smgrKeyOutcome w u rel := fun hu hok =>
    outcome_eq ((getSmgrKey_outcome hu rel).mono (fun _ _ h => h) fun _ _ h => h hok)
  rw [hout hs hoks, hout ht hokt, h.smgrKeyOutcome]

theorem LooksLike.readLastWalRange (h : LooksLike w s t) (hs : OwnScopes s) (ht : OwnScopes t)
    (hoks : s.SysOk) (hokt : t.SysOk) :
    outcome (readLastWalRange w) t = outcome (readLastWalRange w) s := by
  have hout : ∀ {u : Server}, OwnScopes u → u.SysOk →
      outcome (OpenPgTde.readLastWalRange w) u = lastRangeOutcome w u := fun hu hok =>
    outcome_eq ((readLastWalRange_outcome hu).mono (fun _ _ h => h) fun _ _ h => h hok)
  rw [hout hs hoks, hout ht hokt, lastRangeOutcome, lastRangeOutcome, usedKey_congr h.currentKey,
    h.foundEntries]

theorem LooksLike.cacheAfterFetch (h : LooksLike w s t) (hs : OwnScopes s) (ht : OwnScopes t)
    (hoks : s.SysOk) (hokt : t.SysOk) (start loc : WalLocation) (p : WalProcess) :
    cacheAfterFetch w start ⟨t, loc, p⟩ = cacheAfterFetch w start ⟨s, loc, p⟩ := by
  have hout : ∀ {u : Server}, OwnScopes u → u.SysOk →
      OpenPgTde.cacheAfterFetch w start ⟨u, loc, p⟩ =
        (fetchedRanges w u start).map fun ranges =>
          ranges.foldl (fun cache r => addWalRange r cache) p.cache := by
    intro u hu hok
    have hspec := fetchWalKeys_outcome (w := w) (x := ⟨u, loc, p⟩) hu start
    unfold wp at hspec
    unfold OpenPgTde.cacheAfterFetch
    cases hm : fetchWalKeys w start ⟨u, loc, p⟩ with
    | ok a y =>
        rw [hm] at hspec
        obtain ⟨ranges, hr, hy⟩ := hspec
        simp only [hr, hy, Except.map]
    | error e y =>
        rw [hm] at hspec
        simp only [hspec hok, Except.map]
  rw [hout hs hoks, hout ht hokt, fetchedRanges, fetchedRanges, usedKey_congr h.currentKey,
    h.foundEntries]

end OpenPgTde
