import OpenPgTde.Lib.Schedule
import OpenPgTde.KeyMap.Refinement

/-!
Looking up a relation key while other processes rotate the principal key.

`open_pg_tde_get_smgr_key` takes the lock in shared mode, reads the map entry of the relation and
asks for the principal key. If the key is in the cache, the entry is decrypted in the same critical
section. If it is not, the lock is released and taken again in exclusive mode, and the entry that
was read before is decrypted with the key that is found then. The routine is cut at that place; the
two sections in a row are the routine of `Operations`. A rotation is a critical section of its own,
and may be the one that runs in between.
-/

namespace OpenPgTde

open Lib.Effect Lib.SlotArray Lib.Schedule

variable {w : World} {s t : Server}

/-! ### The critical sections of a lookup -/

/-- `GetPrincipalKeyNoDefault` from where it takes the lock in exclusive mode. The cache is not
looked at again before the keyring is asked. -/
def loadPrincipalKey (w : World) (dbOid : Oid) : M (Option TDEPrincipalKey) := do
  match ← getPrincipalKeyFromKeyring w dbOid with
  | none => pure none
  | some k => do
    pushPrincipalKeyToCache k
    let s ← get
    pure (s.cache dbOid)

/-- The part of `GetPrincipalKey` for a scope without a key of its own. -/
def takeDefaultKey (w : World) (dbOid : Oid) : M (Option TDEPrincipalKey) := do
  match ← getPrincipalKeyNoDefault w defaultDataTdeOid with
  | none => pure none
  | some k => do
    let newKey : TDEPrincipalKey := { k with keyInfo := { k.keyInfo with databaseId := dbOid } }
    if dbOid = globalDataTdeOid then saveServerKey w newKey false
    else savePrincipalKey w newKey false
    pushPrincipalKeyToCache newKey
    getPrincipalKeyNoDefault w dbOid

/-- The section in shared mode: it ends with the result, or with an entry for which there is no
key in the cache. -/
def getSmgrKeyShared (w : World) (rel : RelFileLocator) :
    M (Option InternalKey ⊕ TDEMapEntry) := do
  match ← findMapEntry rel with
  | none => pure (.inl none)
  | some e => do
    let s ← get
    match s.cache rel.dbOid with
    | none => pure (.inr e)
    | some pk => do
      let k ← decryptRelKey w pk e
      pure (.inl (some k))

/-- The section in exclusive mode, for the entry that was found in shared mode. -/
def getSmgrKeyExclusive (w : World) (rel : RelFileLocator) (e : TDEMapEntry) :
    M (Option InternalKey) := do
  match ← loadPrincipalKey w rel.dbOid with
  | some pk => do
    let k ← decryptRelKey w pk e
    pure (some k)
  | none =>
    match ← takeDefaultKey w rel.dbOid with
    | none => throw .principalKeyNotConfigured
    | some pk => do
      let k ← decryptRelKey w pk e
      pure (some k)

/-- A lookup of a principal key takes the lock in exclusive mode after a miss in the cache. -/
theorem getPrincipalKey_eq (dbOid : Oid) : getPrincipalKey w dbOid = (do
    let s ← get
    match ← (match s.cache dbOid with
      | some k => pure (some k)
      | none => loadPrincipalKey w dbOid) with
    | some k => pure (some k)
    | none => takeDefaultKey w dbOid) := rfl

/-- The routine is its two sections, one after the other. -/
theorem getSmgrKey_eq (rel : RelFileLocator) : getSmgrKey w rel = (do
    let s ← get
    match s.keyFiles (.keys rel.dbOid) with
    | none => pure none
    | some _ =>
      match ← getSmgrKeyShared w rel with
      | .inl r => pure r
      | .inr e => getSmgrKeyExclusive w rel e) := by
  unfold getSmgrKey
  refine bind_congr fun s => ?_
  cases s.keyFiles (.keys rel.dbOid) with
  | none => rfl
  | some f =>
      simp only [getSmgrKeyShared, bind_assoc]
      refine bind_congr fun e => ?_
      cases e with
      | none => rfl
      | some e =>
          simp only [getPrincipalKey_eq, bind_assoc]
          refine bind_congr fun t => ?_
          cases t.cache rel.dbOid with
          | some k => simp only [pure_bind, bind_assoc]
          | none =>
              simp only [pure_bind, getSmgrKeyExclusive]
              refine bind_congr fun r => ?_
              cases r <;> rfl

/-! ### What the sections do -/

/-- The entry decrypts, under the principal key that the database has now, to the key of the
relation. -/
def Opens (w : World) (s : Server) (rel : RelFileLocator) (ik : InternalKey) (e : TDEMapEntry) :
    Prop :=
  relationKeys w s rel.dbOid (rel.spcOid, rel.relNumber) = some ik ∧
    ∃ pk, principalKeyOf w s rel.dbOid = some pk ∧ e.unwrap w pk.keyData = some ik

/-- A relation that has a key is in a database that has a principal key. -/
theorem exists_of_relationKeys {db : Oid} {rel : Oid × UInt32} (h : relationKeys w s db rel ≠ none) :
    ∃ info entries pk, s.keyFiles (.keys db) = some (.current info entries) ∧
      principalKeyOf w s db = some pk := by
  unfold relationKeys relationTable at h
  split at h
  · next info entries pk hf hk => exact ⟨info, entries, pk, hf, hk⟩
  · exact absurd rfl h

/-- The section in shared mode returns the key of the relation, or has an entry in hand that
decrypts to it now. -/
theorem getSmgrKeyShared_spec (hs : Consistent w s) (rel : RelFileLocator)
    (hg : rel.dbOid ≠ globalDataTdeOid) :
    wp (getSmgrKeyShared w rel)
      (fun r t => Quiet s t ∧ (∀ e, r = .inr e → ∃ ik, Opens w s rel ik e) ∧
        ∀ k, r = .inl k → k = relationKeys w s rel.dbOid (rel.spcOid, rel.relNumber))
      (fun err t => Quiet s t ∧ err ≠ .decryptFailed ∧
        (relationKeys w s rel.dbOid (rel.spcOid, rel.relNumber) ≠ none → ¬s.SysOk)) s := by
  refine (wp_bind ..).2 ((findMapEntry_reads rel).mono (fun r t ht => ?_) fun err t h =>
    ⟨h.1, h.2.1, fun hk hok => ?_⟩)
  · obtain ⟨hq, rfl, -⟩ := ht
    by_cases hi : scopeInfo s rel.dbOid = none
    · -- without a header there are no entries
      have hnone : ((s.keyFiles (.keys rel.dbOid)).bind KeyFile.entries).getD [] = [] := by
        obtain hf | hf := file_of_scopeInfo_none hg hi <;> rw [hf] <;> rfl
      rw [hnone, relationKeys_of_scopeInfo_none hi]
      exact ⟨hq, fun e he => by simp at he, fun k hk => by simpa using hk.symm⟩
    · obtain ⟨pk, hk⟩ : ∃ pk, principalKeyOf w s rel.dbOid = some pk :=
        Option.ne_none_iff_exists'.1 fun h => hi ((hs.scopes rel.dbOid).principalKeyOf_none.1 h)
      obtain ⟨info, entries, hf, -, hr⟩ := (hs.scopes rel.dbOid).exists_current hg hk
      have hkeys := relationKeys_of_current hf hk (rel.spcOid, rel.relNumber)
      rw [hkeys, entries_of_current hf]
      cases he : entries.find? (TDEMapEntry.isKeyOf rel.spcOid rel.relNumber) with
      | none => exact ⟨hq, fun e he => by simp at he, fun k hk => by simpa using hk.symm⟩
      | some e =>
          have hkey : e.type = .key := (isKeyOf_iff.1 (List.find?_some he)).1
          obtain ⟨ik, hik⟩ := Option.isSome_iff_exists.1
            (hr e (List.mem_of_find?_eq_some he) hkey)
          have hcache : t.cache = s.cache := by
            obtain ⟨_, _, _, _, rfl⟩ := hq
            rfl
          simp only [wp_bind, wp_get, hcache]
          cases hc : s.cache rel.dbOid with
          | none =>
              refine ⟨hq, fun e' he' => ⟨ik, ?_, pk, hk, ?_⟩, fun k hk => by simp at hk⟩
              · rw [hkeys, he, Option.bind_some, hik]
              · obtain rfl : e = e' := by simpa using he'
                exact hik
          | some pk' =>
              have hsame : pk' = pk := by
                have := (hs.scopes rel.dbOid).cached pk' hc
                rw [hk] at this
                exact (Option.some.inj this).symm
              subst hsame
              simp only [wp_bind]
              refine (decryptRelKey_spec pk' e).mono (fun ik' u hu => ?_) fun _ u hu => ?_
              · obtain ⟨rfl, hu⟩ := hu
                refine ⟨hq, fun e he => by simp at he, fun k hk => ?_⟩
                rw [Option.bind_some, hu]
                simpa using hk.symm
              · rw [hik] at hu
                cases hu.2
  · obtain ⟨info, entries, -, hf, -⟩ := exists_of_relationKeys hk
    have hnone := (h.2.2 hok).1
    rw [hf] at hnone
    cases hnone

/-- Whatever error the routine raises, it is not a failed decryption. -/
def DecryptsNothing {α : Type} (m : M α) : Prop :=
  ∀ s, wp m (fun _ _ => True) (fun err _ => err ≠ .decryptFailed) s

theorem DecryptsNothing.bind {α β : Type} {m : M α} {f : α → M β} (hm : DecryptsNothing m)
    (hf : ∀ a, DecryptsNothing (f a)) : DecryptsNothing (m >>= f) := fun s =>
  (wp_bind ..).2 ((hm s).mono (fun a t _ => hf a t) fun _ _ h => h)

theorem decryptsNothing_sysCall {err : TdeError} (h : err ≠ .decryptFailed) :
    DecryptsNothing (sysCall err) := fun _ =>
  (sysCall_spec err).mono (fun _ _ _ => trivial) fun _ _ h' => by rwa [h'.1]

theorem decryptsNothing_fromKeyring (scope : Oid) :
    DecryptsNothing (getPrincipalKeyFromKeyring w scope) := by
  refine .bind (m := if scope = globalDataTdeOid then getServerKeyInfo else
    getPrincipalKeyInfo scope) ?_ fun r => ?_
  · split
    · exact .bind (decryptsNothing_sysCall (by simp)) fun _ _ => trivial
    · exact .bind (decryptsNothing_sysCall (by simp)) fun _ _ => trivial
  · cases r with
    | none => exact fun _ => trivial
    | some info =>
        intro s
        simp only [wp_bind, wp_get]
        cases getKeyProviderByID s.providers info.data.keyringId scope with
        | none => exact TdeError.noConfusion
        | some keyring =>
            dsimp only
            cases keyringGetKey w s.kms keyring info.data.name with
            | error code => exact TdeError.noConfusion
            | ok key =>
                cases key with
                | none => exact TdeError.noConfusion
                | some k =>
                    simp only [wp_ite, wp_pure, wp_throw]
                    exact ⟨fun _ => trivial, fun _ => TdeError.noConfusion⟩

theorem decryptsNothing_loadPrincipalKey (scope : Oid) :
    DecryptsNothing (loadPrincipalKey w scope) := by
  refine (decryptsNothing_fromKeyring scope).bind fun r => ?_
  cases r with
  | none => exact fun _ => trivial
  | some k =>
      refine .bind (.bind (fun _ => trivial) fun s => ?_) fun _ _ => trivial
      dsimp only
      split
      · exact .bind (fun _ => trivial) fun _ => decryptsNothing_sysCall (by simp)
      · exact decryptsNothing_sysCall (by simp)

theorem loadPrincipalKey_spec {scope : Oid} {pk : TDEPrincipalKey} (hs : ScopeOk w s scope)
    (hk : principalKeyOf w s scope = some pk) :
    wp (loadPrincipalKey w scope) (fun r t => Loaded w s t ∧ r = some pk)
      (fun _ t => Loaded w s t ∧ (s.SysOk → ¬Reachable w s scope)) s := by
  cases hc : s.cache scope with
  | none =>
      have hrun : loadPrincipalKey w scope s = getPrincipalKeyNoDefault w scope s := by
        unfold getPrincipalKeyNoDefault
        show _ = (match s.cache scope with
          | some k => pure (some k)
          | none => loadPrincipalKey w scope : M _) s
        rw [hc]
      have hspec := (getPrincipalKeyNoDefault_spec hs).mono
        (fun r t ht => (⟨ht.1, by rw [ht.2.1, hk]⟩ : Loaded w s t ∧ r = some pk))
        (fun _ t ht => (⟨ht.1, fun hok => (ht.2 hok).2⟩ : Loaded w s t ∧
          (s.SysOk → ¬Reachable w s scope)))
      unfold wp at hspec ⊢
      rwa [hrun]
  | some k =>
      obtain rfl : pk = k := by
        have := hs.cached k hc
        rw [hk] at this
        exact Option.some.inj this
      refine (wp_bind ..).2 (getPrincipalKeyFromKeyring_spec.mono (fun r t ht => ?_)
        fun _ t ht => ⟨ht.1.loaded, ht.2⟩)
      obtain ⟨hq, rfl, -⟩ := ht
      rw [hk]
      have hct : t.cache = s.cache := by
        obtain ⟨_, _, _, _, rfl⟩ := hq
        rfl
      have howner := hs.owner hk
      have hpush : pushPrincipalKeyToCache pk t = sysCall .mlockFailed t := by
        unfold pushPrincipalKeyToCache
        show ((do
          if (t.cache pk.keyInfo.databaseId).isNone then
            set (t.putCache pk.keyInfo.databaseId (some pk))
          sysCall .mlockFailed) : M Unit) t = _
        rw [hct, howner, hc]
        rfl
      have hspec : wp (pushPrincipalKeyToCache pk) (fun _ u => Quiet t u)
          (fun _ u => Quiet t u ∧ ¬t.SysOk) t := by
        unfold wp
        rw [hpush]
        exact (sysCall_spec _).mono (fun _ _ h => h) fun _ _ h => h.2
      refine (wp_bind ..).2 (hspec.mono (fun _ u hu => ?_) fun _ u hu =>
        ⟨(hq.trans hu.1).loaded, fun hok => absurd (hq.sysOk hok) hu.2⟩)
      have hsu : Loaded w s u := (hq.trans hu).loaded
      exact ⟨hsu, hsu.cache scope pk hc⟩

/-- The section in exclusive mode returns the key of the relation if the entry in hand decrypts to
it under the key that the database has now. -/
theorem getSmgrKeyExclusive_spec {rel : RelFileLocator} {ik : InternalKey} {e : TDEMapEntry}
    (hs : Consistent w s) (he : Opens w s rel ik e) :
    wp (getSmgrKeyExclusive w rel e) (fun r t => Loaded w s t ∧ r = some ik)
      (fun err t => Loaded w s t ∧ err ≠ .decryptFailed ∧ ¬(s.SysOk ∧ s.KeyringsAnswer)) s := by
  obtain ⟨-, pk, hk, hopen⟩ := he
  refine (wp_bind ..).2 (((loadPrincipalKey_spec (hs.scopes _) hk).and
    (decryptsNothing_loadPrincipalKey _ s)).mono (fun r t ht => ?_) fun err t ht => ⟨ht.1.1, ht.2,
      fun hok => ht.1.2 hok.1 ((hs.scopes _).reachable hok.2)⟩)
  obtain ⟨⟨hl, rfl⟩, -⟩ := ht
  refine (wp_bind ..).2 ((decryptRelKey_spec pk e).mono (fun ik' u hu => ?_) fun _ u hu => ?_)
  · obtain ⟨rfl, hu⟩ := hu
    rw [hopen] at hu
    exact ⟨hl, hu.symm⟩
  · rw [hopen] at hu
    cases hu.2

/-! ### Rotations -/

/-- The last critical section of setting a default key: the scopes that use the old default key go
over to the one that is there now. It tells whether there was one. -/
def carryDefaultKey (w : World) (oldKey : TDEPrincipalKey) : M Bool := do
  match ← getPrincipalKeyNoDefault w defaultDataTdeOid with
  | none => pure false -- the code goes on with a null pointer
  | some newKey => do
    updateDefaultPrincipalKeyEverywhere w oldKey newKey
    pure true

/-- The critical sections that rotate the principal key of a database: setting a key, deleting the
key of a database that has relation keys, and changing the default key. -/
inductive Rotation
  | setKey (providerOid scope : Oid) (allowed : ProviderScopeOk providerOid scope)
      (keyName providerName : List UInt8)
  | deleteKey (db : DatabaseId)
  | carryDefaultKey (oldKey : TDEPrincipalKey)

def Rotation.exec (w : World) : Rotation → M Unit
  | setKey providerOid scope _ keyName providerName =>
    setPrincipalKeyWithKeyring w keyName providerName providerOid scope
  | deleteKey db => OpenPgTde.deleteKey w db
  | carryDefaultKey oldKey => do let _ ← OpenPgTde.carryDefaultKey w oldKey

/-- In this state the rotation would give the database another key than it has. -/
def Rotation.Moves (w : World) (s : Server) (db : Oid) : Rotation → Prop
  | setKey providerOid scope _ keyName providerName => scope = db ∧
    ∃ x, keyAt w s providerOid providerName keyName = some x ∧ keyId w s db ≠ some x
  | deleteKey db' => db'.oid = db ∧
    ∃ x, keyId w s defaultDataTdeOid = some x ∧ keyId w s db ≠ some x
  | carryDefaultKey oldKey => keyId w s db = some oldKey.id ∧
    ∃ x, keyId w s defaultDataTdeOid = some x ∧ x ≠ oldKey.id

theorem carryDefaultKey_spec (hs : Consistent w s) (oldKey : TDEPrincipalKey) :
    wp (carryDefaultKey w oldKey)
      (fun r t => r = false ∧ keyId w s defaultDataTdeOid = none ∧ Loaded w s t ∨
        r = true ∧ ∃ x, keyId w s defaultDataTdeOid = some x ∧ Carried w oldKey.id x s t ∧
          ∀ a ∈ defaultScopes s, keyId w s a = some oldKey.id → keyId w t a = some x)
      (fun _ t => Loaded w s t ∨ ∃ x, keyId w s defaultDataTdeOid = some x ∧
        Carried w oldKey.id x s t) s := by
  refine (wp_bind ..).2 ((getPrincipalKeyNoDefault_spec (hs.scopes _)).mono (fun r t ht => ?_)
    fun _ t h => .inl h.1)
  obtain ⟨hl, rfl, -⟩ := ht
  cases hk : principalKeyOf w s defaultDataTdeOid with
  | none => exact .inl ⟨rfl, by rw [keyId, hk, Option.map_none], hl⟩
  | some newKey =>
      have hkt : principalKeyOf w t defaultDataTdeOid = some newKey := by
        rw [hl.principalKeyOf, hk]
      have hid : keyId w s defaultDataTdeOid = some newKey.id := by rw [keyId, hk, Option.map_some]
      refine (wp_bind ..).2 ((updateDefaultPrincipalKeyEverywhere_spec (hl.consistent hs) hkt).mono
        (fun _ u hu => .inr ⟨rfl, newKey.id, hid, hl.carried.trans hu.1, fun a ha hold => ?_⟩)
        fun _ u hu => .inr ⟨newKey.id, hid, hl.carried.trans hu.1⟩)
      have hscopes : defaultScopes t = defaultScopes s := by
        rw [defaultScopes, defaultScopes, hl.databases]
      exact hu.2.1 a (by rwa [hscopes]) (by rwa [keyId_congr (hl.principalKeyOf a)])

/-- A rotation leaves its key to every database with relation keys that it does not move. -/
structure Rotation.Spares (w : World) (c : Rotation) (s t : Server) : Prop where
  steps : KeySteps w s t
  spared : ∀ db, db ≠ defaultDataTdeOid → relationTable w s db ≠ [] → ¬c.Moves w s db →
    keyId w t db = keyId w s db

theorem Rotation.exec_spares (c : Rotation) (hs : Consistent w s) :
    c.Spares w s (after (c.exec w) s) := by
  cases c with
  | setKey providerOid scope allowed keyName providerName =>
      have hone : ∀ {t}, LoggedSteps w s t → OnlyScope w scope s t →
          (principalKeyOf w t scope = principalKeyOf w s scope ∨
            ∃ k, principalKeyOf w t scope = some k ∧
              keyAt w s providerOid providerName keyName = some k.id) →
          (setKey providerOid scope allowed keyName providerName).Spares w s t := by
        intro t hsteps honly hkey
        refine ⟨hsteps.keySteps, fun db _ _ hno => ?_⟩
        by_cases hdb : db = scope
        · subst hdb
          obtain hkey | ⟨k, hkey, hat⟩ := hkey
          · exact keyId_congr hkey
          · by_contra hne
            refine hno ⟨rfl, k.id, hat, fun h => hne ?_⟩
            rw [h, keyId, hkey, Option.map_some]
        · exact keyId_congr (honly.others db hdb)
      exact ((setPrincipalKeyWithKeyring_spec hs allowed keyName providerName).mono
        (fun _ t ht => hone ht.1 ht.2.1 (.inr (ht.2.2.imp fun k hk => ⟨hk.1, hk.2.2⟩)))
        fun _ t ht => hone ht.1 ht.2.1 ht.2.2.1).after
  | deleteKey db' =>
      have hone : ∀ {t}, LoggedSteps w s t →
          (∀ a, a ≠ db'.oid → principalKeyOf w t a = principalKeyOf w s a) →
          (relationTable w s db'.oid ≠ [] → KeptOrDefault w db'.oid s t) →
          (deleteKey db').Spares w s t := by
        intro t hsteps hothers hkept
        refine ⟨hsteps.keySteps, fun db _ htable hno => ?_⟩
        by_cases hdb : db = db'.oid
        · subst hdb
          obtain hkey | ⟨x, hx, hkey⟩ := hkept htable
          · exact hkey
          · by_contra hne
            exact hno ⟨rfl, x, hx, fun h => hne (by rw [h, hkey])⟩
        · exact keyId_congr (hothers db hdb)
      exact ((deleteKey_spec hs db').mono (fun _ t ht => hone ht.1 ht.2.1 ht.2.2)
        fun _ t ht => hone ht.1 ht.2.1 ht.2.2).after
  | carryDefaultKey oldKey =>
      have hone : ∀ {t}, (Loaded w s t ∨ ∃ x, keyId w s defaultDataTdeOid = some x ∧
          Carried w oldKey.id x s t) → (carryDefaultKey oldKey).Spares w s t := by
        rintro t (hl | ⟨x, hx, hcarried⟩)
        · exact ⟨hl.steps.keySteps, fun db _ _ _ => keyId_congr (hl.principalKeyOf db)⟩
        · refine ⟨hcarried.steps.keySteps, fun db hdb _ hno => ?_⟩
          obtain hkey | ⟨hold, hnew⟩ := hcarried.carried db hdb
          · exact keyId_congr hkey
          · by_contra hne
            exact hno ⟨hold, x, hx, fun h => hne (by rw [hold, hnew, h])⟩
      refine wp.after ((wp_bind ..).2 ((carryDefaultKey_spec hs oldKey).mono (fun _ t ht => hone ?_)
        fun _ t ht => hone ht))
      exact ht.imp (fun h => h.2.2) fun h => h.2.imp fun _ hx => ⟨hx.1, hx.2.1⟩

/-- The same key by name and keyring has the same bytes. -/
theorem keyData_of_keyId {pk : TDEPrincipalKey} {scope : Oid} (hp : t.providers = s.providers)
    (hk : principalKeyOf w s scope = some pk) (hid : keyId w t scope = keyId w s scope) :
    ∃ pk', principalKeyOf w t scope = some pk' ∧ pk'.keyData = pk.keyData := by
  have hdata : ∀ {info : TDESignedPrincipalKeyInfo} {k : TDEPrincipalKey},
      namedKey w s.providers scope info = some k → ∃ r x,
        getKeyProviderByID s.providers k.id.2 scope = some r ∧ w.vault r k.id.1 = some x ∧
          k.keyData = x.data := by
    intro info k hn
    unfold namedKey at hn
    split at hn
    · cases hn
    · next r hr =>
        split at hn
        · cases hn
        · next x hx =>
            split at hn
            · cases hn
              exact ⟨r, x, hr, hx, rfl⟩
            · cases hn
  have hsome : keyId w t scope = some pk.id := by rw [hid, keyId, hk, Option.map_some]
  obtain ⟨pk', hk', hsame⟩ := keyId_eq_some.1 hsome
  obtain ⟨info, -, hn⟩ := principalKeyOf_eq_some.1 hk
  obtain ⟨info', -, hn'⟩ := principalKeyOf_eq_some.1 hk'
  rw [hp] at hn'
  obtain ⟨r, x, hr, hx, hpk⟩ := hdata hn
  obtain ⟨r', x', hr', hx', hpk'⟩ := hdata hn'
  rw [hsame, hr] at hr'
  cases hr'
  rw [hsame, hx] at hx'
  cases hx'
  exact ⟨pk', hk', by rw [hpk, hpk']⟩

/-- An entry in hand survives a rotation that does not move its database. -/
theorem Opens.rotate {rel : RelFileLocator} {ik : InternalKey} {e : TDEMapEntry} {c : Rotation}
    (h : Opens w s rel ik e) (hg : rel.dbOid ≠ globalDataTdeOid)
    (hd : rel.dbOid ≠ defaultDataTdeOid) (hc : c.Spares w s t) (hno : ¬c.Moves w s rel.dbOid) :
    Opens w t rel ik e := by
  obtain ⟨hik, pk, hk, hopen⟩ := h
  have htable : relationTable w s rel.dbOid ≠ [] := by
    intro hnil
    rw [relationKeys, hnil] at hik
    cases hik
  obtain ⟨pk', hk', hdata⟩ := keyData_of_keyId hc.steps.providers hk
    (hc.spared rel.dbOid hd htable hno)
  refine ⟨?_, pk', hk', by rw [hdata, hopen]⟩
  rw [relationKeys, hc.steps.relationTable_eq hg, ← relationKeys, hik]

theorem Opens.loaded {rel : RelFileLocator} {ik : InternalKey} {e : TDEMapEntry}
    (h : Opens w s rel ik e) (hl : Loaded w s t) (hg : rel.dbOid ≠ globalDataTdeOid) :
    Opens w t rel ik e := by
  obtain ⟨hik, pk, hk, hopen⟩ := h
  refine ⟨?_, pk, by rw [hl.principalKeyOf, hk], hopen⟩
  rw [relationKeys, hl.steps.keySteps.relationTable_eq hg, ← relationKeys, hik]

/-! ### Processes -/

/-- How far a process is in its call. -/
inductive LookupStage
  | idle
  /-- The file of the database was there; the lock in shared mode is next. -/
  | entered (rel : RelFileLocator)
  /-- The lock was released with this entry in hand; the lock in exclusive mode is next. -/
  | missed (rel : RelFileLocator) (e : TDEMapEntry)

/-- The server, the processes, and what the calls so far have returned or raised. -/
structure Lookups where
  server : Server
  stage : ℕ → LookupStage
  results : List (RelFileLocator × Except TdeError (Option InternalKey))

/-- A process calls `open_pg_tde_get_smgr_key`, which tests first whether the file exists, or goes
through the next critical section of its call; or some other process rotates a key. -/
inductive LookupAct
  | call (p : ℕ) (db : DatabaseId) (spcOid : Oid) (relNumber : UInt32)
  | shared (p : ℕ)
  | exclusive (p : ℕ)
  | rotate (c : Rotation)

def Lookups.put (x : Lookups) (p : ℕ) (stage : LookupStage) : Lookups :=
  { x with stage := Function.update x.stage p stage }

def Lookups.finish (x : Lookups) (p : ℕ) (rel : RelFileLocator)
    (r : Except TdeError (Option InternalKey)) : Lookups :=
  { x.put p .idle with results := (rel, r) :: x.results }

def Lookups.withServer (x : Lookups) (t : Server) : Lookups := { x with server := t }

def lookupStep (w : World) (x : Lookups) : LookupAct → Lookups
  | .call p db spcOid relNumber =>
    match x.stage p with
    | .idle =>
      match x.server.keyFiles (.keys db.oid) with
      | none => x.finish p ⟨spcOid, db.oid, relNumber⟩ (.ok none)
      | some _ => x.put p (.entered ⟨spcOid, db.oid, relNumber⟩)
    | _ => x
  | .shared p =>
    match x.stage p with
    | .entered rel =>
      match getSmgrKeyShared w rel x.server with
      | .ok (.inl k) t => (x.withServer t).finish p rel (.ok k)
      | .ok (.inr e) t => (x.withServer t).put p (.missed rel e)
      | .error err t => (x.withServer t).finish p rel (.error err)
    | _ => x
  | .exclusive p =>
    match x.stage p with
    | .missed rel e =>
      match getSmgrKeyExclusive w rel e x.server with
      | .ok k t => (x.withServer t).finish p rel (.ok k)
      | .error err t => (x.withServer t).finish p rel (.error err)
    | _ => x
  | .rotate c => x.withServer (after (c.exec w) x.server)

/-- No process is in a call. -/
def Server.lookups (s : Server) : Lookups := ⟨s, fun _ => .idle, []⟩

/-- A rotation does not move a database while a process is between the two sections of a lookup in
that database. -/
def Undisturbed (w : World) (x : Lookups) : LookupAct → Prop
  | .rotate c => ∀ p rel e, x.stage p = .missed rel e → ¬c.Moves w x.server rel.dbOid
  | _ => True

/-- What a call for a relation that had a key in `s` ends with: this key, or an error that is not a
failed decryption and has its cause outside. -/
def KeyReturned (w : World) (s : Server) (rel : RelFileLocator)
    (r : Except TdeError (Option InternalKey)) : Prop :=
  ∀ ik, relationKeys w s rel.dbOid (rel.spcOid, rel.relNumber) = some ik → r = .ok (some ik) ∨
    ∃ err, r = .error err ∧ err ≠ .decryptFailed ∧ ¬(s.SysOk ∧ s.KeyringsAnswer)

/-! ### The invariant -/

/-- `s` is the server at the start: the relations have the keys they had there, every entry in hand
decrypts to the key of its relation, and the results so far are right. -/
structure LookupsOk (w : World) (s : Server) (x : Lookups) : Prop where
  consistent : Consistent w x.server
  keys : ∀ db, db ≠ globalDataTdeOid → relationKeys w x.server db = relationKeys w s db
  outside : s.SysOk ∧ s.KeyringsAnswer → x.server.SysOk ∧ x.server.KeyringsAnswer
  entered : ∀ p rel, x.stage p = .entered rel →
    rel.dbOid ≠ globalDataTdeOid ∧ rel.dbOid ≠ defaultDataTdeOid
  missed : ∀ p rel e, x.stage p = .missed rel e →
    rel.dbOid ≠ globalDataTdeOid ∧ rel.dbOid ≠ defaultDataTdeOid ∧ ∃ ik, Opens w x.server rel ik e
  results : ∀ r ∈ x.results, KeyReturned w s r.1 r.2

variable {x : Lookups} {p : ℕ}

theorem lookupsOk_start (hs : Consistent w s) : LookupsOk w s s.lookups where
  consistent := hs
  keys _ _ := rfl
  outside := id
  entered _ _ h := LookupStage.noConfusion h
  missed _ _ _ h := LookupStage.noConfusion h
  results _ h := absurd h List.not_mem_nil

theorem LookupsOk.put (h : LookupsOk w s x) {stage : LookupStage}
    (hentered : ∀ rel, stage = .entered rel →
      rel.dbOid ≠ globalDataTdeOid ∧ rel.dbOid ≠ defaultDataTdeOid)
    (hmissed : ∀ rel e, stage = .missed rel e → rel.dbOid ≠ globalDataTdeOid ∧
      rel.dbOid ≠ defaultDataTdeOid ∧ ∃ ik, Opens w x.server rel ik e) :
    LookupsOk w s (x.put p stage) := by
  refine ⟨h.consistent, h.keys, h.outside, fun q rel hq => ?_, fun q rel e hq => ?_, h.results⟩
  · by_cases hqp : q = p
    · subst hqp
      exact hentered rel (by simpa [Lookups.put] using hq)
    · exact h.entered q rel (by simpa [Lookups.put, hqp] using hq)
  · by_cases hqp : q = p
    · subst hqp
      exact hmissed rel e (by simpa [Lookups.put] using hq)
    · exact h.missed q rel e (by simpa [Lookups.put, hqp] using hq)

theorem LookupsOk.finish (h : LookupsOk w s x) {rel : RelFileLocator}
    {r : Except TdeError (Option InternalKey)} (hr : KeyReturned w s rel r) :
    LookupsOk w s (x.finish p rel r) := by
  have hput : LookupsOk w s (x.put p .idle) := h.put (fun _ h => by cases h) fun _ _ h => by cases h
  refine ⟨hput.consistent, hput.keys, hput.outside, hput.entered, hput.missed, fun a ha => ?_⟩
  obtain rfl | ha := List.mem_cons.1 ha
  · exact hr
  · exact h.results a ha

/-- A step of the server under which the entries in hand stay what they are. -/
theorem LookupsOk.steps (h : LookupsOk w s x) (ht : KeySteps w x.server t)
    (hopens : ∀ q rel e, x.stage q = .missed rel e → ∀ ik, Opens w x.server rel ik e →
      Opens w t rel ik e) : LookupsOk w s (x.withServer t) := by
  refine ⟨ht.consistent h.consistent, fun db hdb => ?_, fun hs => ?_, h.entered,
    fun q rel e hq => ?_, h.results⟩
  · funext rel
    rw [← h.keys db hdb]
    show relationKeys w t db rel = _
    rw [relationKeys, ht.relationTable_eq hdb, ← relationKeys]
  · obtain ⟨hok, hkms⟩ := h.outside hs
    exact ⟨ht.outside.2 hok, hkms.congr ht.outside.1⟩
  · obtain ⟨hg, hd, ik, hopen⟩ := h.missed q rel e hq
    exact ⟨hg, hd, ik, hopens q rel e hq ik hopen⟩

theorem LookupsOk.loaded (h : LookupsOk w s x) (hl : Loaded w x.server t) :
    LookupsOk w s (x.withServer t) :=
  h.steps hl.steps.keySteps fun q rel e hq _ hopen => hopen.loaded hl (h.missed q rel e hq).1

theorem LookupsOk.step (h : LookupsOk w s x) (a : LookupAct) (ha : Undisturbed w x a) :
    LookupsOk w s (lookupStep w x a) := by
  cases a with
  | call p db spcOid relNumber =>
      simp only [lookupStep]
      cases x.stage p with
      | entered | missed => exact h
      | idle =>
          cases hf : x.server.keyFiles (.keys db.oid) with
          | some f =>
              refine h.put (fun rel hrel => ?_) fun _ _ h => by cases h
              cases hrel
              exact ⟨db.ne_global, db.ne_default⟩
          | none =>
              refine h.finish fun ik hik => ?_
              -- a relation that has a key is in a file
              rw [← h.keys db.oid db.ne_global] at hik
              have hne : relationKeys w x.server db.oid (spcOid, relNumber) ≠ none := by
                rw [hik]
                simp
              obtain ⟨_, _, _, hf', -⟩ := exists_of_relationKeys hne
              rw [hf] at hf'
              cases hf'
  | shared p =>
      simp only [lookupStep]
      cases hp : x.stage p with
      | idle | missed => exact h
      | entered rel =>
          obtain ⟨hg, hd⟩ := h.entered p rel hp
          have hspec := getSmgrKeyShared_spec h.consistent rel hg
          rw [h.keys rel.dbOid hg] at hspec
          dsimp only
          cases hrun : getSmgrKeyShared w rel x.server with
          | ok r t =>
              obtain ⟨hq, hmiss, hhit⟩ := hspec.of_ok hrun
              have ht := h.loaded hq.loaded
              cases r with
              | inl k =>
                  refine ht.finish fun ik hik => .inl ?_
                  rw [hhit k rfl, hik]
              | inr e =>
                  refine ht.put (fun _ h => by cases h) fun rel' e' hrel => ?_
                  cases hrel
                  obtain ⟨ik, hopen⟩ := hmiss e rfl
                  exact ⟨hg, hd, ik, hopen.loaded hq.loaded hg⟩
          | error err t =>
              obtain ⟨hq, herr, hsys⟩ := hspec.of_error hrun
              refine (h.loaded hq.loaded).finish fun ik hik => .inr ⟨err, rfl, herr, fun hok => ?_⟩
              exact hsys (by rw [hik]; simp) (h.outside hok).1
  | exclusive p =>
      simp only [lookupStep]
      cases hp : x.stage p with
      | idle | entered => exact h
      | missed rel e =>
          obtain ⟨hg, -, ik, hopen⟩ := h.missed p rel e hp
          have hspec := getSmgrKeyExclusive_spec h.consistent hopen
          have hkey := hopen.1
          rw [h.keys rel.dbOid hg] at hkey
          dsimp only
          cases hrun : getSmgrKeyExclusive w rel e x.server with
          | ok k t =>
              obtain ⟨hl, rfl⟩ := hspec.of_ok hrun
              refine (h.loaded hl).finish fun ik' hik' => .inl ?_
              rw [← hkey, hik']
          | error err t =>
              obtain ⟨hl, herr, hno⟩ := hspec.of_error hrun
              exact (h.loaded hl).finish fun _ _ => .inr ⟨err, rfl, herr, fun hok =>
                hno (h.outside hok)⟩
  | rotate c =>
      have hc := c.exec_spares h.consistent
      refine h.steps hc.steps fun q rel e hq ik hopen => ?_
      obtain ⟨hg, hd, -⟩ := h.missed q rel e hq
      exact hopen.rotate hg hd hc (ha q rel e hq)

/-- Reading a relation key is safe against rotation as long as no rotation moves a database between
the two critical sections of a lookup there: in every interleaving of lookups in any number of
processes with rotations of any scope, every call for a relation that has a key returns this key, or
raises an error that is not a failed decryption, and it does not raise one if system calls and
keyrings do not fail. -/
theorem get_smgr_key_during_rotation (w : World) (s : Server) (hs : Consistent w s)
    (acts : List LookupAct) (h : Meets (lookupStep w) (Undisturbed w) acts s.lookups) :
    ∀ r ∈ (run (lookupStep w) acts s.lookups).results, KeyReturned w s r.1 r.2 :=
  (run_invariant (fun _ a hx ha => hx.step a ha) acts (lookupsOk_start hs) h).results

/-- The sample server with a relation key, after a restart: the cache is empty. -/
def sampleLookupServer : Server :=
  { lifecycle sampleWorld [.setKeyUsingGlobalKeyProvider sampleDatabase (sampleCall [65]),
      .createRelationKey sampleDatabase 1663 16384] sampleServer with cache := fun _ => none }

theorem sampleLookupServer_consistent : Consistent sampleWorld sampleLookupServer := by
  have hs : Consistent sampleWorld _ := lifecycle_consistent
    [.setKeyUsingGlobalKeyProvider sampleDatabase (sampleCall [65]),
      .createRelationKey sampleDatabase 1663 16384] sampleServer_fresh.consistent
  exact ⟨fun scope => (hs.scopes scope).uncached (fun _ => rfl) (fun _ => rfl) (fun _ => rfl) rfl,
    hs.providers, hs.databases⟩

/-- A lookup that finds the cache empty, with a rotation to the key of this name between its two
sections. -/
def sampleLookups (keyName : List UInt8) : List LookupAct :=
  [.call 0 sampleDatabase 1663 16384, .shared 0,
    .rotate (.setKey globalDataTdeOid 5 (.inl rfl) keyName [112]), .exclusive 0]

/-- A rotation to the key that the database has already does no harm. -/
theorem get_smgr_key_during_rotation_sample :
    (run (lookupStep sampleWorld) (sampleLookups [65]) sampleLookupServer.lookups).results.length =
      1 ∧
    ∀ r ∈ (run (lookupStep sampleWorld) (sampleLookups [65]) sampleLookupServer.lookups).results,
      KeyReturned sampleWorld sampleLookupServer r.1 r.2 := by
  refine ⟨by decide +kernel, get_smgr_key_during_rotation sampleWorld sampleLookupServer
    sampleLookupServer_consistent _ ⟨trivial, trivial, ?_, trivial, trivial⟩⟩
  rintro p rel e - ⟨hdb, x, hx, hne⟩
  rw [← hdb] at hne
  have hat : keyAt sampleWorld (run (lookupStep sampleWorld) ((sampleLookups [65]).take 2)
      sampleLookupServer.lookups).server globalDataTdeOid [112] [65] = some ([65], -1) := by
    decide +kernel
  have hid : keyId sampleWorld (run (lookupStep sampleWorld) ((sampleLookups [65]).take 2)
      sampleLookupServer.lookups).server 5 = some ([65], -1) := by
    decide +kernel
  exact hne (hid.trans (hat.symm.trans hx))

/-- A rotation in between makes the lookup fail: the entry was read under the old key, and the new
one is used to decrypt it. -/
theorem get_smgr_key_rotated_between :
    Consistent sampleWorld sampleLookupServer ∧
    relationKeys sampleWorld sampleLookupServer 5 (1663, 16384) ≠ none ∧
    sampleLookupServer.SysOk ∧ sampleLookupServer.KeyringsAnswer ∧
    (run (lookupStep sampleWorld) (sampleLookups [66]) sampleLookupServer.lookups).results =
      [(⟨1663, 5, 16384⟩, .error .decryptFailed)] := by
  refine ⟨sampleLookupServer_consistent, by decide +kernel, fun _ => rfl, fun _ _ => rfl, ?_⟩
  decide +kernel

end OpenPgTde
