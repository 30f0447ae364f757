import OpenPgTde.Providers.Operations

/-!
What the provider operations do, from any state.

An operation first checks, which at most loads principal keys into the cache, and then writes one
slot of one file. `SlotWrite` lists the slots that are written and with what; that every operation
is a check followed by such a write is proved here once. Nothing is assumed of the state.
-/

namespace OpenPgTde

open Lib.Effect Lib.SlotArray

variable {w : World} {s t u : Server} {scope dbOid : Oid} {c : ProviderCall}
  {file : List KeyringProviderRecord}

/-! ### Lookups of principal keys -/

/-- From `s` to `t` nothing happened but that keys of headers were loaded into free places of the
cache. -/
structure Cached (s t : Server) : Prop where
  quiet : Quiet { s with cache := t.cache } t
  kept : ∀ a k, s.cache a = some k → t.cache a = some k
  loaded : ∀ a k, t.cache a = some k → s.cache a = some k ∨
    ∃ scope info, scopeInfo s scope = some info ∧ info.data.databaseId = a ∧ k.keyInfo = info.data

theorem Quiet.cache {s t : Server} (h : Quiet s t) : t.cache = s.cache := by
  obtain ⟨_, _, _, _, rfl⟩ := h
  rfl

theorem Quiet.xlog {s t : Server} (h : Quiet s t) : t.xlog = s.xlog := by
  obtain ⟨_, _, _, _, rfl⟩ := h
  rfl

theorem Quiet.databases {s t : Server} (h : Quiet s t) : t.databases = s.databases := by
  obtain ⟨_, _, _, _, rfl⟩ := h
  rfl

theorem Quiet.cached {s t : Server} (h : Quiet s t) : Cached s t where
  quiet := by rw [h.cache]; exact h
  kept a k hk := by rwa [h.cache]
  loaded a k hk := .inl (by rwa [h.cache] at hk)

theorem Cached.providers (h : Cached s t) : t.providers = s.providers := h.quiet.providers

theorem Cached.keyFiles (h : Cached s t) : t.keyFiles = s.keyFiles := h.quiet.keyFiles

theorem Cached.walKeys (h : Cached s t) : t.walKeys = s.walKeys := h.quiet.walKeys

theorem Cached.xlog (h : Cached s t) : t.xlog = s.xlog := h.quiet.xlog

theorem Cached.databases (h : Cached s t) : t.databases = s.databases := h.quiet.databases

theorem Cached.sysOk (h : Cached s t) (hs : s.SysOk) : t.SysOk := h.quiet.sysOk hs

theorem Cached.scopeInfo (h : Cached s t) (scope : Oid) : scopeInfo t scope = scopeInfo s scope :=
  scopeInfo_congr (fun _ => by rw [h.keyFiles]) fun _ => by rw [h.walKeys]

theorem Cached.trans (h : Cached s t) (h' : Cached t u) : Cached s u where
  quiet := by
    have hq : Quiet { s with cache := u.cache } { t with cache := u.cache } := by
      obtain ⟨rng, clock, sys, hsys, ht⟩ := h.quiet
      refine ⟨rng, clock, sys, hsys, ?_⟩
      rw [ht]
    exact hq.trans h'.quiet
  kept a k hk := h'.kept a k (h.kept a k hk)
  loaded a k hk := by
    obtain hk | ⟨scope, info, hi, ha, hk⟩ := h'.loaded a k hk
    · exact h.loaded a k hk
    · exact .inr ⟨scope, info, by rw [← h.scopeInfo, hi], ha, hk⟩

/-- A key from the keyring is the key of the header. -/
theorem getPrincipalKeyFromKeyring_info :
    wp (getPrincipalKeyFromKeyring w scope)
      (fun r t => Quiet s t ∧ r.map TDEPrincipalKey.keyInfo =
        (scopeInfo s scope).map TDESignedPrincipalKeyInfo.data)
      (fun _ t => Quiet s t) s := by
  refine getPrincipalKeyFromKeyring_spec.mono (fun r t ht => ⟨ht.1, ?_⟩) fun _ _ h => h.1
  obtain ⟨-, hr, hnone⟩ := ht
  cases r with
  | none => rw [hnone rfl]; rfl
  | some k =>
      obtain ⟨info, hi, hn⟩ := principalKeyOf_eq_some.1 hr.symm
      rw [hi, Option.map_some, Option.map_some, keyInfo_of_namedKey hn]

/-- Pushing a key fills a free place of the cache and leaves the rest alone. -/
theorem pushPrincipalKeyToCache_cached {k : TDEPrincipalKey} {info : TDESignedPrincipalKeyInfo}
    (hi : scopeInfo s scope = some info) (hk : k.keyInfo = info.data) :
    wp (pushPrincipalKeyToCache k)
      (fun _ t => Cached s t ∧ t.cache info.data.databaseId ≠ none)
      (fun _ t => Cached s t) s := by
  unfold pushPrincipalKeyToCache
  simp only [wp_bind, wp_get]
  cases hc : s.cache k.keyInfo.databaseId with
  | some k' =>
      simp only [Option.isNone_some, Bool.false_eq_true, if_false]
      refine (sysCall_spec _).mono (fun _ t ht => ⟨ht.cached, ?_⟩) fun _ t ht => ht.2.1.cached
      rw [ht.cache, ← hk, hc]
      simp
  | none =>
      simp only [Option.isNone_none, if_true]
      have hput : Cached s (s.putCache k.keyInfo.databaseId (some k)) := by
        refine ⟨Quiet.refl _, fun a k' hk' => ?_, fun a k' hk' => ?_⟩
        · by_cases ha : a = k.keyInfo.databaseId
          · rw [ha, hc] at hk'
            cases hk'
          · simpa [ha] using hk'
        · by_cases ha : a = k.keyInfo.databaseId
          · subst ha
            obtain rfl : k = k' := by simpa using hk'
            exact .inr ⟨scope, info, hi, by rw [hk], hk⟩
          · exact .inl (by simpa [ha] using hk')
      refine (sysCall_spec _).mono (fun _ t ht => ⟨hput.trans ht.cached, ?_⟩)
        fun _ t ht => hput.trans ht.2.1.cached
      rw [ht.cache, ← hk]
      simp

/-- A lookup returns what the cache has for the scope in the end; this is nothing only if there is
no header, or one of another scope. -/
theorem getPrincipalKeyNoDefault_cached :
    wp (getPrincipalKeyNoDefault w scope)
      (fun r t => Cached s t ∧ r = t.cache scope ∧ (r = none → ∀ info,
        scopeInfo s scope = some info → info.data.databaseId ≠ scope))
      (fun _ t => Cached s t) s := by
  unfold getPrincipalKeyNoDefault
  simp only [wp_bind, wp_get]
  cases hc : s.cache scope with
  | some k => exact ⟨(Quiet.refl s).cached, hc.symm, fun h => by cases h⟩
  | none =>
      simp only [wp_bind]
      refine getPrincipalKeyFromKeyring_info.mono (fun r t ht => ?_) fun _ t ht => ht.cached
      obtain ⟨hq, hr⟩ := ht
      cases r with
      | none =>
          refine ⟨hq.cached, by rw [hq.cache, hc], fun _ info hi => ?_⟩
          rw [hi] at hr
          cases hr
      | some k =>
          obtain ⟨info, hi, hk⟩ : ∃ info, scopeInfo s scope = some info ∧ k.keyInfo = info.data := by
            cases hi : scopeInfo s scope with
            | none => rw [hi] at hr; cases hr
            | some info =>
                rw [hi] at hr
                exact ⟨info, rfl, Option.some.inj hr⟩
          have hit : scopeInfo t scope = some info := by rw [hq.cached.scopeInfo, hi]
          simp only [wp_bind]
          refine (pushPrincipalKeyToCache_cached hit hk).mono (fun _ u hu => ?_)
            fun _ u hu => hq.cached.trans hu
          simp only [wp_get, wp_pure]
          refine ⟨hq.cached.trans hu.1, trivial, fun hnone info' hi' howner => ?_⟩
          rw [hi] at hi'
          cases hi'
          rw [howner] at hu
          exact hu.2 hnone

/-! ### Whether a provider is in use -/

/-- No key that the cache or a header has for the scope refers to the provider. -/
def NotUsedBy (t : Server) (scope : Oid) (providerId : ℤ) : Prop :=
  (∀ k, t.cache scope = some k → k.keyInfo.keyringId ≠ providerId) ∧
  (t.cache scope = none → ∀ info, scopeInfo t scope = some info → info.data.databaseId ≠ scope)

/-- Loading further keys does not make a scope use a provider. -/
theorem NotUsedBy.mono {providerId : ℤ} (h : NotUsedBy t scope providerId) (hc : Cached t u)
    (howns : ∀ a info, scopeInfo t a = some info → info.data.databaseId = a) :
    NotUsedBy u scope providerId := by
  refine ⟨fun k hk => ?_, fun hnone info hi => ?_⟩
  · obtain hk | ⟨a, info, hi, ha, hk'⟩ := hc.loaded scope k hk
    · exact h.1 k hk
    · have haa : a = scope := by rw [← howns a info hi, ha]
      subst haa
      cases hct : t.cache a with
      | none => exact absurd ha (h.2 hct info hi)
      | some k' =>
          have := hc.kept a k' hct
          rw [hk] at this
          cases this
          exact h.1 k hct
  · refine h.2 ?_ info (by rw [← hc.scopeInfo, hi])
    cases hct : t.cache scope with
    | none => rfl
    | some k =>
        rw [hc.kept scope k hct] at hnone
        cases hnone

theorem usesProvider_cached (providerId : ℤ) :
    wp (usesProvider w scope providerId)
      (fun b t => Cached s t ∧ (b = false → NotUsedBy t scope providerId))
      (fun _ t => Cached s t) s := by
  refine (wp_bind ..).2 (getPrincipalKeyNoDefault_cached.mono (fun r t ht => ?_) fun _ _ h => h)
  obtain ⟨hc, hr, hnone⟩ := ht
  cases r with
  | some k =>
      refine ⟨hc, fun hb => ⟨fun k' hk' => ?_, fun hn => ?_⟩⟩
      · rw [← hr] at hk'
        cases hk'
        simpa using hb
      · rw [← hr] at hn
        cases hn
  | none =>
      refine ⟨hc, fun _ => ⟨fun k' hk' => ?_, fun _ info hi => ?_⟩⟩
      · rw [← hr] at hk'
        cases hk'
      · exact hnone rfl info (by rw [← hc.scopeInfo, hi])

/-- Where every header is one of its own scope, a provider that no scope was seen to use is not used
in the end either. -/
theorem usedByDatabase_cached (providerId : ℤ) (dbs : List DatabaseId)
    (howns : ∀ a info, scopeInfo s a = some info → info.data.databaseId = a) :
    wp (usedByDatabase w providerId dbs)
      (fun b t => Cached s t ∧ (b = false → ∀ db ∈ dbs, NotUsedBy t db.oid providerId))
      (fun _ t => Cached s t) s := by
  induction dbs generalizing s with
  | nil => exact ⟨(Quiet.refl s).cached, fun _ => by simp⟩
  | cons db dbs ih =>
      refine (wp_bind ..).2 ((usesProvider_cached providerId).mono (fun b t ht => ?_)
        fun _ _ h => h)
      obtain ⟨hc, hb⟩ := ht
      cases b with
      | true => exact ⟨hc, fun h => by cases h⟩
      | false =>
          have hownst : ∀ a info, scopeInfo t a = some info → info.data.databaseId = a :=
            fun a info hi => howns a info (by rw [← hc.scopeInfo, hi])
          refine (ih hownst).mono (fun b u hu => ?_) fun _ u hu => hc.trans hu
          refine ⟨hc.trans hu.1, fun hbu db' hdb' => ?_⟩
          obtain rfl | hdb' := List.mem_cons.1 hdb'
          · exact (hb rfl).mono hu.1 hownst
          · exact hu.2 hbu db' hdb'

/-- Without any assumption a search for uses only loads keys. -/
theorem usedByDatabase_loads (providerId : ℤ) (dbs : List DatabaseId) :
    wp (usedByDatabase w providerId dbs) (fun _ t => Cached s t) (fun _ t => Cached s t) s := by
  induction dbs generalizing s with
  | nil => exact (Quiet.refl s).cached
  | cons db dbs ih =>
      refine (wp_bind ..).2 ((usesProvider_cached providerId).mono (fun b t ht => ?_)
        fun _ _ h => h)
      cases b with
      | true => exact ht.1
      | false => exact ih.mono (fun _ u hu => ht.1.trans hu) fun _ u hu => ht.1.trans hu

theorem isProviderUsed_loads (providerId : ℤ) :
    wp (isProviderUsed w dbOid providerId) (fun _ t => Cached s t) (fun _ t => Cached s t) s := by
  refine (wp_ite ..).2 ⟨fun _ => ?_, fun _ => ?_⟩
  · refine (wp_bind ..).2 ((usesProvider_cached providerId).mono (fun b t ht => ?_)
      fun _ _ h => h)
    cases b with
    | true => exact ht.1
    | false =>
        refine (wp_bind ..).2 ((usesProvider_cached providerId).mono (fun b u hu => ?_)
          fun _ u hu => ht.1.trans hu)
        cases b with
        | true => exact ht.1.trans hu.1
        | false =>
            exact (usedByDatabase_loads providerId _).mono
              (fun _ v hv => (ht.1.trans hu.1).trans hv) fun _ v hv => (ht.1.trans hu.1).trans hv
  · exact (usesProvider_cached providerId).mono (fun _ _ h => h.1) fun _ _ h => h

/-! ### Writing a slot -/

/-- The state after a slot was written. -/
def Server.writeSlot (s : Server) (dbOid : Oid) (offset : ℕ) (r : KeyringProviderRecord) : Server :=
  { s with
    providers := Function.update s.providers dbOid (writeAt (s.providers dbOid) offset r) }

/-- The state after a slot was logged and written. -/
def Server.putProvider (s : Server) (dbOid : Oid) (offset : ℕ) (r : KeyringProviderRecord) :
    Server :=
  (s.logged [.writeKeyProvider dbOid offset r]).writeSlot dbOid offset r

/-- What a write that fails leaves: nothing, the record alone, or all of it. -/
inductive WriteFailed (s : Server) (dbOid : Oid) (offset : ℕ) (r : KeyringProviderRecord)
    (t : Server) : Prop
  | before : Quiet s t → WriteFailed s dbOid offset r t
  | logged : Quiet (s.logged [.writeKeyProvider dbOid offset r]) t → WriteFailed s dbOid offset r t
  | written : Quiet (s.putProvider dbOid offset r) t → WriteFailed s dbOid offset r t

theorem Quiet.writeSlot (h : Quiet s t) (dbOid : Oid) (offset : ℕ) (r : KeyringProviderRecord) :
    Quiet (s.writeSlot dbOid offset r) (t.writeSlot dbOid offset r) := by
  obtain ⟨rng, clock, sys, hsys, rfl⟩ := h
  exact ⟨rng, clock, sys, hsys, rfl⟩

theorem redoKeyProviderInfo_spec (dbOid : Oid) (offset : ℕ) (r : KeyringProviderRecord) :
    wp (redoKeyProviderInfo dbOid offset r)
      (fun _ t => Quiet (s.writeSlot dbOid offset r) t) (fun _ t => Quiet s t ∧ ¬s.SysOk) s :=
  (wp_bind ..).2 ((sysCall_spec _).mono (fun _ _ ht => ht.writeSlot dbOid offset r)
    fun _ _ ht => ht.2)

theorem writeKeyProviderInfo_spec (dbOid : Oid) (offset : ℕ) (r : KeyringProviderRecord) :
    wp (writeKeyProviderInfo dbOid offset r)
      (fun _ t => Quiet (s.putProvider dbOid offset r) t)
      (fun _ t => WriteFailed s dbOid offset r t ∧ ¬s.SysOk) s := by
  refine (wp_bind ..).2 ((sysCall_spec _).mono (fun _ t ht => ?_) fun _ t ht => ⟨.before ht.2.1, ht.2.2⟩)
  refine (wp_bind ..).2 ((xlogInsert_spec _).mono (fun _ u hu => ?_) fun _ _ h => h.elim)
  have hlog : Quiet (s.logged [.writeKeyProvider dbOid offset r]) u := by
    rw [hu]
    exact ht.logged _
  refine (wp_bind ..).2 ((redoKeyProviderInfo_spec dbOid offset r).mono (fun _ v hv => ?_)
    fun _ v hv => ⟨.logged (hlog.trans hv.1), fun h => hv.2 (hlog.sysOk h)⟩)
  have hput : Quiet (s.putProvider dbOid offset r) v := (hlog.writeSlot dbOid offset r).trans hv
  exact (sysCall_spec _).mono (fun _ x hx => hput.trans hx) fun _ x hx =>
    ⟨.written (hput.trans hx.2.1), fun h => hx.2.2 (hput.sysOk h)⟩

/-! ### The slots the operations write -/

/-- Two records of the operations are of the same name exactly when it is the same text. -/
def Named (name : List UInt8) (r : KeyringProviderRecord) : Bool :=
  r.live && r.providerName = name

/-- The place and the contents of a write to the file of a scope: a new record at the end, whose
name no live record has; another record of the same name and id at the place of a live one; or what
is left of a live record, at its place. -/
inductive SlotWrite (dbOid : Oid) (file : List KeyringProviderRecord) (name : List UInt8) :
    ℕ → KeyringProviderRecord → Prop
  | add {r : KeyringProviderRecord} : r.live = true → r.providerName = name →
      (∀ r' ∈ file, Named name r' = false) → maxProviderId file ≠ pgInt32Max →
      (r.providerId = if dbOid = globalDataTdeOid then -(maxProviderId file + 1 : ℤ)
        else maxProviderId file + 1) → SlotWrite dbOid file name file.length r
  | change {pre post : List KeyringProviderRecord} {old r : KeyringProviderRecord} :
      file = pre ++ old :: post → Named name old = true → r.live = true → r.providerName = name →
      r.providerId = old.providerId → SlotWrite dbOid file name pre.length r
  | erase {pre post : List KeyringProviderRecord} {old : KeyringProviderRecord} :
      file = pre ++ old :: post → Named name old = true → (∀ r ∈ pre, Named name r = false) →
      SlotWrite dbOid file name pre.length old.erased

/-- The record found by its exact name is the first of that name, and the offset is its place. -/
theorem getKeyringInfoFileRecordByName_eq_some {name : List UInt8} {offset : ℕ}
    {r : KeyringProviderRecord}
    (h : getKeyringInfoFileRecordByName name file = some (offset, r)) :
    ∃ pre post, file = pre ++ r :: post ∧ offset = pre.length ∧ Named name r = true ∧
      ∀ r' ∈ pre, Named name r' = false := by
  unfold getKeyringInfoFileRecordByName at h
  split at h
  · cases h
  · next i hi =>
      obtain ⟨hlt, hnamed, hbefore⟩ := List.findIdx?_eq_some_iff_getElem.1 hi
      rw [List.getElem?_eq_getElem hlt, Option.map_some, Option.some.injEq, Prod.mk.injEq] at h
      obtain ⟨rfl, rfl⟩ := h
      refine ⟨file.take i, file.drop (i + 1), ?_, ?_, hnamed, fun r' hr' => ?_⟩
      · rw [List.getElem_cons_drop, List.take_append_drop]
      · rw [List.length_take, min_eq_left hlt.le]
      · obtain ⟨j, hj, rfl⟩ := List.mem_iff_getElem.1 hr'
        rw [List.length_take] at hj
        rw [List.getElem_take]
        exact Bool.eq_false_iff.2 (hbefore j (by omega))

/-! ### One operation -/

/-- The kind of write an operation makes. -/
def ProviderOp.Writes (op : ProviderOp) (file : List KeyringProviderRecord) (offset : ℕ)
    (r : KeyringProviderRecord) : Prop :=
  ∃ name, op.name = some name ∧ SlotWrite op.dbOid file name offset r ∧
    match op with
    | add .. => offset = file.length
    | change .. => r.live = true ∧ offset < file.length
    | delete .. => r.live = false

theorem verifyKeyInUse_quiet (provider : KeyringProviderRecord)
    (info : Option TDESignedPrincipalKeyInfo) :
    wp (verifyKeyInUse w provider info) (fun _ t => t = s) (fun _ t => t = s) s := by
  unfold verifyKeyInUse
  cases info with
  | none => rfl
  | some info =>
      refine (wp_ite ..).2 ⟨fun _ => ?_, fun _ => rfl⟩
      simp only [wp_bind, wp_get]
      cases keyringGetKey w s.kms provider info.data.name with
      | error code => rfl
      | ok key =>
          cases key with
          | none => rfl
          | some k => exact (wp_ite ..).2 ⟨fun _ => rfl, fun _ => rfl⟩

theorem verifyProviderKeysInUse_quiet (provider : KeyringProviderRecord) :
    wp (verifyProviderKeysInUse w provider) (fun _ t => Quiet s t) (fun _ t => Quiet s t) s := by
  refine (wp_bind ..).2 (getServerKeyInfo_spec.mono (fun info t ht => ?_) fun _ t ht => ht.1)
  refine (wp_bind ..).2 ((verifyKeyInUse_quiet provider info).mono (fun _ u hu => ?_)
    fun _ u hu => hu ▸ ht.1)
  subst hu
  simp only [wp_bind, wp_get]
  refine wp_forM (fun v => Quiet s v) _ _ ht.1 fun db _ v hv => ?_
  refine (wp_bind ..).2 (getPrincipalKeyInfo_spec.mono (fun info' x hx => ?_)
    fun _ x hx => hv.trans hx.1)
  exact (verifyKeyInUse_quiet provider info').mono (fun _ y hy => hy ▸ hv.trans hx.1)
    fun _ y hy => hy ▸ hv.trans hx.1

theorem checkProviderRecord_quiet (provider : KeyringProviderRecord) :
    wp (checkProviderRecord w c provider)
      (fun _ t => Quiet s t ∧ provider.live = true) (fun _ t => Quiet s t) s := by
  unfold checkProviderRecord
  have hrefl := Quiet.refl s
  simp only [wp_bind, wp_ite, wp_throw, wp_pure]
  refine ⟨fun _ => hrefl, fun hlive => ⟨fun _ => hrefl, fun _ => ⟨fun _ => hrefl, fun _ => ?_⟩⟩⟩
  have hl : provider.live = true := by simpa [KeyringProviderRecord.live] using hlive
  exact ⟨fun _ => (verifyProviderKeysInUse_quiet provider).mono (fun _ t ht => ⟨ht, hl⟩)
    fun _ t ht => ht, fun _ => ⟨hrefl, hl⟩⟩

/-- What an operation that returns has done: keys were loaded, then one slot written. -/
def ProviderOp.Done (op : ProviderOp) (s t : Server) : Prop :=
  ∃ u offset r, Cached s u ∧ op.Writes (s.providers op.dbOid) offset r ∧
    Quiet (u.putProvider op.dbOid offset r) t

/-- What an operation that raises an error has done. -/
def ProviderOp.Failed (op : ProviderOp) (s t : Server) : Prop :=
  Cached s t ∨ ∃ u offset r, Cached s u ∧ op.Writes (s.providers op.dbOid) offset r ∧
    WriteFailed u op.dbOid offset r t ∧ ¬s.SysOk

/-- The write at the end of an operation. -/
theorem ProviderOp.write_spec (op : ProviderOp) {offset : ℕ} {r : KeyringProviderRecord}
    (hu : Cached s u) (hw : op.Writes (s.providers op.dbOid) offset r) :
    wp (writeKeyProviderInfo op.dbOid offset r) (fun _ t => op.Done s t) (fun _ t => op.Failed s t)
      u :=
  (writeKeyProviderInfo_spec op.dbOid offset r).mono (fun _ _ ht => ⟨u, offset, r, hu, hw, ht⟩)
    fun _ _ ht => .inr ⟨u, offset, r, hu, hw, ht.1, fun h => ht.2 (hu.sysOk h)⟩

theorem addKeyProvider_spec (c : ProviderCall) (dbOid : Oid) :
    wp (addKeyProvider w c dbOid) (fun _ t => (ProviderOp.add c dbOid).Done s t)
      (fun _ t => (ProviderOp.add c dbOid).Failed s t) s := by
  have hrefl : Cached s s := (Quiet.refl s).cached
  unfold addKeyProvider
  simp only [wp_bind, wp_ite, wp_throw]
  refine ⟨fun _ => .inl hrefl, fun _ => ?_⟩
  rcases htype : c.providerType with _ | type
  · exact .inl hrefl
  rcases hname : c.providerName with _ | name
  · exact .inl hrefl
  rcases hoptions : c.options with _ | options
  · exact .inl hrefl
  simp only [wp_bind, wp_ite, wp_throw]
  refine ⟨fun _ => .inl hrefl, fun _ => ⟨fun _ => .inl hrefl, fun _ =>
    ⟨fun _ => .inl hrefl, fun _ => ?_⟩⟩⟩
  unfold saveNewKeyProviderInfo
  refine (wp_bind ..).2 ((checkProviderRecord_quiet _).mono (fun _ t ht => ?_)
    fun _ t ht => .inl ht.cached)
  refine (wp_bind ..).2 ((sysCall_spec _).mono (fun _ u hu => ?_)
    fun _ u hu => .inl (ht.1.trans hu.2.1).cached)
  have hsu : Cached s u := (ht.1.trans hu).cached
  simp only [wp_bind, wp_get, wp_ite, wp_throw, hsu.providers]
  refine ⟨fun _ => .inl hsu, fun hnew => ⟨fun _ => .inl hsu, fun hmax => ?_⟩⟩
  refine ProviderOp.write_spec (.add c dbOid) hsu ⟨name, hname, .add ht.2 rfl ?_ hmax rfl, rfl⟩
  intro r hr
  rw [Bool.not_eq_true, List.any_eq_false] at hnew
  exact Bool.eq_false_iff.2 (hnew r hr)

theorem changeKeyProvider_spec (c : ProviderCall) (dbOid : Oid) :
    wp (changeKeyProvider w c dbOid) (fun _ t => (ProviderOp.change c dbOid).Done s t)
      (fun _ t => (ProviderOp.change c dbOid).Failed s t) s := by
  have hrefl : Cached s s := (Quiet.refl s).cached
  unfold changeKeyProvider
  simp only [wp_bind, wp_ite, wp_throw]
  refine ⟨fun _ => .inl hrefl, fun _ => ?_⟩
  rcases htype : c.providerType with _ | type
  · exact .inl hrefl
  rcases hname : c.providerName with _ | name
  · exact .inl hrefl
  rcases hoptions : c.options with _ | options
  · exact .inl hrefl
  simp only [wp_bind, wp_get]
  rcases getKeyProviderByName s.providers name dbOid with _ | keyring
  · exact .inl hrefl
  simp only [wp_bind, wp_ite, wp_throw]
  refine ⟨fun _ => .inl hrefl, fun _ => ?_⟩
  unfold modifyKeyProviderInfo
  refine (wp_bind ..).2 ((checkProviderRecord_quiet _).mono (fun _ t ht => ?_)
    fun _ t ht => .inl ht.cached)
  refine (wp_bind ..).2 ((sysCall_spec _).mono (fun _ u hu => ?_)
    fun _ u hu => .inl (ht.1.trans hu.2.1).cached)
  have hsu : Cached s u := (ht.1.trans hu).cached
  simp only [wp_bind, wp_get, hsu.providers]
  rcases hrec : getKeyringInfoFileRecordByName name (s.providers dbOid) with _ | ⟨offset, record⟩
  · exact .inl hsu
  simp only [wp_bind, wp_ite, wp_throw, not_not]
  refine ⟨fun _ => .inl hsu, fun hid => ?_⟩
  obtain ⟨pre, post, hfile, rfl, hnamed, -⟩ := getKeyringInfoFileRecordByName_eq_some hrec
  refine ProviderOp.write_spec (.change c dbOid) hsu
    ⟨name, hname, .change hfile hnamed ht.2 rfl hid, ht.2, ?_⟩
  show pre.length < (s.providers dbOid).length
  rw [hfile, List.length_append, List.length_cons]
  omega

theorem deleteKeyProvider_spec (c : ProviderCall) (dbOid : Oid) :
    wp (deleteKeyProvider w c dbOid) (fun _ t => (ProviderOp.delete c dbOid).Done s t)
      (fun _ t => (ProviderOp.delete c dbOid).Failed s t) s := by
  have hrefl : Cached s s := (Quiet.refl s).cached
  unfold deleteKeyProvider
  simp only [wp_bind, wp_ite, wp_throw]
  refine ⟨fun _ => .inl hrefl, fun _ => ?_⟩
  rcases hname : c.providerName with _ | name
  · exact .inl hrefl
  simp only [wp_bind, wp_get]
  rcases getKeyProviderByName s.providers name dbOid with _ | keyring
  · exact .inl hrefl
  refine (wp_bind ..).2 ((isProviderUsed_loads keyring.providerId).mono (fun b t ht => ?_)
    fun _ t ht => .inl ht)
  simp only [wp_bind, wp_ite, wp_throw]
  refine ⟨fun _ => .inl ht, fun _ => ?_⟩
  unfold deleteKeyProviderInfo
  refine (wp_bind ..).2 ((sysCall_spec _).mono (fun _ u hu => ?_)
    fun _ u hu => .inl (ht.trans hu.2.1.cached))
  have hsu : Cached s u := ht.trans hu.cached
  simp only [wp_bind, wp_get, hsu.providers]
  rcases hrec : getKeyringInfoFileRecordByName name (s.providers dbOid) with _ | ⟨offset, record⟩
  · exact .inl hsu
  obtain ⟨pre, post, hfile, rfl, hnamed, hfirst⟩ := getKeyringInfoFileRecordByName_eq_some hrec
  exact ProviderOp.write_spec (.delete c dbOid) hsu
    ⟨name, hname, .erase hfile hnamed hfirst, rfl⟩

theorem ProviderOp.exec_spec (op : ProviderOp) :
    wp (op.exec w) (fun _ t => op.Done s t) (fun _ t => op.Failed s t) s := by
  cases op with
  | add c dbOid => exact addKeyProvider_spec c dbOid
  | change c dbOid => exact changeKeyProvider_spec c dbOid
  | delete c dbOid => exact deleteKeyProvider_spec c dbOid

end OpenPgTde
