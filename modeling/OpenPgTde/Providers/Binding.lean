import OpenPgTde.Providers.File

/-!
Principal keys and the providers they are bound to.

A principal key is known by its header, and the header refers to a provider by id. `Bound` says that
every such reference leads to a live record, and that this record is the one its own name leads to:
keys are set through names, a name leads to the first live record that has it in any letters, and
records are only ever added behind the others. It asks nothing of what is behind the record: after a
change of its options the key may be gone, and then the operations on the key fail, but the
reference stays. The operations on principal keys are shown to keep `Bound` whether they return or
fail; none of them writes a provider file.
-/

namespace OpenPgTde

open Lib.Effect Lib.SlotArray

variable {w : World} {s t u : Server} {scope dbOid : Oid}

/-! ### References to providers -/

/-- What the header of a scope may say: it is the header of this scope, it refers to a live
provider that its name leads to, and for the default and the server scope this is a global one. -/
structure RefOk (providers : Oid → List KeyringProviderRecord) (scope : Oid)
    (d : TDEPrincipalKeyInfo) : Prop where
  owner : d.databaseId = scope
  shared : scope = defaultDataTdeOid ∨ scope = globalDataTdeOid → d.keyringId < 0
  resolves : ∃ r, getKeyProviderByID providers d.keyringId scope = some r ∧
    getKeyProviderByName providers r.providerName (providerScope d.keyringId scope) = some r

/-- The scopes that can have a key. -/
def Server.HasScope (s : Server) (scope : Oid) : Prop :=
  scope = globalDataTdeOid ∨ scope = defaultDataTdeOid ∨ ∃ db ∈ s.databases, db.oid = scope

/-- Every header refers to a live provider, and the cache has only keys of headers. -/
structure Bound (s : Server) : Prop where
  header : ∀ scope info, scopeInfo s scope = some info → RefOk s.providers scope info.data
  known : ∀ scope info, scopeInfo s scope = some info → s.HasScope scope
  cached : ∀ scope k, s.cache scope = some k →
    ∃ info, scopeInfo s scope = some info ∧ k.keyInfo = info.data
  files : ∀ scope, ProviderFileOk scope (s.providers scope)

theorem Bound.cache_none (hs : Bound s) (hi : scopeInfo s scope = none) : s.cache scope = none := by
  cases hc : s.cache scope with
  | none => rfl
  | some k =>
      obtain ⟨info, hi', -⟩ := hs.cached scope k hc
      rw [hi] at hi'
      cases hi'

/-- What is said of a cached key. -/
theorem Bound.refOk {k : TDEPrincipalKey} (hs : Bound s) (hk : s.cache scope = some k) :
    RefOk s.providers scope k.keyInfo := by
  obtain ⟨info, hi, hd⟩ := hs.cached scope k hk
  rw [hd]
  exact hs.header scope info hi

/-- The reference of the default key serves any scope. -/
theorem RefOk.withDatabaseId {providers : Oid → List KeyringProviderRecord}
    {d : TDEPrincipalKeyInfo} (h : RefOk providers defaultDataTdeOid d) (scope : Oid) :
    RefOk providers scope { d with databaseId := scope } := by
  have hneg : d.keyringId < 0 := h.shared (.inl rfl)
  have hfile : ∀ a, providerScope d.keyringId a = globalDataTdeOid := fun a => by
    simp [providerScope, hneg]
  obtain ⟨r, hr, hname⟩ := h.resolves
  refine ⟨rfl, fun _ => hneg, r, ?_, ?_⟩
  · rw [← hr]
    simp [getKeyProviderByID, hfile]
  · rw [hfile] at hname ⊢
    exact hname

/-- A name leads to a record that its own name leads to as well. -/
theorem getKeyProviderByName_self {files : Oid → List KeyringProviderRecord}
    {r : KeyringProviderRecord} {name : List UInt8}
    (h : getKeyProviderByName files name dbOid = some r) :
    getKeyProviderByName files r.providerName dbOid = some r := by
  have hmem := List.mem_of_mem_head? (Option.mem_def.2 h)
  rw [scanKeyProviderFile, List.mem_filter, Bool.and_eq_true] at hmem
  have heq : r.providerName.map pgTolower = name.map pgTolower := by
    simpa [pgStrcaseEq] using hmem.2.2
  have hsame : (fun a : KeyringProviderRecord => pgStrcaseEq a.providerName r.providerName) =
      fun a => pgStrcaseEq a.providerName name := by
    funext a
    simp [pgStrcaseEq, heq]
  rw [getKeyProviderByName, hsame]
  exact h

/-- The providers that the key of a scope may come from are in the file that a reference in this
scope leads to. -/
theorem ProviderFileOk.providerScope_eq {files : Oid → List KeyringProviderRecord}
    {providerOid : Oid} {r : KeyringProviderRecord} (hf : ProviderFileOk providerOid (files providerOid))
    (hscope : ProviderScopeOk providerOid scope) (hmem : r ∈ files providerOid) :
    providerScope r.providerId scope = providerOid ∧
      (scope = defaultDataTdeOid ∨ scope = globalDataTdeOid → r.providerId < 0) := by
  obtain ⟨hne, hsign⟩ := hf.sign r hmem
  obtain rfl | ⟨rfl, hd, hg⟩ := hscope
  · have hneg := hsign.2 rfl
    simp [providerScope, hneg]
  · have hpos : ¬r.providerId < 0 := fun h => hg (hsign.1 h)
    refine ⟨by simp [providerScope, hpos], fun h => ?_⟩
    obtain h | h := h
    · exact absurd h hd
    · exact absurd h hg

/-- The reference of a key that is set through a provider name. -/
theorem refOk_of_name {files : Oid → List KeyringProviderRecord} {providerOid : Oid}
    {r : KeyringProviderRecord} {name keyName : List UInt8} {now : Timeval}
    (hf : ProviderFileOk providerOid (files providerOid))
    (hscope : ProviderScopeOk providerOid scope)
    (hr : getKeyProviderByName files name providerOid = some r) :
    RefOk files scope ⟨scope, r.providerId, now, keyName⟩ := by
  obtain ⟨hmem, htype⟩ := mem_of_getKeyProviderByName hr
  have hfile := hf.providerScope_eq hscope hmem
  refine ⟨rfl, hfile.2, r, (hf.getKeyProviderByID_iff hfile.1).2 ⟨hmem, ?_, rfl⟩, ?_⟩
  · simpa [KeyringProviderRecord.live] using htype
  · rw [hfile.1]
    exact getKeyProviderByName_self hr

/-! ### Steps that keep the references -/

/-- From a state in which every reference is good to another one; the provider files and the
databases are the same. -/
structure Keeps (s t : Server) : Prop where
  bound : Bound t
  providers : t.providers = s.providers
  databases : t.databases = s.databases

theorem Keeps.refl (hs : Bound s) : Keeps s s := ⟨hs, rfl, rfl⟩

theorem Keeps.trans (h : Keeps s t) (h' : Keeps t u) : Keeps s u :=
  ⟨h'.bound, h'.providers.trans h.providers, h'.databases.trans h.databases⟩

/-- A step on one scope, after which its header and its cache entry are in order. -/
theorem Keeps.of_scope (scope : Oid) (hs : Bound s) (hp : t.providers = s.providers)
    (hd : t.databases = s.databases)
    (hother : ∀ a, a ≠ scope → scopeInfo t a = scopeInfo s a ∧ t.cache a = s.cache a)
    (hhead : ∀ info, scopeInfo t scope = some info →
      RefOk s.providers scope info.data ∧ s.HasScope scope)
    (hcache : ∀ k, t.cache scope = some k →
      ∃ info, scopeInfo t scope = some info ∧ k.keyInfo = info.data) : Keeps s t := by
  refine ⟨⟨fun a info hi => ?_, fun a info hi => ?_, fun a k hk => ?_, fun a => ?_⟩, hp, hd⟩
  · rw [hp]
    by_cases ha : a = scope
    · subst ha
      exact (hhead info hi).1
    · exact hs.header a info (by rw [← (hother a ha).1, hi])
  · rw [Server.HasScope, hd]
    by_cases ha : a = scope
    · subst ha
      exact (hhead info hi).2
    · exact hs.known a info (by rw [← (hother a ha).1, hi])
  · by_cases ha : a = scope
    · subst ha
      exact hcache k hk
    · rw [(hother a ha).2] at hk
      rw [(hother a ha).1]
      exact hs.cached a k hk
  · rw [hp]
    exact hs.files a

/-- A step after which the scope has no key. -/
theorem Keeps.of_none (scope : Oid) (hs : Bound s) (hp : t.providers = s.providers)
    (hd : t.databases = s.databases)
    (hother : ∀ a, a ≠ scope → scopeInfo t a = scopeInfo s a ∧ t.cache a = s.cache a)
    (hi : scopeInfo t scope = none) (hc : t.cache scope = none) : Keeps s t := by
  refine .of_scope scope hs hp hd hother (fun info h => ?_) fun k h => ?_
  · rw [hi] at h
    cases h
  · rw [hc] at h
    cases h

/-- A step that touches neither headers nor the cache. -/
theorem Keeps.of_eq (hs : Bound s) (hp : t.providers = s.providers)
    (hd : t.databases = s.databases) (hi : ∀ a, scopeInfo t a = scopeInfo s a)
    (hc : t.cache = s.cache) : Keeps s t := by
  refine .of_scope globalDataTdeOid hs hp hd (fun a _ => ⟨hi a, by rw [hc]⟩)
    (fun info h => ?_) fun k hk => ?_
  · rw [hi] at h
    exact ⟨hs.header _ info h, hs.known _ info h⟩
  · rw [hc] at hk
    rw [hi]
    exact hs.cached _ k hk

theorem Quiet.scopeInfo (h : Quiet s t) (a : Oid) : scopeInfo t a = scopeInfo s a :=
  h.cached.scopeInfo a

theorem Quiet.keeps (h : Quiet s t) (hs : Bound s) : Keeps s t :=
  .of_eq hs h.providers h.databases h.scopeInfo h.cache

theorem Keeps.quiet (h : Keeps s t) (hq : Quiet t u) : Keeps s u := h.trans (hq.keeps h.bound)

theorem Cached.keeps (h : Cached s t) (hs : Bound s) : Keeps s t := by
  refine ⟨⟨fun a info hi => ?_, fun a info hi => ?_, fun a k hk => ?_, fun a => ?_⟩,
    h.providers, h.databases⟩
  · rw [h.scopeInfo] at hi
    rw [h.providers]
    exact hs.header a info hi
  · rw [h.scopeInfo] at hi
    rw [Server.HasScope, h.databases]
    exact hs.known a info hi
  · rw [h.scopeInfo]
    obtain hk | ⟨b, info, hi, hb, hd⟩ := h.loaded a k hk
    · exact hs.cached a k hk
    · have hba : b = a := by rw [← (hs.header b info hi).owner, hb]
      exact ⟨info, by rw [← hba, hi], hd⟩
  · rw [h.providers]
    exact hs.files a

/-- No header of `s` refers to the provider of this id in the file of `dbOid`. -/
def Unreferenced (s : Server) (dbOid : Oid) (providerId : ℤ) : Prop :=
  ∀ scope info, scopeInfo s scope = some info → info.data.keyringId = providerId →
    providerScope providerId scope ≠ dbOid

theorem Unreferenced.congr {providerId : ℤ} (h : Unreferenced s dbOid providerId)
    (hi : ∀ a, scopeInfo t a = scopeInfo s a) : Unreferenced t dbOid providerId := by
  intro a info hinfo
  rw [hi] at hinfo
  exact h a info hinfo

/-- Like `Keeps`, where at most the provider of one id in one file has come to be referred to. -/
structure Rebinds (ref : Oid × ℤ) (s t : Server) : Prop where
  keeps : Keeps s t
  refs : ∀ dbOid providerId, Unreferenced s dbOid providerId → (dbOid, providerId) ≠ ref →
    Unreferenced t dbOid providerId

/-- The provider file and the id that a header of a scope refers to. -/
def TDEPrincipalKeyInfo.ref (d : TDEPrincipalKeyInfo) (scope : Oid) : Oid × ℤ :=
  (providerScope d.keyringId scope, d.keyringId)

section Rebinds

variable {ref : Oid × ℤ}

theorem Keeps.rebinds (h : Keeps s t) (hi : ∀ a, scopeInfo t a = scopeInfo s a) :
    Rebinds ref s t := ⟨h, fun _ _ hun _ => hun.congr hi⟩

theorem Rebinds.refl (hs : Bound s) : Rebinds ref s s := (Keeps.refl hs).rebinds fun _ => rfl

theorem Rebinds.trans (h : Rebinds ref s t) (h' : Rebinds ref t u) : Rebinds ref s u :=
  ⟨h.keeps.trans h'.keeps, fun a id hun hne => h'.refs a id (h.refs a id hun hne) hne⟩

theorem Rebinds.quiet (h : Rebinds ref s t) (hq : Quiet t u) : Rebinds ref s u :=
  h.trans ((hq.keeps h.keeps.bound).rebinds hq.scopeInfo)

/-- Where the provider was referred to already, none has come to be. -/
theorem Rebinds.unreferenced {providerId : ℤ} (h : Rebinds ref s t)
    (href : ¬Unreferenced s ref.1 ref.2) (hun : Unreferenced s dbOid providerId) :
    Unreferenced t dbOid providerId :=
  h.refs dbOid providerId hun fun heq => href (heq ▸ hun)

/-- A step that touches neither headers nor the cache. -/
theorem Rebinds.of_eq (hs : Bound s) (hp : t.providers = s.providers)
    (hd : t.databases = s.databases) (hi : ∀ a, scopeInfo t a = scopeInfo s a)
    (hc : t.cache = s.cache) : Rebinds ref s t := (Keeps.of_eq hs hp hd hi hc).rebinds hi

/-- A step after which the header of a scope, if there is one, says what `d` says. -/
theorem Rebinds.of_scope {d : TDEPrincipalKeyInfo} (scope : Oid) (hs : Bound s)
    (hp : t.providers = s.providers) (hdb : t.databases = s.databases)
    (hother : ∀ a, a ≠ scope → scopeInfo t a = scopeInfo s a ∧ t.cache a = s.cache a)
    (hd : RefOk s.providers scope d) (hscope : s.HasScope scope)
    (hhead : ∀ info, scopeInfo t scope = some info → info.data = d)
    (hcache : ∀ k, t.cache scope = some k →
      ∃ info, scopeInfo t scope = some info ∧ k.keyInfo = info.data) :
    Rebinds (d.ref scope) s t := by
  refine ⟨.of_scope scope hs hp hdb hother (fun info hi => ?_) hcache,
    fun a id hun hne b info hi hid hfile => ?_⟩
  · rw [hhead info hi]
    exact ⟨hd, hscope⟩
  · by_cases hb : b = scope
    · subst hb
      apply hne
      rw [TDEPrincipalKeyInfo.ref, ← hhead info hi, hid, hfile]
    · rw [(hother b hb).1] at hi
      exact hun b info hi hid hfile

/-- A step after which the scope has no key. -/
theorem Rebinds.of_none {d : TDEPrincipalKeyInfo} (scope : Oid) (hs : Bound s)
    (hp : t.providers = s.providers) (hdb : t.databases = s.databases)
    (hother : ∀ a, a ≠ scope → scopeInfo t a = scopeInfo s a ∧ t.cache a = s.cache a)
    (hd : RefOk s.providers scope d) (hscope : s.HasScope scope)
    (hi : scopeInfo t scope = none) (hc : t.cache scope = none) : Rebinds (d.ref scope) s t := by
  refine .of_scope scope hs hp hdb hother hd hscope (fun info h => ?_) fun k h => ?_
  · rw [hi] at h
    cases h
  · rw [hc] at h
    cases h

end Rebinds

section Puts

variable (s) (d : Oid) (f : Option KeyFile) (g : Option WalKeyFile)

theorem scopeInfo_putTmp (a : Oid) : scopeInfo (s.putKeyFile (.keysTmp d) f) a = scopeInfo s a :=
  scopeInfo_congr (fun _ => by simp) fun _ => rfl

theorem scopeInfo_putWalTmp (a : Oid) :
    scopeInfo (s.putWalKeys .walKeysTmp g) a = scopeInfo s a :=
  scopeInfo_congr (fun _ => rfl) fun _ => by simp

theorem scopeInfo_putKeyFile_of_ne {a : Oid} (ha : a ≠ d) :
    scopeInfo (s.putKeyFile (.keys d) f) a = scopeInfo s a :=
  scopeInfo_congr (fun _ => by simp [ha]) fun _ => rfl

theorem scopeInfo_putKeyFile_self (hg : d ≠ globalDataTdeOid) :
    scopeInfo (s.putKeyFile (.keys d) f) d = f.bind KeyFile.info := by
  simp [scopeInfo, hg]

theorem scopeInfo_putWalKeys_of_ne {a : Oid} (ha : a ≠ globalDataTdeOid) :
    scopeInfo (s.putWalKeys .walKeys g) a = scopeInfo s a :=
  scopeInfo_congr (fun _ => rfl) fun h => absurd h ha

theorem scopeInfo_putWalKeys_self :
    scopeInfo (s.putWalKeys .walKeys g) globalDataTdeOid = g.bind WalKeyFile.info := by
  simp [scopeInfo]

end Puts

/-! ### The parts of the operations on principal keys -/

/-- What a lookup has done, and what it returned. -/
structure LookedUp (s t : Server) (scope : Oid) (r : Option TDEPrincipalKey) : Prop where
  keeps : Keeps s t
  headers : ∀ a, scopeInfo t a = scopeInfo s a
  kept : ∀ a k, s.cache a = some k → t.cache a = some k
  result : r = t.cache scope
  missing : r = none → scopeInfo t scope = none

theorem getPrincipalKeyNoDefault_lookedUp (hs : Bound s) :
    wp (getPrincipalKeyNoDefault w scope) (fun r t => LookedUp s t scope r) (fun _ t => Cached s t)
      s := by
  refine getPrincipalKeyNoDefault_cached.mono (fun r t ht => ?_) fun _ _ ht => ht
  obtain ⟨hc, hr, hnone⟩ := ht
  refine ⟨hc.keeps hs, hc.scopeInfo, hc.kept, hr, fun hn => ?_⟩
  rw [hc.scopeInfo]
  cases hi : scopeInfo s scope with
  | none => rfl
  | some info => exact absurd (hs.header scope info hi).owner (hnone hn info hi)

theorem getPrincipalKeyNoDefault_keeps (hs : Bound s) :
    wp (getPrincipalKeyNoDefault w scope) (fun r t => LookedUp s t scope r) (fun _ t => Keeps s t)
      s :=
  (getPrincipalKeyNoDefault_lookedUp hs).mono (fun _ _ ht => ht) fun _ _ ht => ht.keeps hs

theorem LookedUp.refOk {k : TDEPrincipalKey} (h : LookedUp s t scope (some k)) :
    RefOk t.providers scope k.keyInfo := h.keeps.bound.refOk h.result.symm

/-- The first key of a scope. -/
theorem firstKey_rebinds {k : TDEPrincipalKey} (x : Bool) (hs : Bound s)
    (hi : scopeInfo s scope = none) (hk : RefOk s.providers scope k.keyInfo)
    (hscope : s.HasScope scope) :
    wp (do
        if scope = globalDataTdeOid then saveServerKey w k x else savePrincipalKey w k x
        pushPrincipalKeyToCache k)
      (fun _ t => Rebinds (k.keyInfo.ref scope) s t)
      (fun _ t => Rebinds (k.keyInfo.ref scope) s t) s := by
  have hc : s.cache scope = none := hs.cache_none hi
  have howner : k.keyInfo.databaseId = scope := hk.owner
  -- a state with the header, before the key is pushed
  have key : ∀ {v : Server} (info : TDESignedPrincipalKeyInfo), info.data = k.keyInfo →
      v.providers = s.providers → v.databases = s.databases → v.cache = s.cache →
      scopeInfo v scope = some info → (∀ a, a ≠ scope → scopeInfo v a = scopeInfo s a) →
      wp (pushPrincipalKeyToCache k) (fun _ t => Rebinds (k.keyInfo.ref scope) s t)
        (fun _ t => Rebinds (k.keyInfo.ref scope) s t) v := by
    intro v info hdata hp hd hcv hiv hother
    have hput : Rebinds (k.keyInfo.ref scope) s (v.putCache scope (some k)) := by
      refine .of_scope scope hs hp hd (fun a ha => ⟨hother a ha, ?_⟩) hk hscope
        (fun info' hi' => ?_) fun k' hk' => ?_
      · rw [putCache_cache, Function.update_of_ne ha, hcv]
      · replace hi' : OpenPgTde.scopeInfo v scope = some info' := hi'
        rw [hiv] at hi'
        cases hi'
        exact hdata
      · rw [putCache_cache, Function.update_self] at hk'
        cases hk'
        exact ⟨info, hiv, hdata.symm⟩
    refine (pushPrincipalKeyToCache_spec k (by rw [howner, hcv, hc])).mono (fun _ t ht => ?_)
      fun _ t ht => ?_
    · rw [howner] at ht
      exact hput.quiet ht
    · rw [howner] at ht
      exact hput.quiet ht.1
  by_cases hg : scope = globalDataTdeOid
  · subst hg
    rw [if_pos rfl, wp_bind]
    refine (saveServerKey_spec k x).mono (fun _ t ht => ?_) fun _ t ht => ?_
    · obtain ⟨info, hdata, -, hq⟩ := ht
      refine key info hdata hq.providers hq.databases hq.cache ?_ fun a ha => ?_
      · rw [hq.scopeInfo, scopeInfo_putWalKeys_self]
        rfl
      · rw [hq.scopeInfo, scopeInfo_putWalKeys_of_ne _ _ ha]
        rfl
    · obtain ⟨-, rs, -, hq | hq⟩ := ht
      · exact .of_eq hs hq.providers hq.databases hq.scopeInfo hq.cache
      · refine .of_none globalDataTdeOid hs hq.providers hq.databases
          (fun a ha => ⟨?_, by rw [hq.cache]; rfl⟩) hk hscope ?_ (by rw [hq.cache]; exact hc)
        · rw [hq.scopeInfo, scopeInfo_putWalKeys_of_ne _ _ ha]
          rfl
        · rw [hq.scopeInfo, scopeInfo_putWalKeys_self]
          rfl
  · rw [if_neg hg, wp_bind]
    refine (savePrincipalKey_spec k x).mono (fun _ t ht => ?_) fun _ t ht => ?_
    · obtain ⟨info, hdata, -, hq⟩ := ht
      rw [howner] at hq
      refine key info hdata hq.providers hq.databases hq.cache ?_ fun a ha => ?_
      · rw [hq.scopeInfo, scopeInfo_putKeyFile_self _ _ _ hg]
        rfl
      · rw [hq.scopeInfo, scopeInfo_putKeyFile_of_ne _ _ _ ha]
        rfl
    · rw [howner] at ht
      obtain ⟨-, rs, -, hq | hq⟩ := ht
      · exact .of_eq hs hq.providers hq.databases hq.scopeInfo hq.cache
      · refine .of_none scope hs hq.providers hq.databases
          (fun a ha => ⟨?_, by rw [hq.cache]; rfl⟩) hk hscope ?_ (by rw [hq.cache]; exact hc)
        · rw [hq.scopeInfo, scopeInfo_putKeyFile_of_ne _ _ _ ha]
          rfl
        · rw [hq.scopeInfo, scopeInfo_putKeyFile_self _ _ _ hg]
          rfl

/-- A rotation. -/
theorem rotatePrincipalKey_rebinds {pk newPk : TDEPrincipalKey} (x : Bool) (hs : Bound s)
    (hpk : pk.keyInfo.databaseId = scope) (hnew : RefOk s.providers scope newPk.keyInfo)
    (hscope : s.HasScope scope) :
    wp (rotatePrincipalKey w scope pk newPk x) (fun _ t => Rebinds (newPk.keyInfo.ref scope) s t)
      (fun _ t => Rebinds (newPk.keyInfo.ref scope) s t) s := by
  by_cases hg : scope = globalDataTdeOid
  · subst hg
    have hrot : ∀ {info' new t}, RewrittenWal w pk newPk (walEntries s) info' new →
        Quiet (s.rotatedWal newPk x info' new) t →
          Rebinds (newPk.keyInfo.ref globalDataTdeOid) s t := by
      intro info' new t hr hq
      have hi : scopeInfo t globalDataTdeOid = some info' := by
        rw [hq.scopeInfo]
        exact scopeInfo_wal_current (by simp [Server.rotatedWal]; rfl)
      refine .of_scope globalDataTdeOid hs hq.providers hq.databases
        (fun a ha => ⟨?_, ?_⟩) hnew hscope (fun info h => ?_) fun k hk => ?_
      · rw [hq.scopeInfo]
        exact scopeInfo_congr (fun _ => rfl) fun h => absurd h ha
      · rw [hq.cache, Server.rotatedWal, putCache_cache, Function.update_of_ne ha]
        rfl
      · rw [hi] at h
        cases h
        exact hr.data
      · rw [hq.cache, Server.rotatedWal, putCache_cache, Function.update_self] at hk
        cases hk
        exact ⟨info', hi, hr.data.symm⟩
    refine (rotateWalFile_spec x rfl hpk hnew.owner).mono (fun _ t ht => ?_) fun _ t ht => ?_
    · obtain ⟨info', new, hr, hq⟩ := ht
      exact hrot hr hq
    · obtain ⟨-, ⟨f, hq⟩ | ⟨info', new, hr, hq⟩⟩ := ht
      · exact .of_eq hs hq.providers hq.databases
          (fun a => by rw [hq.scopeInfo, scopeInfo_putWalTmp]) hq.cache
      · exact hrot hr hq
  · have hrot : ∀ {entries info' new t}, Rewritten w pk newPk entries info' new →
        Quiet (s.rotated scope newPk x info' new) t → Rebinds (newPk.keyInfo.ref scope) s t := by
      intro entries info' new t hr hq
      have hi : scopeInfo t scope = some info' := by
        rw [hq.scopeInfo]
        exact scopeInfo_current hg (by simp [Server.rotated]; rfl)
      refine .of_scope scope hs hq.providers hq.databases
        (fun a ha => ⟨?_, ?_⟩) hnew hscope (fun info h => ?_) fun k hk => ?_
      · rw [hq.scopeInfo]
        exact scopeInfo_congr (fun _ => by simp [Server.rotated, ha]) fun _ => rfl
      · rw [hq.cache, Server.rotated, putCache_cache, Function.update_of_ne ha]
        rfl
      · rw [hi] at h
        cases h
        exact hr.data
      · rw [hq.cache, Server.rotated, putCache_cache, Function.update_self] at hk
        cases hk
        exact ⟨info', hi, hr.data.symm⟩
    refine (rotateFile_spec x hg rfl hpk hnew.owner).mono (fun _ t ht => ?_) fun _ t ht => ?_
    · obtain ⟨info', new, hr, hq⟩ := ht
      exact hrot hr hq
    · obtain ⟨-, ⟨f, hq⟩ | ⟨info', new, hr, hq⟩⟩ := ht
      · exact .of_eq hs hq.providers hq.databases
          (fun a => by rw [hq.scopeInfo, scopeInfo_putTmp]) hq.cache
      · exact hrot hr hq

/-- The deletion of the key of a database or of the default key. -/
theorem deleteAndClear_keeps (hs : Bound s) (hg : scope ≠ globalDataTdeOid) :
    wp (do deletePrincipalKey scope; clearPrincipalKeyCache scope)
      (fun _ t => Keeps s t) (fun _ t => Keeps s t) s := by
  refine (wp_bind ..).2 (deletePrincipalKey_spec.mono (fun _ t ht => ?_) fun _ t ht => ?_)
  · have hq := ht.1.putCache scope none
    refine .of_none scope hs hq.providers hq.databases (fun a ha => ⟨?_, ?_⟩) ?_ ?_
    · rw [hq.scopeInfo]
      exact scopeInfo_putKeyFile_of_ne _ _ _ ha
    · rw [hq.cache, putCache_cache, Function.update_of_ne ha]
      rfl
    · rw [hq.scopeInfo]
      exact scopeInfo_putKeyFile_self _ _ _ hg
    · rw [hq.cache, putCache_cache, Function.update_self]
  · exact .of_eq hs ht.1.providers ht.1.databases ht.1.scopeInfo ht.1.cache

/-- The deletion of the server key. -/
theorem deleteServerAndClear_keeps (hs : Bound s) :
    wp (do deleteServerKey; clearPrincipalKeyCache globalDataTdeOid)
      (fun _ t => Keeps s t) (fun _ t => Keeps s t) s := by
  refine (wp_bind ..).2 (deleteServerKey_spec.mono (fun _ t ht => ?_) fun _ t ht => ?_)
  · have hq := ht.1.putCache globalDataTdeOid none
    refine .of_none globalDataTdeOid hs hq.providers hq.databases
      (fun a ha => ⟨?_, ?_⟩) ?_ ?_
    · rw [hq.scopeInfo]
      exact scopeInfo_congr (fun _ => rfl) fun h => absurd h ha
    · rw [hq.cache, putCache_cache, Function.update_of_ne ha]
      rfl
    · rw [hq.scopeInfo]
      exact scopeInfo_putWalKeys_self _ _
    · rw [hq.cache, putCache_cache, Function.update_self]
  · exact .of_eq hs ht.1.providers ht.1.databases ht.1.scopeInfo ht.1.cache

/-! ### The operations on principal keys -/

theorem Keeps.hasScope (h : Keeps s t) (hs : s.HasScope scope) : t.HasScope scope := by
  rw [Server.HasScope, h.databases]
  exact hs

/-- The lookup of the provider in `set_principal_key_with_keyring`. -/
def findKeyProvider (providerName : List UInt8) (providerOid : Oid) : M KeyringProviderRecord := do
  let s ← get
  match getKeyProviderByName s.providers providerName providerOid with
  | none => throw (.providerNotFound providerName)
  | some keyring => pure keyring

/-- The rest of `set_principal_key_with_keyring`: the key is fetched and the header written. -/
def writePrincipalKey (w : World) (keyName : List UInt8) (dbOid : Oid)
    (curr : Option TDEPrincipalKey) (keyring : KeyringProviderRecord) : M Unit := do
  let s ← get
  match keyringGetKey w s.kms keyring keyName with
  | .error code => throw (.keyringFailed code)
  | .ok none => throw (.keyNotFound keyName)
  | .ok (some k) => do
    let newPk ← newPrincipalKey dbOid keyring k
    match curr with
    | none => do
      if dbOid = globalDataTdeOid then saveServerKey w newPk true
      else savePrincipalKey w newPk true
      pushPrincipalKeyToCache newPk
    | some curr => rotatePrincipalKey w dbOid curr newPk true

theorem setPrincipalKeyWithKeyring_eq (keyName providerName : List UInt8) (providerOid : Oid) :
    setPrincipalKeyWithKeyring w keyName providerName providerOid dbOid = (do
      let curr ← getPrincipalKeyNoDefault w dbOid
      let keyring ← findKeyProvider providerName providerOid
      writePrincipalKey w keyName dbOid curr keyring) := by
  refine bind_congr fun curr => ?_
  unfold findKeyProvider
  rw [bind_assoc]
  refine get_bind_congr fun s => ?_
  cases getKeyProviderByName s.providers providerName providerOid with
  | none => rfl
  | some keyring => rfl

theorem findKeyProvider_spec (providerName : List UInt8) (providerOid : Oid) :
    wp (findKeyProvider providerName providerOid)
      (fun keyring t => t = s ∧
        getKeyProviderByName s.providers providerName providerOid = some keyring)
      (fun _ t => t = s ∧ getKeyProviderByName s.providers providerName providerOid = none) s := by
  refine (wp_bind ..).2 ((wp_get ..).2 ?_)
  cases hr : getKeyProviderByName s.providers providerName providerOid with
  | none => exact ⟨rfl, rfl⟩
  | some keyring => exact ⟨rfl, rfl⟩

theorem writePrincipalKey_rebinds {keyring : KeyringProviderRecord} {providerOid : Oid}
    {curr : Option TDEPrincipalKey} {providerName : List UInt8} (hs : Bound s)
    (hscope : ProviderScopeOk providerOid scope) (hknown : s.HasScope scope)
    (hcurr : s.cache scope = curr) (hmissing : curr = none → scopeInfo s scope = none)
    (hr : getKeyProviderByName s.providers providerName providerOid = some keyring)
    (keyName : List UInt8) :
    wp (writePrincipalKey w keyName scope curr keyring)
      (fun _ t => Rebinds (providerScope keyring.providerId scope, keyring.providerId) s t)
      (fun _ t => Rebinds (providerScope keyring.providerId scope, keyring.providerId) s t) s := by
  refine (wp_bind ..).2 ((wp_get ..).2 ?_)
  rcases keyringGetKey w s.kms keyring keyName with code | _ | k
  · exact .refl hs
  · exact .refl hs
  · refine (wp_bind ..).2 ((wp_bind ..).2 (getTimeOfDay_spec.mono (fun now u hu => ?_)
      fun _ _ h => h.elim))
    have hsu : Rebinds (providerScope keyring.providerId scope, keyring.providerId) s u :=
      (Rebinds.refl hs).quiet hu
    have href : RefOk u.providers scope ⟨scope, keyring.providerId, now, k.name⟩ := by
      rw [hu.providers]
      exact refOk_of_name (hs.files providerOid) hscope hr
    have hbound := hsu.keeps.bound
    have hknown : u.HasScope scope := by
      rw [Server.HasScope, hu.databases]
      exact hknown
    cases curr with
    | none =>
        have hi : scopeInfo u scope = none := by rw [hu.scopeInfo, hmissing rfl]
        exact (firstKey_rebinds true hbound hi href hknown).mono (fun _ v hv => hsu.trans hv)
          fun _ v hv => hsu.trans hv
    | some curr =>
        exact (rotatePrincipalKey_rebinds true hbound (hs.refOk hcurr).owner href hknown).mono
          (fun _ v hv => hsu.trans hv) fun _ v hv => hsu.trans hv

theorem setPrincipalKeyWithKeyring_keeps {providerOid : Oid} (hs : Bound s)
    (hscope : ProviderScopeOk providerOid scope) (hknown : s.HasScope scope)
    (keyName providerName : List UInt8) :
    wp (setPrincipalKeyWithKeyring w keyName providerName providerOid scope)
      (fun _ t => Keeps s t) (fun _ t => Keeps s t) s := by
  rw [setPrincipalKeyWithKeyring_eq]
  refine (wp_bind ..).2 ((getPrincipalKeyNoDefault_keeps hs).mono (fun curr t ht => ?_)
    fun _ _ h => h)
  have hst := ht.keeps
  refine (wp_bind ..).2 ((findKeyProvider_spec providerName providerOid).mono
    (fun keyring u hu => ?_) fun _ u hu => ?_)
  · obtain ⟨rfl, hr⟩ := hu
    exact (writePrincipalKey_rebinds hst.bound hscope (hst.hasScope hknown) ht.result.symm ht.missing
      hr keyName).mono (fun _ v hv => hst.trans hv.keeps) fun _ v hv => hst.trans hv.keeps
  · rw [hu.1]
    exact hst

/-- The reference of the default key is the same in every scope. -/
theorem RefOk.ref_withDatabaseId {providers : Oid → List KeyringProviderRecord}
    {d : TDEPrincipalKeyInfo} (h : RefOk providers defaultDataTdeOid d) (scope : Oid) :
    { d with databaseId := scope }.ref scope = d.ref defaultDataTdeOid := by
  have hneg : d.keyringId < 0 := h.shared (.inl rfl)
  simp [TDEPrincipalKeyInfo.ref, providerScope, hneg]

theorem rotateDefaultKeyForDatabase_rebinds {oldKey newKey : TDEPrincipalKey} (hs : Bound s)
    (hold : s.cache scope = some oldKey)
    (hnew : RefOk s.providers defaultDataTdeOid newKey.keyInfo) :
    wp (rotateDefaultKeyForDatabase w oldKey newKey)
      (fun _ t => Rebinds (newKey.keyInfo.ref defaultDataTdeOid) s t)
      (fun _ t => Rebinds (newKey.keyInfo.ref defaultDataTdeOid) s t) s := by
  have howner : oldKey.keyInfo.databaseId = scope := (hs.refOk hold).owner
  obtain ⟨info, hi, -⟩ := hs.cached scope oldKey hold
  unfold rotateDefaultKeyForDatabase
  rw [howner, ← hnew.ref_withDatabaseId scope]
  have hinfo : RefOk s.providers scope
      { newKey with keyInfo := { newKey.keyInfo with databaseId := scope } }.keyInfo :=
    hnew.withDatabaseId scope
  exact rotatePrincipalKey_rebinds true hs howner hinfo (hs.known scope info hi)

theorem updateDefaultPrincipalKey_rebinds {oldKey newKey : TDEPrincipalKey} (hs : Bound s)
    (hnew : RefOk s.providers defaultDataTdeOid newKey.keyInfo) :
    wp (updateDefaultPrincipalKey w oldKey newKey scope)
      (fun _ t => Rebinds (newKey.keyInfo.ref defaultDataTdeOid) s t)
      (fun _ t => Rebinds (newKey.keyInfo.ref defaultDataTdeOid) s t) s := by
  refine (wp_bind ..).2 ((getPrincipalKeyNoDefault_lookedUp hs).mono (fun r t ht => ?_)
    fun _ _ h => (h.keeps hs).rebinds h.scopeInfo)
  have hst : Rebinds (newKey.keyInfo.ref defaultDataTdeOid) s t := ht.keeps.rebinds ht.headers
  cases r with
  | none => exact hst
  | some k =>
      refine (wp_ite ..).2 ⟨fun _ => ?_, fun _ => hst⟩
      rw [← hst.keeps.providers] at hnew
      exact (rotateDefaultKeyForDatabase_rebinds hst.keeps.bound ht.result.symm hnew).mono
        (fun _ u hu => hst.trans hu) fun _ u hu => hst.trans hu

theorem updateDefaultPrincipalKeyEverywhere_rebinds {oldKey newKey : TDEPrincipalKey}
    (hs : Bound s) (hnew : RefOk s.providers defaultDataTdeOid newKey.keyInfo) :
    wp (updateDefaultPrincipalKeyEverywhere w oldKey newKey)
      (fun _ t => Rebinds (newKey.keyInfo.ref defaultDataTdeOid) s t)
      (fun _ t => Rebinds (newKey.keyInfo.ref defaultDataTdeOid) s t) s := by
  refine (wp_bind ..).2 ((updateDefaultPrincipalKey_rebinds hs hnew).mono (fun _ t ht => ?_)
    fun _ _ h => h)
  simp only [wp_bind, wp_get]
  refine wp_forM (fun u => Rebinds (newKey.keyInfo.ref defaultDataTdeOid) s u) _ _ ht
    fun db _ u hu => ?_
  rw [← hu.keeps.providers] at hnew
  exact (updateDefaultPrincipalKey_rebinds hu.keeps.bound hnew).mono (fun _ v hv => hu.trans hv)
    fun _ v hv => hu.trans hv

theorem setPrincipalKeyInternal_keeps {providerOid : Oid} (hs : Bound s)
    (hscope : ProviderScopeOk providerOid scope) (hknown : s.HasScope scope) (c : SetKeyCall) :
    wp (setPrincipalKeyInternal w providerOid scope c) (fun _ t => Keeps s t)
      (fun _ t => Keeps s t) s := by
  unfold setPrincipalKeyInternal
  cases checkSetKeyCall providerOid c with
  | error e => exact .refl hs
  | ok names =>
      obtain ⟨keyName, providerName⟩ := names
      dsimp only
      -- the key that is there already is only looked up for the default scope
      have hset : ∀ {t} (existing : Option TDEPrincipalKey), Keeps s t →
          (existing ≠ none → scope = defaultDataTdeOid) →
          wp (do
              setPrincipalKeyWithKeyring w keyName providerName providerOid scope
              match existing with
              | none => pure ()
              | some oldKey =>
                match ← getPrincipalKeyNoDefault w scope with
                | none => pure ()
                | some newKey => updateDefaultPrincipalKeyEverywhere w oldKey newKey)
            (fun _ t => Keeps s t) (fun _ t => Keeps s t) t := by
        intro t existing hst hd
        refine (wp_bind ..).2 ((setPrincipalKeyWithKeyring_keeps hst.bound hscope
          (hst.hasScope hknown) keyName providerName).mono (fun _ u hu => ?_)
          fun _ u hu => hst.trans hu)
        cases existing with
        | none => exact hst.trans hu
        | some oldKey =>
            obtain rfl := hd (by simp)
            refine (wp_bind ..).2 ((getPrincipalKeyNoDefault_keeps hu.bound).mono
              (fun r v hv => ?_) fun _ v hv => (hst.trans hu).trans hv)
            have hsv : Keeps s v := (hst.trans hu).trans hv.keeps
            cases r with
            | none => exact hsv
            | some newKey =>
                exact (updateDefaultPrincipalKeyEverywhere_rebinds hv.keeps.bound hv.refOk).mono
                  (fun _ x hx => hsv.trans hx.keeps) fun _ x hx => hsv.trans hx.keeps
      refine (wp_ite ..).2 ⟨fun hd => ?_, fun _ => ?_⟩
      · refine (wp_bind ..).2 ((getPrincipalKeyNoDefault_keeps hs).mono (fun existing t ht => ?_)
          fun _ _ h => h)
        exact hset existing ht.keeps fun _ => hd
      · exact hset none (.refl hs) fun h => absurd rfl h

theorem setDefaultKeyUsingGlobalKeyProvider_keeps (hs : Bound s) (c : SetKeyCall) :
    wp (setDefaultKeyUsingGlobalKeyProvider w c) (fun _ t => Keeps s t) (fun _ t => Keeps s t)
      s := by
  refine (wp_bind ..).2 ((setPrincipalKeyInternal_keeps hs (.inl rfl) (.inr (.inl rfl)) c).mono
    (fun _ t ht => ?_) fun _ _ h => h)
  refine (wp_bind ..).2 ((getPrincipalKeyNoDefault_keeps ht.bound).mono (fun r u hu => ?_)
    fun _ u hu => ht.trans hu)
  have hsu := ht.trans hu.keeps
  cases r with
  | some k => exact hsu
  | none =>
      exact (setPrincipalKeyInternal_keeps hsu.bound (.inl rfl) (.inl rfl) c).mono
        (fun _ v hv => hsu.trans hv) fun _ v hv => hsu.trans hv

/-- The fallback to the default key. -/
theorem getPrincipalKey_keeps (hs : Bound s) (hknown : s.HasScope scope) :
    wp (getPrincipalKey w scope) (fun _ t => Keeps s t) (fun _ t => Keeps s t) s := by
  refine (wp_bind ..).2 ((getPrincipalKeyNoDefault_keeps hs).mono (fun r t ht => ?_)
    fun _ _ h => h)
  have hst := ht.keeps
  cases r with
  | some k => exact hst
  | none =>
      refine (wp_bind ..).2 ((getPrincipalKeyNoDefault_keeps hst.bound).mono (fun r u hu => ?_)
        fun _ u hu => hst.trans hu)
      have hsu := hst.trans hu.keeps
      cases r with
      | none => exact hsu
      | some k =>
          have hi : scopeInfo u scope = none := by rw [hu.headers, ht.missing rfl]
          have hget : ∀ x, Keeps u x → wp (getPrincipalKeyNoDefault w scope)
              (fun _ y => Keeps s y) (fun _ y => Keeps s y) x := fun x hx =>
            (getPrincipalKeyNoDefault_keeps hx.bound).mono
              (fun _ y hy => hsu.trans (hx.trans hy.keeps)) fun _ y hy => hsu.trans (hx.trans hy)
          have hfirst := (firstKey_rebinds (w := w) (k := { k with
            keyInfo := { k.keyInfo with databaseId := scope } }) false hsu.bound hi
            (hu.refOk.withDatabaseId scope) (hsu.hasScope hknown)).mono
            (fun _ x hx => hget x hx.keeps) fun _ x hx => hsu.trans hx.keeps
          simpa only [wp_ite, wp_bind] using hfirst

theorem countEncryptionKeys_quiet (db spcOid : Oid) :
    wp (countEncryptionKeys db spcOid) (fun _ t => Quiet s t) (fun _ t => Quiet s t) s := by
  refine (wp_bind ..).2 ((openFileRead_spec true).mono (fun r t ht => ?_) fun _ t h => h.1)
  cases r with
  | none => exact ht.1
  | some entries => exact ht.1

theorem countWalRangesInFile_quiet :
    wp countWalRangesInFile (fun _ t => Quiet s t) (fun _ t => Quiet s t) s := by
  refine (wp_bind ..).2 ((openWalKeyFileRead_spec true).mono (fun r t ht => ?_) fun _ t h => h.1)
  cases r with
  | none => exact ht.1
  | some entries => exact ht.1

theorem deleteKey_keeps (hs : Bound s) (db : DatabaseId) :
    wp (deleteKey w db) (fun _ t => Keeps s t) (fun _ t => Keeps s t) s := by
  refine (wp_bind ..).2 ((getPrincipalKeyNoDefault_keeps hs).mono (fun r t ht => ?_)
    fun _ _ h => h)
  have hst := ht.keeps
  cases r with
  | none => exact hst
  | some k =>
      refine (wp_bind ..).2 ((countEncryptionKeys_quiet db.oid 0).mono (fun n u hu => ?_)
        fun _ u hu => hst.quiet hu)
      have hsu := hst.quiet hu
      refine (wp_ite ..).2 ⟨fun _ => ?_, fun _ => ?_⟩
      · refine (wp_bind ..).2 ((getPrincipalKeyNoDefault_keeps hsu.bound).mono (fun r v hv => ?_)
          fun _ v hv => hsu.trans hv)
        have hsv := hsu.trans hv.keeps
        cases r with
        | none => exact hsv
        | some defaultKey =>
            refine (wp_ite ..).2 ⟨fun _ => hsv, fun _ => ?_⟩
            have hk : v.cache db.oid = some k := by
              refine hv.kept db.oid k ?_
              rw [hu.cache, ← ht.result]
            exact (rotateDefaultKeyForDatabase_rebinds hsv.bound hk hv.refOk).mono
              (fun _ x hx => hsv.trans hx.keeps) fun _ x hx => hsv.trans hx.keeps
      · exact (deleteAndClear_keeps hsu.bound db.ne_global).mono (fun _ x hx => hsu.trans hx)
          fun _ x hx => hsu.trans hx

theorem databasesUsingDefaultKey_keeps (hs : Bound s) (defaultKey : TDEPrincipalKey)
    (dbs : List DatabaseId) :
    wp (databasesUsingDefaultKey w defaultKey dbs) (fun _ t => Keeps s t) (fun _ t => Keeps s t)
      s := by
  induction dbs generalizing s with
  | nil => exact .refl hs
  | cons db dbs ih =>
      refine (wp_bind ..).2 ((getPrincipalKeyNoDefault_keeps hs).mono (fun r t ht => ?_)
        fun _ _ h => h)
      have hst := ht.keeps
      refine (wp_ite ..).2 ⟨fun _ => ?_, fun _ => ?_⟩
      · refine (wp_bind ..).2 ((countEncryptionKeys_quiet db.oid 0).mono (fun n u hu => ?_)
          fun _ u hu => hst.quiet hu)
        have hsu := hst.quiet hu
        simp only [wp_ite, wp_throw, wp_bind, wp_pure]
        exact ⟨fun _ => hsu, fun _ => (ih hsu.bound).mono (fun _ v hv => hsu.trans hv)
          fun _ v hv => hsu.trans hv⟩
      · exact (ih hst.bound).mono (fun _ v hv => hst.trans hv) fun _ v hv => hst.trans hv

theorem deleteDefaultKey_keeps (hs : Bound s) (superuser : Bool) :
    wp (deleteDefaultKey w superuser) (fun _ t => Keeps s t) (fun _ t => Keeps s t) s := by
  unfold deleteDefaultKey
  simp only [wp_bind, wp_ite, wp_throw]
  refine ⟨fun _ => .refl hs, fun _ => ?_⟩
  refine (getPrincipalKeyNoDefault_keeps hs).mono (fun r t ht => ?_) fun _ _ h => h
  have hst := ht.keeps
  cases r with
  | none => exact hst
  | some defaultKey =>
      simp only [wp_bind, wp_get]
      refine (databasesUsingDefaultKey_keeps hst.bound defaultKey t.databases).mono
        (fun dbs u hu => ?_) fun _ u hu => hst.trans hu
      have hsu := hst.trans hu
      refine (getPrincipalKeyNoDefault_keeps hsu.bound).mono (fun serverKey v hv => ?_)
        fun _ v hv => hsu.trans hv
      have hsv := hsu.trans hv.keeps
      -- the deletions at the end, after the server key was dealt with
      have hrest : ∀ {x}, Keeps s x → wp (do
          forM dbs fun db => do
            deletePrincipalKey db.oid
            clearPrincipalKeyCache db.oid
          deletePrincipalKey defaultDataTdeOid
          clearPrincipalKeyCache defaultDataTdeOid)
          (fun _ y => Keeps s y) (fun _ y => Keeps s y) x := by
        intro x hsx
        refine (wp_bind ..).2 ((wp_forM (fun y => Keeps s y) _ _ hsx fun db _ y hy => ?_).mono
          (fun _ y hy => ?_) fun _ _ h => h)
        · exact (deleteAndClear_keeps hy.bound db.ne_global).mono (fun _ z hz => hy.trans hz)
            fun _ z hz => hy.trans hz
        · exact (deleteAndClear_keeps hy.bound (by decide)).mono (fun _ z hz => hy.trans hz)
            fun _ z hz => hy.trans hz
      refine (wp_ite ..).2 ⟨fun _ => ?_, fun _ => ?_⟩
      · refine (wp_bind ..).2 (countWalRangesInFile_quiet.mono (fun n x hx => ?_)
          fun _ x hx => hsv.quiet hx)
        have hsx := hsv.quiet hx
        simp only [wp_ite, wp_throw, wp_bind]
        refine ⟨fun _ => hsx, fun _ => ?_⟩
        have hdel := (deleteServerAndClear_keeps hsx.bound).mono
          (fun _ y hy => hrest (hsx.trans hy)) fun _ y hy => hsx.trans hy
        simpa only [wp_bind] using hdel
      · simpa only [wp_bind] using hrest hsv

end OpenPgTde
