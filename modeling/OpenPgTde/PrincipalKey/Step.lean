import Mathlib.Logic.Relation
import OpenPgTde.PrincipalKey.Operations
import OpenPgTde.WalKeys.Specs

/-!
What the principal-key operations can do to a server, step by step.

`principalKeyOf` is the key that the header of a scope names and that verifies against it: the
abstract principal key, of which header, entries and cache are three copies. `ScopeOk` says that the
copies of one scope agree. `LoggedStep` lists the effects of which the operations on principal keys
are made: loading a key into the cache, the first key of a scope, a rotation, a deletion, and what a
failed system call can leave behind. `KeyStep` adds the same effects without a record of them, which
is what the fallback to the default key and replay have, and the deletion of the server key.
Invariants are proved here once, against this list; that the programs are made of these steps is
proved in `Programs`.
-/

namespace OpenPgTde

open Lib.Effect Lib.SlotArray

variable {w : World} {s t : Server} {scope : Oid}

/-! ### The principal key of a scope -/

/-- The principal key information in the header of a scope. -/
def scopeInfo (s : Server) (scope : Oid) : Option TDESignedPrincipalKeyInfo :=
  if scope = globalDataTdeOid then (s.walKeys .walKeys).bind WalKeyFile.info
  else (s.keyFiles (.keys scope)).bind KeyFile.info

/-- The key a header names, if it exists and verifies against the header. -/
def namedKey (w : World) (providers : Oid → List KeyringProviderRecord) (scope : Oid)
    (info : TDESignedPrincipalKeyInfo) : Option TDEPrincipalKey :=
  match getKeyProviderByID providers info.data.keyringId scope with
  | none => none
  | some keyring =>
    match w.vault keyring info.data.name with
    | none => none
    | some k => if verifyPrincipalKeyInfo w info k.data then some ⟨info.data, k.data⟩ else none

/-- The principal key of a scope. -/
def principalKeyOf (w : World) (s : Server) (scope : Oid) : Option TDEPrincipalKey :=
  (scopeInfo s scope).bind (namedKey w s.providers scope)

theorem keyInfo_of_namedKey {providers : Oid → List KeyringProviderRecord}
    {info : TDESignedPrincipalKeyInfo} {k : TDEPrincipalKey}
    (h : namedKey w providers scope info = some k) : k.keyInfo = info.data := by
  unfold namedKey at h
  split at h
  · cases h
  · split at h
    · cases h
    · split at h
      · cases h
        rfl
      · cases h

theorem principalKeyOf_eq_some {k : TDEPrincipalKey} :
    principalKeyOf w s scope = some k ↔
      ∃ info, scopeInfo s scope = some info ∧ namedKey w s.providers scope info = some k := by
  simp [principalKeyOf, Option.bind_eq_some_iff]

/-- The relation keys of a database: every live entry of its file with what it decrypts to under
the principal key of the database. -/
def relationTable (w : World) (s : Server) (db : Oid) :
    List ((Oid × UInt32) × Option InternalKey) :=
  match s.keyFiles (.keys db), principalKeyOf w s db with
  | some (.current _ entries), some k => keyTable w k.keyData entries
  | _, _ => []

/-- The map from relations to internal keys of a database. -/
def relationKeys (w : World) (s : Server) (db : Oid) (rel : Oid × UInt32) : Option InternalKey :=
  ((relationTable w s db).lookup rel).join

/-! ### The invariant -/

/-- Provider files as the provider operations leave them: no id twice, and the ids of global
providers negative. -/
structure ProvidersOk (providers : Oid → List KeyringProviderRecord) : Prop where
  nodup : ∀ oid, ((providers oid).map (·.providerId)).Nodup
  global : ∀ r ∈ providers globalDataTdeOid, r.providerId < 0
  database : ∀ oid, oid ≠ globalDataTdeOid → ∀ r ∈ providers oid, 0 < r.providerId

/-- A header and the key it names. The name in it is the one the keyring knows the key by, and the
key passed the validation when it was fetched. Keys of the default and of the server scope come from
a global provider, so that any scope can take them over. -/
structure HeaderFor (w : World) (providers : Oid → List KeyringProviderRecord) (scope : Oid)
    (info : TDESignedPrincipalKeyInfo) (k : TDEPrincipalKey) : Prop where
  named : namedKey w providers scope info = some k
  owner : info.data.databaseId = scope
  shared : scope = defaultDataTdeOid ∨ scope = globalDataTdeOid → info.data.keyringId < 0
  fetched : ∃ r, getKeyProviderByID providers info.data.keyringId scope = some r ∧
    w.vault r info.data.name = some ⟨info.data.name, k.keyData⟩ ∧
    validateKey ⟨info.data.name, k.keyData⟩ = true

/-- The copies of the principal key of a scope agree: the header names a key that exists and
verifies, the entries decrypt under it, and the cache has nothing else. The default scope is not
that of a database and has no relations. -/
structure ScopeOk (w : World) (s : Server) (scope : Oid) : Prop where
  header : ∀ info, scopeInfo s scope = some info → ∃ k, HeaderFor w s.providers scope info k
  readable : scope ≠ globalDataTdeOid → ∀ info entries k,
    s.keyFiles (.keys scope) = some (.current info entries) →
    principalKeyOf w s scope = some k → Readable w k.keyData entries
  cached : ∀ k, s.cache scope = some k → principalKeyOf w s scope = some k
  bare : scope = defaultDataTdeOid → ∀ info entries,
    s.keyFiles (.keys scope) = some (.current info entries) → ∀ e ∈ entries, e.type ≠ .key
  format : scope ≠ globalDataTdeOid → ∀ f, s.keyFiles (.keys scope) = some f → f.entries ≠ none
  walFormat : scope = globalDataTdeOid → ∀ f, s.walKeys .walKeys = some f → f.entries ≠ none

/-- The three copies agree in every scope. -/
structure Consistent (w : World) (s : Server) : Prop where
  scopes : ∀ scope, ScopeOk w s scope
  providers : ProvidersOk s.providers
  databases : s.databases.Nodup

/-! ### What the invariant of a scope depends on -/

section Frame

variable
  (hp : ∀ id, getKeyProviderByID t.providers id scope = getKeyProviderByID s.providers id scope)
  (hk : scope ≠ globalDataTdeOid → t.keyFiles (.keys scope) = s.keyFiles (.keys scope))
  (hw : scope = globalDataTdeOid → t.walKeys .walKeys = s.walKeys .walKeys)

include hk hw in
theorem scopeInfo_congr : scopeInfo t scope = scopeInfo s scope := by
  unfold scopeInfo
  split
  · next h => rw [hw h]
  · next h => rw [hk h]

include hp in
theorem namedKey_congr (info : TDESignedPrincipalKeyInfo) :
    namedKey w t.providers scope info = namedKey w s.providers scope info := by
  simp [namedKey, hp]

include hp hk hw

theorem principalKeyOf_congr : principalKeyOf w t scope = principalKeyOf w s scope := by
  rw [principalKeyOf, principalKeyOf, scopeInfo_congr hk hw]
  exact Option.bind_congr fun info _ => namedKey_congr hp info

theorem relationTable_congr (hne : scope ≠ globalDataTdeOid) :
    relationTable w t scope = relationTable w s scope := by
  rw [relationTable, relationTable, hk hne, principalKeyOf_congr hp hk hw]

end Frame

/-- A step that leaves alone the file and the cache entry of a scope, and the providers it may
refer to, keeps the invariant of the scope. -/
theorem ScopeOk.frame (h : ScopeOk w s scope)
    (hp : ∀ id, getKeyProviderByID t.providers id scope = getKeyProviderByID s.providers id scope)
    (hk : scope ≠ globalDataTdeOid → t.keyFiles (.keys scope) = s.keyFiles (.keys scope))
    (hw : scope = globalDataTdeOid → t.walKeys .walKeys = s.walKeys .walKeys)
    (hc : t.cache scope = s.cache scope) : ScopeOk w t scope where
  header info hi := by
    obtain ⟨k, hn, ho, hs, hf⟩ := h.header info (by rwa [scopeInfo_congr hk hw] at hi)
    exact ⟨k, by rwa [namedKey_congr hp], ho, hs, by rwa [hp]⟩
  readable hne info entries k hf hpk := by
    rw [principalKeyOf_congr hp hk hw] at hpk
    exact h.readable hne info entries k (by rw [← hk hne, hf]) hpk
  cached k hk' := by
    rw [principalKeyOf_congr hp hk hw]
    exact h.cached k (by rw [← hc, hk'])
  bare hd info entries hf := by
    have hne : scope ≠ globalDataTdeOid := by rw [hd]; decide
    exact h.bare hd info entries (by rw [← hk hne, hf])
  format hne f hf := h.format hne f (by rw [← hk hne, hf])
  walFormat hg f hf := h.walFormat hg f (by rw [← hw hg, hf])

/-- The same when the cache entry is lost. -/
theorem ScopeOk.uncached (h : ScopeOk w s scope)
    (hp : ∀ id, getKeyProviderByID t.providers id scope = getKeyProviderByID s.providers id scope)
    (hk : scope ≠ globalDataTdeOid → t.keyFiles (.keys scope) = s.keyFiles (.keys scope))
    (hw : scope = globalDataTdeOid → t.walKeys .walKeys = s.walKeys .walKeys)
    (hc : t.cache scope = none) : ScopeOk w t scope := by
  have hf : ScopeOk w { t with cache := s.cache } scope := h.frame hp hk hw rfl
  refine ⟨hf.header, hf.readable, fun k hk' => ?_, hf.bare, hf.format, hf.walFormat⟩
  rw [hc] at hk'
  cases hk'

/-! ### Building the invariant of a scope -/

theorem scopeInfo_current {info : TDESignedPrincipalKeyInfo} {entries : List TDEMapEntry}
    (hne : scope ≠ globalDataTdeOid) (hf : s.keyFiles (.keys scope) = some (.current info entries)) :
    scopeInfo s scope = some info := by
  simp [scopeInfo, hne, hf, KeyFile.info]

theorem scopeInfo_wal_current {info : TDESignedPrincipalKeyInfo} {entries : List WalKeyFileEntry}
    (hf : s.walKeys .walKeys = some (.current info entries)) :
    scopeInfo s globalDataTdeOid = some info := by
  simp [scopeInfo, hf, WalKeyFile.info]

theorem principalKeyOf_of_headerFor {info : TDESignedPrincipalKeyInfo} {k : TDEPrincipalKey}
    (hi : scopeInfo s scope = some info) (h : HeaderFor w s.providers scope info k) :
    principalKeyOf w s scope = some k :=
  principalKeyOf_eq_some.2 ⟨info, hi, h.named⟩

/-- A file whose header names a key, whose entries decrypt under it, and a cache that is empty or
has this key. -/
theorem ScopeOk.of_current {info : TDESignedPrincipalKeyInfo} {entries : List TDEMapEntry}
    {k : TDEPrincipalKey} (hne : scope ≠ globalDataTdeOid)
    (hf : s.keyFiles (.keys scope) = some (.current info entries))
    (hh : HeaderFor w s.providers scope info k) (hr : Readable w k.keyData entries)
    (hb : scope = defaultDataTdeOid → ∀ e ∈ entries, e.type ≠ .key)
    (hc : s.cache scope = none ∨ s.cache scope = some k) : ScopeOk w s scope := by
  have hi := scopeInfo_current hne hf
  have hpk := principalKeyOf_of_headerFor hi hh
  refine ⟨fun info' hi' => ?_, fun _ info' entries' k' hf' hpk' => ?_, fun k' hk' => ?_,
    fun hd info' entries' hf' => ?_, fun _ f hf' => ?_, fun hg => absurd hg hne⟩
  · rw [hi] at hi'
    cases hi'
    exact ⟨k, hh⟩
  · rw [hf] at hf'
    rw [hpk] at hpk'
    cases hf'
    cases hpk'
    exact hr
  · obtain h | h := hc
    · rw [h] at hk'; cases hk'
    · rw [h] at hk'
      cases hk'
      exact hpk
  · rw [hf] at hf'
    cases hf'
    exact hb hd
  · rw [hf] at hf'
    cases hf'
    simp [KeyFile.entries]

theorem ScopeOk.of_empty (hne : scope ≠ globalDataTdeOid)
    (hf : s.keyFiles (.keys scope) = none ∨ s.keyFiles (.keys scope) = some .empty)
    (hc : s.cache scope = none) : ScopeOk w s scope := by
  have hi : scopeInfo s scope = none := by
    obtain h | h := hf <;> simp [scopeInfo, hne, h, KeyFile.info]
  refine ⟨fun info hi' => ?_, fun _ info entries k hf' => ?_, fun k hk => ?_,
    fun _ info entries hf' => ?_, fun _ f hf' => ?_, fun hg => absurd hg hne⟩
  · rw [hi] at hi'; cases hi'
  · obtain h | h := hf <;> rw [h] at hf' <;> cases hf'
  · rw [hc] at hk; cases hk
  · obtain h | h := hf <;> rw [h] at hf' <;> cases hf'
  · obtain h | h := hf
    · rw [h] at hf'; cases hf'
    · rw [h] at hf'
      cases hf'
      simp [KeyFile.entries]

theorem ScopeOk.of_wal_current {info : TDESignedPrincipalKeyInfo}
    {entries : List WalKeyFileEntry} {k : TDEPrincipalKey}
    (hf : s.walKeys .walKeys = some (.current info entries))
    (hh : HeaderFor w s.providers globalDataTdeOid info k)
    (hc : s.cache globalDataTdeOid = none ∨ s.cache globalDataTdeOid = some k) :
    ScopeOk w s globalDataTdeOid := by
  have hi := scopeInfo_wal_current hf
  refine ⟨fun info' hi' => ?_, fun hne => absurd rfl hne, fun k' hk' => ?_,
    fun hd => absurd hd (by decide), fun hne => absurd rfl hne, fun _ f hf' => ?_⟩
  · rw [hi] at hi'
    cases hi'
    exact ⟨k, hh⟩
  · obtain h | h := hc
    · rw [h] at hk'; cases hk'
    · rw [h] at hk'
      cases hk'
      exact principalKeyOf_of_headerFor hi hh
  · rw [hf] at hf'
    cases hf'
    simp [WalKeyFile.entries]

theorem ScopeOk.of_wal_empty
    (hf : s.walKeys .walKeys = none ∨ s.walKeys .walKeys = some .empty)
    (hc : s.cache globalDataTdeOid = none) : ScopeOk w s globalDataTdeOid := by
  have hi : scopeInfo s globalDataTdeOid = none := by
    obtain h | h := hf <;> simp [scopeInfo, h, WalKeyFile.info]
  refine ⟨fun info hi' => ?_, fun hne => absurd rfl hne, fun k hk => ?_,
    fun hd => absurd hd (by decide), fun hne => absurd rfl hne, fun _ f hf' => ?_⟩
  · rw [hi] at hi'; cases hi'
  · rw [hc] at hk; cases hk
  · obtain h | h := hf
    · rw [h] at hf'; cases hf'
    · rw [h] at hf'
      cases hf'
      simp [WalKeyFile.entries]

/-! ### Reading the invariant of a scope -/

/-- The file of a scope is missing, empty or in the current format. -/
def FormatOk (s : Server) (scope : Oid) : Prop :=
  (scope ≠ globalDataTdeOid → ∀ f, s.keyFiles (.keys scope) = some f → f.entries ≠ none) ∧
  (scope = globalDataTdeOid → ∀ f, s.walKeys .walKeys = some f → f.entries ≠ none)

theorem ScopeOk.formatOk (h : ScopeOk w s scope) : FormatOk s scope := ⟨h.format, h.walFormat⟩

theorem FormatOk.exists_current {info : TDESignedPrincipalKeyInfo} (h : FormatOk s scope)
    (hne : scope ≠ globalDataTdeOid) (hi : scopeInfo s scope = some info) :
    ∃ entries, s.keyFiles (.keys scope) = some (.current info entries) := by
  simp only [scopeInfo, hne, if_false] at hi
  cases hf : s.keyFiles (.keys scope) with
  | none => rw [hf] at hi; cases hi
  | some f =>
      have hfmt := h.1 hne f hf
      rw [hf] at hi
      cases f with
      | current info' entries =>
          cases hi
          exact ⟨entries, rfl⟩
      | empty => cases hi
      | v3 => exact absurd rfl hfmt
      | v4 => exact absurd rfl hfmt
      | v5 => exact absurd rfl hfmt
      | other => exact absurd rfl hfmt

theorem FormatOk.exists_wal_current {info : TDESignedPrincipalKeyInfo}
    (h : FormatOk s globalDataTdeOid) (hi : scopeInfo s globalDataTdeOid = some info) :
    ∃ entries, s.walKeys .walKeys = some (.current info entries) := by
  simp only [scopeInfo, if_true] at hi
  cases hf : s.walKeys .walKeys with
  | none => rw [hf] at hi; cases hi
  | some f =>
      have hfmt := h.2 rfl f hf
      rw [hf] at hi
      cases f with
      | current info' entries =>
          cases hi
          exact ⟨entries, rfl⟩
      | empty => cases hi
      | v1 => exact absurd rfl hfmt
      | v2 => exact absurd rfl hfmt
      | other => exact absurd rfl hfmt

theorem ScopeOk.principalKeyOf_none (h : ScopeOk w s scope) :
    principalKeyOf w s scope = none ↔ scopeInfo s scope = none := by
  constructor
  · intro hn
    cases hi : scopeInfo s scope with
    | none => rfl
    | some info =>
        obtain ⟨k, hk⟩ := h.header info hi
        rw [principalKeyOf, hi, Option.bind_some, hk.named] at hn
        cases hn
  · intro hi
    rw [principalKeyOf, hi, Option.bind_none]

/-- The file of a database scope that has a header. -/
theorem ScopeOk.exists_current {k : TDEPrincipalKey} (h : ScopeOk w s scope)
    (hne : scope ≠ globalDataTdeOid) (hk : principalKeyOf w s scope = some k) :
    ∃ info entries, s.keyFiles (.keys scope) = some (.current info entries) ∧
      HeaderFor w s.providers scope info k ∧ Readable w k.keyData entries := by
  obtain ⟨info, hi, hn⟩ := principalKeyOf_eq_some.1 hk
  obtain ⟨k', hk'⟩ := h.header info hi
  have hkk : k' = k := by
    have := hk'.named
    rw [hn] at this
    exact (Option.some.inj this).symm
  subst hkk
  obtain ⟨entries, hf⟩ := h.formatOk.exists_current hne hi
  exact ⟨info, entries, hf, hk', h.readable hne info entries k' hf hk⟩

/-- The file of WAL keys when there is a server key. -/
theorem ScopeOk.exists_wal_current {k : TDEPrincipalKey} (h : ScopeOk w s globalDataTdeOid)
    (hk : principalKeyOf w s globalDataTdeOid = some k) :
    ∃ info entries, s.walKeys .walKeys = some (.current info entries) ∧
      HeaderFor w s.providers globalDataTdeOid info k := by
  obtain ⟨info, hi, hn⟩ := principalKeyOf_eq_some.1 hk
  obtain ⟨k', hk'⟩ := h.header info hi
  have hkk : k' = k := by
    have := hk'.named
    rw [hn] at this
    exact (Option.some.inj this).symm
  subst hkk
  obtain ⟨entries, hf⟩ := h.formatOk.exists_wal_current hi
  exact ⟨info, entries, hf, hk'⟩

/-- The principal key of a scope says that it is the key of that scope. -/
theorem ScopeOk.owner {k : TDEPrincipalKey} (h : ScopeOk w s scope)
    (hk : principalKeyOf w s scope = some k) : k.keyInfo.databaseId = scope := by
  obtain ⟨info, hi, hn⟩ := principalKeyOf_eq_some.1 hk
  obtain ⟨k', hk'⟩ := h.header info hi
  rw [keyInfo_of_namedKey hn, hk'.owner]

/-- A database scope without a header has no file, or an empty one. -/
theorem file_of_scopeInfo_none (hne : scope ≠ globalDataTdeOid)
    (hi : scopeInfo s scope = none) :
    s.keyFiles (.keys scope) = none ∨ s.keyFiles (.keys scope) = some .empty := by
  simp only [scopeInfo, hne, if_false] at hi
  cases hf : s.keyFiles (.keys scope) with
  | none => exact .inl rfl
  | some f =>
      rw [hf] at hi
      cases f with
      | empty => exact .inr rfl
      | v3 => cases hi
      | v4 => cases hi
      | v5 => cases hi
      | current => cases hi
      | other => cases hi

theorem walFile_of_scopeInfo_none (hi : scopeInfo s globalDataTdeOid = none) :
    s.walKeys .walKeys = none ∨ s.walKeys .walKeys = some .empty := by
  simp only [scopeInfo, if_true] at hi
  cases hf : s.walKeys .walKeys with
  | none => exact .inl rfl
  | some f =>
      rw [hf] at hi
      cases f with
      | empty => exact .inr rfl
      | v1 => cases hi
      | v2 => cases hi
      | current => cases hi
      | other => cases hi

theorem relationTable_of_scopeInfo_none {db : Oid} (hi : scopeInfo s db = none) :
    relationTable w s db = [] := by
  have hn : principalKeyOf w s db = none := by rw [principalKeyOf, hi, Option.bind_none]
  unfold relationTable
  rw [hn]
  split <;> simp_all

/-! ### The steps -/

/-- What operations on principal keys are made of. A step that needs a failed system call says so:
where none fails it does not occur. -/
inductive LoggedStep (w : World) : Server → Server → Prop
  /-- Randomness, time, system calls. -/
  | quiet {s t : Server} : Quiet s t → LoggedStep w s t
  /-- A principal key is loaded into the cache. -/
  | load {s : Server} {scope : Oid} {k : TDEPrincipalKey} : s.cache scope = none →
      principalKeyOf w s scope = some k →
      LoggedStep w s (s.putCache scope (some k))
  /-- A rewrite got as far as the temporary file. -/
  | tmp {s : Server} (db : Oid) (f : Option KeyFile) : LoggedStep w s (s.putKeyFile (.keysTmp db) f)
  | tmpWal {s : Server} (f : Option WalKeyFile) : LoggedStep w s (s.putWalKeys .walKeysTmp f)
  /-- A record was written but its effect did not follow. -/
  | brokenAdd {s : Server} {scope : Oid} {info : TDESignedPrincipalKeyInfo}
      {k : TDEPrincipalKey} : ¬s.SysOk → HeaderFor w s.providers scope info k →
      LoggedStep w s (s.logged [.addPrincipalKey info])
  | brokenDelete {s : Server} (scope : Oid) : ¬s.SysOk →
      LoggedStep w s (s.logged [.deletePrincipalKey scope])
  /-- A file was created but its header did not follow. -/
  | brokenSave {s : Server} {scope : Oid} : ¬s.SysOk → scope ≠ globalDataTdeOid →
      scopeInfo s scope = none → LoggedStep w s (s.putKeyFile (.keys scope) (some .empty))
  | brokenSaveServer {s : Server} : ¬s.SysOk → scopeInfo s globalDataTdeOid = none →
      LoggedStep w s (s.putWalKeys .walKeys (some .empty))
  /-- The first key of a scope. -/
  | save {s : Server} {scope : Oid} {info : TDESignedPrincipalKeyInfo} {k : TDEPrincipalKey} :
      scope ≠ globalDataTdeOid → scopeInfo s scope = none →
      HeaderFor w s.providers scope info k →
      LoggedStep w s (((s.logged [.addPrincipalKey info]).putKeyFile (.keys scope)
        (some (.current info []))).putCache scope (some k))
  | saveServer {s : Server} {info : TDESignedPrincipalKeyInfo} {k : TDEPrincipalKey} :
      scopeInfo s globalDataTdeOid = none →
      HeaderFor w s.providers globalDataTdeOid info k →
      LoggedStep w s (((s.logged [.addPrincipalKey info]).putWalKeys .walKeys
        (some (.current info []))).putCache globalDataTdeOid (some k))
  /-- A rotation: new header, the same table. -/
  | rotate {s : Server} {scope : Oid} {info info' : TDESignedPrincipalKeyInfo}
      {entries new : List TDEMapEntry} {k k' : TDEPrincipalKey} : scope ≠ globalDataTdeOid →
      s.keyFiles (.keys scope) = some (.current info entries) →
      principalKeyOf w s scope = some k → HeaderFor w s.providers scope info' k' →
      (∀ e ∈ new, e.type = .key) → keyTable w k'.keyData new = keyTable w k.keyData entries →
      LoggedStep w s ((((s.logged [rotateRecord k']).putKeyFile (.keys scope)
        (some (.current info' new))).putKeyFile (.keysTmp scope) none).putCache scope (some k'))
  | rotateServer {s : Server} {info info' : TDESignedPrincipalKeyInfo}
      {entries new : List WalKeyFileEntry} {k k' : TDEPrincipalKey} :
      s.walKeys .walKeys = some (.current info entries) →
      principalKeyOf w s globalDataTdeOid = some k → WalReadable w k.keyData entries →
      HeaderFor w s.providers globalDataTdeOid info' k' →
      walTable w k'.keyData new = walTable w k.keyData entries →
      LoggedStep w s ((((s.logged [rotateRecord k']).putWalKeys .walKeys
        (some (.current info' new))).putWalKeys .walKeysTmp none).putCache globalDataTdeOid
          (some k'))
  /-- The key of a scope without live entries is deleted. -/
  | delete {s : Server} {scope : Oid} {info : TDESignedPrincipalKeyInfo}
      {entries : List TDEMapEntry} : scope ≠ globalDataTdeOid →
      s.keyFiles (.keys scope) = some (.current info entries) →
      (∀ e ∈ entries, e.type ≠ .key) →
      LoggedStep w s (((s.logged [.deletePrincipalKey scope]).putKeyFile (.keys scope)
        none).putCache scope none)

/-- A file that has a header and no entries takes the place of the file of the scope. -/
def Server.putHeader (s : Server) (scope : Oid) (info : TDESignedPrincipalKeyInfo) : Server :=
  if scope = globalDataTdeOid then s.putWalKeys .walKeys (some (.current info []))
  else s.putKeyFile (.keys scope) (some (.current info []))

/-- The steps of all operations. The fallback to the default key and replay have the effect of a
step without the record of it, replay adds a header without loading its key, and one operation
deletes the key of the server scope. -/
inductive KeyStep (w : World) : Server → Server → Prop
  | logged {s t : Server} : LoggedStep w s t → KeyStep w s t
  | header {s : Server} {scope : Oid} {info : TDESignedPrincipalKeyInfo} {k : TDEPrincipalKey} :
      scopeInfo s scope = none → HeaderFor w s.providers scope info k →
      KeyStep w s (s.putHeader scope info)
  | unlogged {s t : Server} {rs : List XLogRecord} : LoggedStep w s (t.logged rs) →
      t.xlog = s.xlog → KeyStep w s t
  | deleteServer {s : Server} {info : TDESignedPrincipalKeyInfo} :
      s.walKeys .walKeys = some (.current info []) →
      KeyStep w s (((s.logged [.deletePrincipalKey globalDataTdeOid]).putWalKeys .walKeys
        none).putCache globalDataTdeOid none)

/-! ### The steps keep the invariant -/

theorem Quiet.scopeOk (h : Quiet s t) (hs : ScopeOk w s scope) : ScopeOk w t scope := by
  obtain ⟨rng, clock, sys, -, rfl⟩ := h
  exact hs.frame (fun _ => rfl) (fun _ => rfl) (fun _ => rfl) rfl

theorem update_keys_of_ne {db : Oid} {f : Option KeyFile} (h : scope ≠ db) :
    Function.update s.keyFiles (.keys db) f (.keys scope) = s.keyFiles (.keys scope) :=
  Function.update_of_ne (by simpa using h) ..

theorem keyTable_eq_nil {keyData : List UInt8} {entries : List TDEMapEntry} :
    keyTable w keyData entries = [] ↔ ∀ e ∈ entries, e.type ≠ .key := by
  simp [keyTable]

theorem readable_of_keyTable_eq {keyData keyData' : List UInt8} {entries new : List TDEMapEntry}
    (h : Readable w keyData entries)
    (ht : keyTable w keyData' new = keyTable w keyData entries) : Readable w keyData' new := by
  rw [readable_iff_keyTable, ht]
  exact readable_iff_keyTable.1 h

/-- Without a header there is nothing in the cache. -/
theorem ScopeOk.cache_none (h : ScopeOk w s scope) (hi : scopeInfo s scope = none) :
    s.cache scope = none := by
  cases hc : s.cache scope with
  | none => rfl
  | some k =>
      have := h.cached k hc
      rw [principalKeyOf, hi] at this
      cases this

/-- A step on the file and the cache entry of one database scope leaves the others alone. -/
theorem ScopeOk.of_ne {u : Server} {f : Option KeyFile} {k : Option TDEPrincipalKey} {db : Oid}
    (h : ScopeOk w s scope) (hu : ∀ a, ScopeOk w s a → ScopeOk w u a) (hne : scope ≠ db) :
    ScopeOk w ((u.putKeyFile (.keys db) f).putCache db k) scope :=
  (hu scope h).frame (fun _ => rfl) (fun _ => by simp [hne]) (fun _ => rfl) (by simp [hne])

/-- The invariant of a scope survives every step. -/
theorem LoggedStep.scopeOk (h : LoggedStep w s t) (hs : ScopeOk w s scope) :
    ScopeOk w t scope := by
  have hlog : ∀ rs a, ScopeOk w s a → ScopeOk w (s.logged rs) a := fun rs a ha =>
    ha.frame (fun _ => rfl) (fun _ => rfl) (fun _ => rfl) rfl
  cases h with
  | quiet h => exact h.scopeOk hs
  | @load scope' k hc hk =>
      by_cases hsc : scope = scope'
      · subst hsc
        by_cases hg : scope = globalDataTdeOid
        · subst hg
          obtain ⟨info, entries, hf, hh⟩ := hs.exists_wal_current hk
          exact ScopeOk.of_wal_current hf hh (.inr (by simp))
        · obtain ⟨info, entries, hf, hh, hr⟩ := hs.exists_current hg hk
          exact ScopeOk.of_current hg hf hh hr (fun hd => hs.bare hd info entries hf)
            (.inr (by simp))
      · exact hs.frame (fun _ => rfl) (fun _ => rfl) (fun _ => rfl) (by simp [hsc])
  | tmp db f =>
      exact hs.frame (fun _ => rfl) (fun _ => by simp) (fun _ => rfl) rfl
  | tmpWal f =>
      exact hs.frame (fun _ => rfl) (fun _ => rfl) (fun _ => by simp) rfl
  | brokenAdd => exact hlog _ scope hs
  | brokenDelete => exact hlog _ scope hs
  | @brokenSave scope' _ hg hi =>
      by_cases hsc : scope = scope'
      · subst hsc
        exact ScopeOk.of_empty hg (.inr (by simp)) (hs.cache_none hi)
      · exact hs.frame (fun _ => rfl) (fun _ => by simp [hsc]) (fun _ => rfl) rfl
  | brokenSaveServer _ hi =>
      by_cases hsc : scope = globalDataTdeOid
      · subst hsc
        exact ScopeOk.of_wal_empty (.inr (by simp)) (hs.cache_none hi)
      · exact hs.frame (fun _ => rfl) (fun _ => rfl) (fun h => absurd h hsc) rfl
  | @save scope' info k hg hi hh =>
      by_cases hsc : scope = scope'
      · subst hsc
        have hr : Readable w k.keyData [] := by simp [Readable]
        exact ScopeOk.of_current hg (by simp) hh hr (by simp) (.inr (by simp))
      · exact hs.of_ne (hlog _) hsc
  | @saveServer info k hi hh =>
      by_cases hsc : scope = globalDataTdeOid
      · subst hsc
        exact ScopeOk.of_wal_current (by simp; rfl) hh (.inr (by simp))
      · exact hs.frame (fun _ => rfl) (fun _ => rfl) (fun h => absurd h hsc) (by simp [hsc])
  | @rotate scope' info info' entries new k k' hg hf hk hh _ ht =>
      by_cases hsc : scope = scope'
      · subst hsc
        have hr := hs.readable hg info entries k hf hk
        refine ScopeOk.of_current hg (by simp) hh (readable_of_keyTable_eq hr ht) (fun hd => ?_)
          (.inr (by simp))
        have hnil : keyTable w k.keyData entries = [] :=
          keyTable_eq_nil.2 (hs.bare hd info entries hf)
        exact keyTable_eq_nil.1 (ht.trans hnil)
      · exact hs.frame (fun _ => rfl) (fun _ => by simp [hsc]) (fun _ => rfl) (by simp [hsc])
  | @rotateServer info info' entries new k k' hf hk hr hh ht =>
      by_cases hsc : scope = globalDataTdeOid
      · subst hsc
        exact ScopeOk.of_wal_current (by simp; rfl) hh (.inr (by simp))
      · exact hs.frame (fun _ => rfl) (fun _ => rfl) (fun h => absurd h hsc) (by simp [hsc])
  | @delete scope' info entries hg hf hno =>
      by_cases hsc : scope = scope'
      · subst hsc
        exact ScopeOk.of_empty hg (.inl (by simp)) (by simp)
      · exact hs.of_ne (hlog _) hsc

/-- What is in the log is no part of the invariant. -/
theorem ScopeOk.unlogged {rs : List XLogRecord} (h : ScopeOk w (s.logged rs) scope) :
    ScopeOk w s scope :=
  h.frame (fun _ => rfl) (fun _ => rfl) (fun _ => rfl) rfl

theorem putHeader_of_ne (s : Server) (info : TDESignedPrincipalKeyInfo) {a : Oid} (h : scope ≠ a) :
    (scope ≠ globalDataTdeOid →
      (s.putHeader a info).keyFiles (.keys scope) = s.keyFiles (.keys scope)) ∧
    (scope = globalDataTdeOid → (s.putHeader a info).walKeys .walKeys = s.walKeys .walKeys) := by
  unfold Server.putHeader
  split
  · next ha => exact ⟨fun _ => rfl, fun hg => absurd (hg.trans ha.symm) h⟩
  · exact ⟨fun _ => by simp [h], fun _ => rfl⟩

theorem putHeader_cache {info : TDESignedPrincipalKeyInfo} :
    (s.putHeader scope info).cache = s.cache := by
  unfold Server.putHeader
  split <;> rfl

theorem putHeader_providers {info : TDESignedPrincipalKeyInfo} :
    (s.putHeader scope info).providers = s.providers := by
  unfold Server.putHeader
  split <;> rfl

theorem scopeInfo_putHeader {info : TDESignedPrincipalKeyInfo} :
    scopeInfo (s.putHeader scope info) scope = some info := by
  unfold Server.putHeader scopeInfo
  split <;> simp [KeyFile.info, WalKeyFile.info]

theorem ScopeOk.putHeader {a : Oid} {info : TDESignedPrincipalKeyInfo} {k : TDEPrincipalKey}
    (hs : ScopeOk w s scope) (hi : scopeInfo s a = none) (hh : HeaderFor w s.providers a info k) :
    ScopeOk w (s.putHeader a info) scope := by
  by_cases hsc : scope = a
  · subst hsc
    have hc : (s.putHeader scope info).cache scope = none := by
      rw [putHeader_cache, hs.cache_none hi]
    by_cases hg : scope = globalDataTdeOid
    · subst hg
      exact ScopeOk.of_wal_current (by simp [Server.putHeader]; rfl) hh (.inl hc)
    · have hr : Readable w k.keyData [] := by simp [Readable]
      refine ScopeOk.of_current hg (by simp [Server.putHeader, hg]; rfl) ?_ hr (by simp) (.inl hc)
      rwa [putHeader_providers]
  · obtain ⟨hk, hw⟩ := putHeader_of_ne s info hsc
    exact hs.frame (fun _ => by rw [putHeader_providers]) hk hw (by rw [putHeader_cache])

theorem KeyStep.scopeOk (h : KeyStep w s t) (hs : ScopeOk w s scope) : ScopeOk w t scope := by
  cases h with
  | logged h => exact h.scopeOk hs
  | header hi hh => exact hs.putHeader hi hh
  | unlogged h => exact (h.scopeOk hs).unlogged
  | @deleteServer info hf =>
      by_cases hsc : scope = globalDataTdeOid
      · subst hsc
        exact ScopeOk.of_wal_empty (.inl (by simp)) (by simp)
      · exact hs.frame (fun _ => rfl) (fun _ => rfl) (fun h => absurd h hsc) (by simp [hsc])

theorem Quiet.providers (h : Quiet s t) : t.providers = s.providers := by
  obtain ⟨_, _, _, _, rfl⟩ := h
  rfl

theorem LoggedStep.providers (h : LoggedStep w s t) : t.providers = s.providers := by
  cases h with
  | quiet h => exact h.providers
  | _ => rfl

theorem KeyStep.providers (h : KeyStep w s t) : t.providers = s.providers := by
  cases h with
  | logged h => exact h.providers
  | header => exact putHeader_providers
  | unlogged h => exact h.providers
  | deleteServer => rfl

theorem LoggedStep.databases (h : LoggedStep w s t) : t.databases = s.databases := by
  cases h with
  | quiet h =>
      obtain ⟨_, _, _, _, rfl⟩ := h
      rfl
  | _ => rfl

theorem KeyStep.databases (h : KeyStep w s t) : t.databases = s.databases := by
  cases h with
  | logged h => exact h.databases
  | header =>
      unfold Server.putHeader
      split <;> rfl
  | unlogged h => exact h.databases
  | deleteServer => rfl

theorem LoggedStep.outside (h : LoggedStep w s t) :
    t.kms = s.kms ∧ (s.SysOk → t.SysOk) := by
  cases h with
  | quiet h =>
      have hok := h.sysOk
      obtain ⟨_, _, _, _, rfl⟩ := h
      exact ⟨rfl, hok⟩
  | _ => exact ⟨rfl, id⟩

theorem KeyStep.outside (h : KeyStep w s t) : t.kms = s.kms ∧ (s.SysOk → t.SysOk) := by
  cases h with
  | logged h => exact h.outside
  | header =>
      unfold Server.putHeader
      split <;> exact ⟨rfl, id⟩
  | unlogged h => exact h.outside
  | deleteServer => exact ⟨rfl, id⟩

theorem KeyStep.consistent (h : KeyStep w s t) (hs : Consistent w s) : Consistent w t :=
  ⟨fun scope => h.scopeOk (hs.scopes scope), by rw [h.providers]; exact hs.providers,
    by rw [h.databases]; exact hs.databases⟩

/-! ### The steps keep the relation keys -/

theorem relationTable_of_current {info : TDESignedPrincipalKeyInfo} {entries : List TDEMapEntry}
    {k : TDEPrincipalKey} (hf : s.keyFiles (.keys scope) = some (.current info entries))
    (hk : principalKeyOf w s scope = some k) :
    relationTable w s scope = keyTable w k.keyData entries := by
  simp [relationTable, hf, hk]

theorem LoggedStep.relationTable_eq (h : LoggedStep w s t) {db : Oid}
    (hdb : db ≠ globalDataTdeOid) : relationTable w t db = relationTable w s db := by
  have hframe : t.keyFiles (.keys db) = s.keyFiles (.keys db) →
      relationTable w t db = relationTable w s db := fun hk =>
    relationTable_congr (fun _ => by rw [h.providers]) (fun _ => hk) (fun hg => absurd hg hdb) hdb
  cases h with
  | quiet h => exact hframe (by rw [h.keyFiles])
  | load | brokenAdd | brokenDelete | tmpWal | brokenSaveServer | saveServer | rotateServer => exact hframe rfl
  | tmp => exact hframe (by simp)
  | @brokenSave scope' _ hg hi =>
      by_cases hsc : db = scope'
      · subst hsc
        rw [relationTable_of_scopeInfo_none hi]
        simp [relationTable]
      · exact hframe (by simp [hsc])
  | @save scope' info k hg hi hh =>
      by_cases hsc : db = scope'
      · subst hsc
        rw [relationTable_of_scopeInfo_none hi]
        unfold relationTable
        simp only [putCache_keyFiles, putKeyFile_keyFiles, Function.update_self]
        split <;> simp_all [keyTable]
      · exact hframe (by simp [hsc])
  | @rotate scope' info info' entries new k k' hg hf hk hh _ ht =>
      by_cases hsc : db = scope'
      · subst hsc
        rw [relationTable_of_current hf hk, ← ht]
        refine relationTable_of_current (by simp; rfl) (principalKeyOf_of_headerFor ?_ hh)
        exact scopeInfo_current hg (by simp; rfl)
      · exact hframe (by simp [hsc])
  | @delete scope' info entries hg hf hno =>
      by_cases hsc : db = scope'
      · subst hsc
        have hnil : ∀ kd, keyTable w kd entries = [] := fun kd => keyTable_eq_nil.2 hno
        have hs' : relationTable w s db = [] := by
          unfold relationTable
          rw [hf]
          split <;> simp_all
        rw [hs']
        simp [relationTable]
      · exact hframe (by simp [hsc])

theorem KeyStep.relationTable_eq (h : KeyStep w s t) {db : Oid}
    (hdb : db ≠ globalDataTdeOid) : relationTable w t db = relationTable w s db := by
  cases h with
  | logged h => exact h.relationTable_eq hdb
  | @header scope info k hi hh =>
      by_cases hsc : db = scope
      · subst hsc
        have hf : (s.putHeader db info).keyFiles (.keys db) = some (.current info []) := by
          simp [Server.putHeader, hdb]
        rw [relationTable_of_scopeInfo_none hi, relationTable, hf]
        cases principalKeyOf w (s.putHeader db info) db <;> rfl
      · obtain ⟨hk, hw⟩ := putHeader_of_ne s info hsc
        exact relationTable_congr (fun _ => by rw [putHeader_providers]) hk hw hdb
  | unlogged h => exact h.relationTable_eq hdb
  | deleteServer =>
      exact relationTable_congr (fun _ => rfl) (fun _ => rfl) (fun hg => absurd hg hdb) hdb

/-! ### Runs of steps -/

/-- Any number of logged steps. -/
abbrev LoggedSteps (w : World) : Server → Server → Prop := Relation.ReflTransGen (LoggedStep w)

/-- Any number of steps. -/
abbrev KeySteps (w : World) : Server → Server → Prop := Relation.ReflTransGen (KeyStep w)

theorem LoggedSteps.keySteps (h : LoggedSteps w s t) : KeySteps w s t := by
  induction h with
  | refl => exact .refl
  | tail _ h ih => exact ih.tail (.logged h)

theorem KeySteps.scopeOk (h : KeySteps w s t) (hs : ScopeOk w s scope) : ScopeOk w t scope := by
  induction h with
  | refl => exact hs
  | tail _ h ih => exact h.scopeOk ih

theorem KeySteps.consistent (h : KeySteps w s t) (hs : Consistent w s) : Consistent w t := by
  induction h with
  | refl => exact hs
  | tail _ h ih => exact h.consistent ih

theorem KeySteps.providers (h : KeySteps w s t) : t.providers = s.providers := by
  induction h with
  | refl => rfl
  | tail _ h ih => rw [h.providers, ih]

theorem KeySteps.databases (h : KeySteps w s t) : t.databases = s.databases := by
  induction h with
  | refl => rfl
  | tail _ h ih => rw [h.databases, ih]

/-- The steps are not what the keyrings or the system calls depend on. -/
theorem KeySteps.outside (h : KeySteps w s t) : t.kms = s.kms ∧ (s.SysOk → t.SysOk) := by
  induction h with
  | refl => exact ⟨rfl, id⟩
  | tail _ h ih => exact ⟨h.outside.1.trans ih.1, fun hs => h.outside.2 (ih.2 hs)⟩

theorem KeySteps.relationTable_eq (h : KeySteps w s t) {db : Oid} (hdb : db ≠ globalDataTdeOid) :
    relationTable w t db = relationTable w s db := by
  induction h with
  | refl => rfl
  | tail _ h ih => rw [h.relationTable_eq hdb, ih]

end OpenPgTde
