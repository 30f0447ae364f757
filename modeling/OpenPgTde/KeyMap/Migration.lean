import OpenPgTde.KeyMap.RelationKeys

/-!
The migration of key files of older versions (`access/open_pg_tde_tdemap.c`).

At the start of the server every `<oid>_keys` file of version 3, 4 or 5 is read entry by entry, and
the keys are written, encrypted anew, to a file in the current format that then takes its place. The
three layouts differ in the size of an entry, in the cipher and in what the tag authenticates; what
they have in common is a type, a relation and a key that decrypts or does not.

A start may be interrupted anywhere. The next one finds the files on disk as they were left, an
empty cache, and anything at all in the temporary files; it begins again with the first file.
-/

namespace OpenPgTde

open Lib.Effect Lib.SlotArray

variable {w : World} {s t u : Server} {db : Oid} {α : Type}

/-! ### The old layouts -/

/-- What the tag of a version 3 entry authenticates. -/
def TDEMapEntryV3.aad (e : TDEMapEntryV3) : List UInt8 :=
  leBytes 4 e.spcOid.toNat ++ leBytes 4 e.relNumber.toNat ++ leBytes 4 e.type.code ++
    leBytes 4 e.unused1.toNat

def TDEMapEntryV4.aad (e : TDEMapEntryV4) : List UInt8 :=
  leBytes 4 e.cipher.code ++ leBytes 4 e.spcOid.toNat ++ leBytes 4 e.relNumber.toNat ++
    leBytes 4 e.type.code

def TDEMapEntryV5.aad (e : TDEMapEntryV5) : List UInt8 :=
  leBytes 4 e.cipher.code ++ leBytes 4 e.spcOid.toNat ++ leBytes 4 e.relNumber.toNat ++
    leBytes 4 e.type.code

/-- `ikey_from_map_entry_v3`: the key is always one of AES-128. -/
def ikeyFromMapEntryV3 (w : World) (keyData : List UInt8) (e : TDEMapEntryV3) :
    Option InternalKey :=
  unwrapKey w keyData e.entryIv e.aad .aes128 e.keyBaseIv e.encryptedKeyData e.aeadTag

/-- `ikey_from_map_entry_v4`. -/
def ikeyFromMapEntryV4 (w : World) (keyData : List UInt8) (e : TDEMapEntryV4) :
    Option InternalKey :=
  unwrapKey w keyData e.entryIv e.aad e.cipher e.keyBaseIv e.encryptedKeyData e.aeadTag

/-- `ikey_from_map_entry_v5`. -/
def ikeyFromMapEntryV5 (w : World) (keyData : List UInt8) (e : TDEMapEntryV5) :
    Option InternalKey :=
  unwrapKey w keyData e.entryIv e.aad e.cipher e.keyBaseIv e.encryptedKeyData e.aeadTag

/-- What an entry of an old file says: its type, its relation, and its key if it decrypts. -/
structure DiskEntry where
  type : MapEntryType
  spcOid : Oid
  relNumber : UInt32
  key : Option InternalKey
  deriving DecidableEq

def TDEMapEntryV3.read (w : World) (keyData : List UInt8) (e : TDEMapEntryV3) : DiskEntry :=
  ⟨e.type, e.spcOid, e.relNumber, ikeyFromMapEntryV3 w keyData e⟩

def TDEMapEntryV4.read (w : World) (keyData : List UInt8) (e : TDEMapEntryV4) : DiskEntry :=
  ⟨e.type, e.spcOid, e.relNumber, ikeyFromMapEntryV4 w keyData e⟩

def TDEMapEntryV5.read (w : World) (keyData : List UInt8) (e : TDEMapEntryV5) : DiskEntry :=
  ⟨e.type, e.spcOid, e.relNumber, ikeyFromMapEntryV5 w keyData e⟩

/-! ### The migration -/

/-- `map_from_disk_entry_v3`, `map_from_disk_entry_v4` and `map_from_disk_entry_v5` once the entry
is read: a free entry becomes a free entry, a key is encrypted for the current format. -/
def mapFromDiskEntry (w : World) (pk : TDEPrincipalKey) (e : DiskEntry) : M TDEMapEntry :=
  if e.type = .empty then pure emptyMapEntry
  else match e.key with
    | none => throw .decryptFailed
    | some k => initializeMapEntry w pk ⟨e.spcOid, pk.keyInfo.databaseId, e.relNumber⟩ k

def mapFromDiskEntryV3 (w : World) (pk : TDEPrincipalKey) (e : TDEMapEntryV3) : M TDEMapEntry :=
  mapFromDiskEntry w pk (e.read w pk.keyData)

def mapFromDiskEntryV4 (w : World) (pk : TDEPrincipalKey) (e : TDEMapEntryV4) : M TDEMapEntry :=
  mapFromDiskEntry w pk (e.read w pk.keyData)

def mapFromDiskEntryV5 (w : World) (pk : TDEPrincipalKey) (e : TDEMapEntryV5) : M TDEMapEntry :=
  mapFromDiskEntry w pk (e.read w pk.keyData)

/-- The loop over the entries of one file. -/
def migrateEntries (readMapEntry : α → M TDEMapEntry) (dbOid : Oid) : List α → ℕ → M Unit
  | [], _ => pure ()
  | e :: entries, pos => do
    let new ← readMapEntry e
    if new.type = .empty then migrateEntries readMapEntry dbOid entries pos
    else do
      writeOneMapEntry (.keysTmp dbOid) pos new
      migrateEntries readMapEntry dbOid entries (pos + 1)

/-- The part of `open_pg_tde_migrate_smgr_keys_file` for a file of an old version. A last entry
that is cut off is an error of the readers of versions 4 and 5. -/
def migrateFile (w : World) (readMapEntry : TDEPrincipalKey → α → M TDEMapEntry) (dbOid : Oid)
    (entries : List α) (torn : Bool) : M Unit := do
  match ← getPrincipalKey w dbOid with
  | none => throw (.noKeyForMigration dbOid)
  | some pk => do
    let info ← signPrincipalKeyInfo w pk
    let _ ← openFileWrite (.keysTmp dbOid) (some info) true
    migrateEntries (readMapEntry pk) dbOid entries 0
    if torn then throw .couldNotReadEntry
    else durableRename dbOid

/-- What `open_pg_tde_migrate_smgr_keys_file` does with one file of the directory. -/
def migrateSmgrKeysFile (w : World) (dbOid : Oid) : M Unit := do
  sysCall (.couldNotOpen (.keys dbOid))
  let s ← get
  match s.keyFiles (.keys dbOid) with
  | none => throw (.couldNotOpen (.keys dbOid))
  | some .empty => pure ()
  | some (.current _ _) => pure ()
  | some (.v3 _ entries) => migrateFile w (mapFromDiskEntryV3 w) dbOid entries false
  | some (.v4 _ entries torn) => migrateFile w (mapFromDiskEntryV4 w) dbOid entries torn
  | some (.v5 _ entries torn) => migrateFile w (mapFromDiskEntryV5 w) dbOid entries torn
  | some (.other version _) => throw (.unsupportedVersion version)

/-- `open_pg_tde_migrate_smgr_keys_file`; `dir` are the oids of the `<oid>_keys` files in the order
of the directory. -/
def migrateSmgrKeys (w : World) (dir : List Oid) : M Unit :=
  forM dir fun dbOid => migrateSmgrKeysFile w dbOid

/-! ### What a file says, whatever its version -/

/-- The entries of a file of an old version, and whether its last entry is cut off. -/
def KeyFile.diskEntries (w : World) (keyData : List UInt8) : KeyFile → Option (List DiskEntry × Bool)
  | .v3 _ entries => some (entries.map (TDEMapEntryV3.read w keyData), false)
  | .v4 _ entries torn => some (entries.map (TDEMapEntryV4.read w keyData), torn)
  | .v5 _ entries torn => some (entries.map (TDEMapEntryV5.read w keyData), torn)
  | _ => none

/-- The live entries, each with its relation and its key. -/
def diskTable (entries : List DiskEntry) : List ((Oid × UInt32) × Option InternalKey) :=
  (entries.filter fun e => e.type = .key).map fun e => ((e.spcOid, e.relNumber), e.key)

/-- Every live entry decrypts. -/
def DiskReadable (entries : List DiskEntry) : Prop :=
  ∀ e ∈ entries, e.type = .key → e.key.isSome = true

instance (entries : List DiskEntry) : Decidable (DiskReadable entries) :=
  inferInstanceAs (Decidable (∀ e ∈ entries, e.type = .key → e.key.isSome = true))

/-- The file `f'` is what the migration makes of the old file `f`: a file in the current format
with the same principal key in its header and the same table of keys, without free entries. -/
def Migrated (w : World) (providers : Oid → List KeyringProviderRecord) (dbOid : Oid)
    (f f' : KeyFile) : Prop :=
  ∃ info info' k entries new, f.info = some info ∧ namedKey w providers dbOid info = some k ∧
    f.diskEntries w k.keyData = some (entries, false) ∧ DiskReadable entries ∧
    f' = .current info' new ∧ info'.data = info.data ∧
    verifyPrincipalKeyInfo w info' k.keyData = true ∧ (∀ e ∈ new, e.type = .key) ∧
    keyTable w k.keyData new = diskTable entries

/-! ### One entry and one file -/

theorem mapFromDiskEntry_spec (pk : TDEPrincipalKey) (e : DiskEntry) :
    wp (mapFromDiskEntry w pk e)
      (fun e' t => Quiet s t ∧ (e.type = .empty ∧ e'.type = .empty ∨ e.type = .key ∧
        ∃ k, e.key = some k ∧
          EntryFor w pk ⟨e.spcOid, pk.keyInfo.databaseId, e.relNumber⟩ k e'))
      (fun _ t => Quiet s t ∧ (s.SysOk → e.type = .key ∧ e.key = none)) s := by
  unfold mapFromDiskEntry
  cases ht : e.type with
  | empty => exact ⟨Quiet.refl s, .inl ⟨rfl, rfl⟩⟩
  | key =>
      simp only [reduceCtorEq, if_false, false_and, false_or, true_and]
      cases hk : e.key with
      | none => exact ⟨Quiet.refl s, fun _ => rfl⟩
      | some k =>
          refine (initializeMapEntry_spec pk _ k).mono (fun e' t h => ?_) fun _ t h =>
            ⟨h.1, fun hok => absurd hok h.2⟩
          obtain ⟨hq, htype, hspc, hrel, hopen⟩ := h
          exact ⟨hq, k, rfl, htype, hspc, hrel, hopen⟩

theorem diskTable_cons (e : DiskEntry) (entries : List DiskEntry) :
    diskTable (e :: entries) =
      (if e.type = .key then [((e.spcOid, e.relNumber), e.key)] else []) ++ diskTable entries := by
  by_cases h : e.type = .key <;> simp [diskTable, h]

theorem diskReadable_cons {e : DiskEntry} {entries : List DiskEntry} :
    DiskReadable (e :: entries) ↔ (e.type = .key → e.key.isSome = true) ∧ DiskReadable entries := by
  simp [DiskReadable]

/-- The loop appends to the new file a table that equals the table of the entries it has gone
through, and gets to the end only if all of them decrypt. -/
theorem migrateEntries_spec (pk : TDEPrincipalKey) (read : α → DiskEntry) (entries : List α)
    {info : TDESignedPrincipalKeyInfo} {out : List TDEMapEntry}
    (hf : s.keyFiles (.keysTmp db) = some (.current info out)) :
    wp (migrateEntries (fun e => mapFromDiskEntry w pk (read e)) db entries out.length)
      (fun _ t => DiskReadable (entries.map read) ∧ ∃ new, (∀ e ∈ new, e.type = .key) ∧
        keyTable w pk.keyData new = diskTable (entries.map read) ∧
        Quiet (s.putKeyFile (.keysTmp db) (some (.current info (out ++ new)))) t)
      (fun _ t => (s.SysOk → ¬DiskReadable (entries.map read)) ∧
        ∃ f, Quiet (s.putKeyFile (.keysTmp db) f) t) s := by
  induction entries generalizing s out with
  | nil =>
      refine ⟨by simp [DiskReadable], [], by simp, rfl, ?_⟩
      rw [List.append_nil, ← hf, putKeyFile_self]
      exact Quiet.refl s
  | cons e entries ih =>
      have hsame : ∀ {u}, Quiet s u → ∃ f, Quiet (s.putKeyFile (.keysTmp db) f) u := fun hu =>
        ⟨_, by rw [putKeyFile_self]; exact hu⟩
      rw [migrateEntries, wp_bind, List.map_cons, diskReadable_cons]
      refine (mapFromDiskEntry_spec pk (read e)).mono (fun e' u hu => ?_) fun _ u hu =>
        ⟨fun hok h => ?_, hsame hu.1⟩
      · obtain ⟨hq, ⟨hempty, hempty'⟩ | ⟨hkey, k, hk, he'⟩⟩ := hu
        · -- free entries are left out
          have hne : (read e).type ≠ .key := by simp [hempty]
          have hfu : u.keyFiles (.keysTmp db) = some (.current info out) := by
            rw [hq.keyFiles, hf]
          rw [if_pos hempty', diskTable_cons, if_neg hne, List.nil_append]
          refine (ih hfu).mono (fun _ v hv => ?_) fun _ v hv => ?_
          · obtain ⟨hr, new, hnew, htable, hqv⟩ := hv
            exact ⟨⟨fun h => absurd h hne, hr⟩, new, hnew, htable, (hq.putKeyFile _ _).trans hqv⟩
          · obtain ⟨hbad, f, hqv⟩ := hv
            exact ⟨fun hok h => hbad (hq.sysOk hok) h.2, f, (hq.putKeyFile _ _).trans hqv⟩
        · have hne : e'.type ≠ .empty := by simp [he'.type]
          have hfu : u.keyFiles (.keysTmp db) = some (.current info out) := by
            rw [hq.keyFiles, hf]
          rw [if_neg hne, diskTable_cons, if_pos hkey, wp_bind]
          refine (writeOneMapEntry_spec hfu out.length e').mono (fun _ x hx => ?_) fun _ x hx =>
            ⟨fun hok => absurd (hq.sysOk hok) hx.2, hsame (hq.trans hx.1)⟩
          rw [writeAt_length] at hx
          have hsx : Quiet (s.putKeyFile (.keysTmp db) (some (.current info (out ++ [e'])))) x :=
            (hq.putKeyFile _ _).trans hx
          have hfx : x.keyFiles (.keysTmp db) = some (.current info (out ++ [e'])) := by
            rw [hx.keyFiles]
            simp
          have hlen : out.length + 1 = (out ++ [e']).length := by simp
          rw [hlen]
          refine (ih hfx).mono (fun _ y hy => ?_) fun _ y hy => ?_
          · obtain ⟨hr, new, hnew, htable, hqy⟩ := hy
            refine ⟨⟨fun _ => by simp [hk], hr⟩, e' :: new, by simpa [he'.type] using hnew, ?_, ?_⟩
            · rw [keyTable_cons_key he'.type, htable, he'.spcOid, he'.relNumber, he'.unwrap, hk]
              rfl
            · have := (hsx.putKeyFile _ _).trans hqy
              rw [putKeyFile_putKeyFile] at this
              simpa using this
          · obtain ⟨hbad, f, hqy⟩ := hy
            have := (hsx.putKeyFile _ f).trans hqy
            rw [putKeyFile_putKeyFile] at this
            exact ⟨fun hok h => hbad (hsx.sysOk hok) h.2, f, this⟩
      · obtain ⟨hkey, hnone⟩ := hu.2 hok
        have := h.1 hkey
        rw [hnone] at this
        cases this

/-! ### The state between two files -/

/-- What the migration needs of the files: a header names the database its file belongs to, and
the server scope, which has a file of another kind, has none here. -/
structure HeadersOk (s : Server) : Prop where
  owner : ∀ db f info, s.keyFiles (.keys db) = some f → f.info = some info →
    info.data.databaseId = db
  server : s.keyFiles (.keys globalDataTdeOid) = none

/-- The cache agrees with the headers. -/
def CacheOk (w : World) (s : Server) : Prop :=
  ∀ scope k, s.cache scope = some k → principalKeyOf w s scope = some k

/-- From `s` to `t` files were migrated and nothing else happened to them. -/
structure Migrating (w : World) (s t : Server) : Prop where
  providers : t.providers = s.providers
  walKeys : t.walKeys = s.walKeys
  files : ∀ db, t.keyFiles (.keys db) = s.keyFiles (.keys db) ∨ ∃ f f',
    s.keyFiles (.keys db) = some f ∧ t.keyFiles (.keys db) = some f' ∧
      Migrated w s.providers db f f'

theorem diskEntries_eq_none {f : KeyFile} (h : f.entries ≠ none) (keyData : List UInt8) :
    f.diskEntries w keyData = none := by
  cases f <;> simp_all [KeyFile.entries, KeyFile.diskEntries]

theorem Migrated.entries {providers : Oid → List KeyringProviderRecord} {f f' : KeyFile}
    (h : Migrated w providers db f f') : f.entries = none ∧ f'.entries ≠ none := by
  obtain ⟨info, info', k, entries, new, -, -, hd, -, rfl, -⟩ := h
  refine ⟨?_, by simp [KeyFile.entries]⟩
  by_contra hne
  rw [diskEntries_eq_none hne] at hd
  cases hd

theorem Migrating.of_keyFiles (hp : t.providers = s.providers) (hw : t.walKeys = s.walKeys)
    (hk : ∀ db, t.keyFiles (.keys db) = s.keyFiles (.keys db)) : Migrating w s t :=
  ⟨hp, hw, fun db => .inl (hk db)⟩

theorem Migrating.trans (h : Migrating w s t) (h' : Migrating w t u) : Migrating w s u := by
  refine ⟨h'.providers.trans h.providers, h'.walKeys.trans h.walKeys, fun db => ?_⟩
  obtain heq' | ⟨f', f'', hf', hf'', hm'⟩ := h'.files db
  · rw [heq']
    exact h.files db
  · obtain heq | ⟨f, f₁, hf, hf₁, hm⟩ := h.files db
    · rw [h.providers] at hm'
      exact .inr ⟨f', f'', by rw [← heq, hf'], hf'', hm'⟩
    · -- a file is migrated only once
      rw [hf'] at hf₁
      cases hf₁
      exact absurd hm'.entries.1 hm.entries.2

/-- A header that was signed anew names the key that the old one named. -/
theorem namedKey_resigned {providers : Oid → List KeyringProviderRecord}
    {info info' : TDESignedPrincipalKeyInfo} {k : TDEPrincipalKey}
    (h : namedKey w providers db info = some k) (hdata : info'.data = info.data)
    (hver : verifyPrincipalKeyInfo w info' k.keyData = true) :
    namedKey w providers db info' = some k := by
  unfold namedKey at h ⊢
  rw [hdata]
  cases hr : getKeyProviderByID providers info.data.keyringId db with
  | none => rw [hr] at h; cases h
  | some r =>
      rw [hr] at h
      dsimp only at h ⊢
      cases hv : w.vault r info.data.name with
      | none => rw [hv] at h; cases h
      | some ki =>
          rw [hv] at h
          dsimp only at h ⊢
          split at h
          · cases h
            exact if_pos hver
          · cases h

theorem Migrating.principalKeyOf (h : Migrating w s t) (scope : Oid) :
    principalKeyOf w t scope = principalKeyOf w s scope := by
  obtain heq | ⟨f, f', hf, hf', hm⟩ := h.files scope
  · exact principalKeyOf_congr (fun _ => by rw [h.providers]) (fun _ => heq)
      fun _ => by rw [h.walKeys]
  · by_cases hg : scope = globalDataTdeOid
    · exact principalKeyOf_congr (fun _ => by rw [h.providers]) (fun hne => absurd hg hne)
        fun _ => by rw [h.walKeys]
    · obtain ⟨info, info', k, entries, new, hi, hn, -, -, rfl, hdata, hver, -⟩ := hm
      have hs : scopeInfo s scope = some info := by simp [scopeInfo, hg, hf, hi]
      have ht : scopeInfo t scope = some info' := scopeInfo_current hg hf'
      rw [OpenPgTde.principalKeyOf, OpenPgTde.principalKeyOf, hs, ht, Option.bind_some,
        Option.bind_some, h.providers, hn]
      exact namedKey_resigned hn hdata hver

theorem Migrating.headersOk (h : Migrating w s t) (hs : HeadersOk s) : HeadersOk t := by
  refine ⟨fun db f' info' hf' hi' => ?_, ?_⟩
  · obtain heq | ⟨f, f₁, hf, hf₁, hm⟩ := h.files db
    · exact hs.owner db f' info' (by rw [← heq, hf']) hi'
    · obtain ⟨info, info'', k, entries, new, hi, -, -, -, rfl, hdata, -⟩ := hm
      rw [hf'] at hf₁
      cases hf₁
      cases hi'
      rw [hdata]
      exact hs.owner db f info hf hi
  · obtain heq | ⟨f, f', hf, -⟩ := h.files globalDataTdeOid
    · rw [heq, hs.server]
    · rw [hs.server] at hf
      cases hf

/-! ### One file -/

/-- The file was migrated, or there was nothing to do. -/
def Settled (s : Server) (db : Oid) : Prop :=
  ∃ f, s.keyFiles (.keys db) = some f ∧ f.entries ≠ none

/-- Nothing but a failed system call can stop the migration of the file. -/
def Ready (w : World) (s : Server) (db : Oid) : Prop :=
  Settled s db ∨ Reachable w s db ∧ ∃ f info k entries, s.keyFiles (.keys db) = some f ∧
    f.info = some info ∧ namedKey w s.providers db info = some k ∧
    f.diskEntries w k.keyData = some (entries, false) ∧ DiskReadable entries

/-- What one call of the program keeps, whether it returns or fails. -/
structure MigrationStep (w : World) (s t : Server) : Prop where
  migrating : Migrating w s t
  cacheOk : CacheOk w t
  kms : t.kms = s.kms

/-- Loading the principal key and then changing temporary files is such a step. -/
theorem Loaded.migrationStep {v : Server} (h : Loaded w s u) (hs : CacheOk w s)
    {f : Option KeyFile} (hq : Quiet (u.putKeyFile (.keysTmp db) f) v) :
    MigrationStep w s v := by
  have hm : Migrating w s v := by
    refine .of_keyFiles ?_ ?_ fun a => ?_
    · exact (hq.loaded (w := w)).providers.trans h.providers
    · exact hq.walKeys.trans h.walKeys
    · rw [hq.keyFiles]
      simpa using congrFun h.keyFiles (.keys a)
  refine ⟨hm, fun scope k hk => ?_, (hq.loaded (w := w)).kms.trans h.kms⟩
  rw [hm.principalKeyOf]
  have hcache : v.cache = u.cache := by
    obtain ⟨_, _, _, _, rfl⟩ := hq
    rfl
  rw [hcache] at hk
  obtain hk | hk := h.cached scope k hk
  · exact hs scope k hk
  · exact hk

theorem migrateFile_spec {f : KeyFile} {info : TDESignedPrincipalKeyInfo} (hs : HeadersOk s)
    (hc : CacheOk w s) (hf : s.keyFiles (.keys db) = some f) (hi : f.info = some info)
    (read : List UInt8 → α → DiskEntry) (entries : List α) (torn : Bool)
    (hd : ∀ keyData, f.diskEntries w keyData = some (entries.map (read keyData), torn)) :
    wp (migrateFile w (fun pk e => mapFromDiskEntry w pk (read pk.keyData e)) db entries torn)
      (fun _ t => MigrationStep w s t ∧ Settled t db ∧ (s.SysOk → t.SysOk))
      (fun _ t => MigrationStep w s t ∧ (s.SysOk → ¬Ready w s db)) s := by
  have hg : db ≠ globalDataTdeOid := by
    rintro rfl
    rw [hs.server] at hf
    cases hf
  have hinfo : scopeInfo s db = some info := by simp [scopeInfo, hg, hf, hi]
  -- what it takes for the migration to get through, in terms of this file
  have hready : Ready w s db → Reachable w s db ∧ torn = false ∧
      ∀ k, principalKeyOf w s db = some k → DiskReadable (entries.map (read k.keyData)) := by
    rintro (⟨f', hf', hne⟩ | ⟨hreach, f', info', k, es, hf', hi', hn, hd', hr⟩)
    · rw [hf] at hf'
      cases hf'
      have := diskEntries_eq_none (w := w) hne []
      rw [hd] at this
      cases this
    · rw [hf] at hf'
      cases hf'
      rw [hi] at hi'
      cases hi'
      rw [hd] at hd'
      cases hd'
      refine ⟨hreach, rfl, fun k' hk' => ?_⟩
      obtain ⟨info'', hi'', hn''⟩ := principalKeyOf_eq_some.1 hk'
      rw [hinfo] at hi''
      cases hi''
      rw [hn] at hn''
      cases hn''
      exact hr
  refine (wp_bind ..).2 ((getPrincipalKey_header_spec (hc db) (fun info' hi' => ?_)
    (by simp [hinfo])).mono (fun r t ht => ?_) fun _ t ht => ⟨?_, fun hok h => ?_⟩)
  · rw [hinfo] at hi'
    cases hi'
    exact hs.owner db f info hf hi
  · obtain ⟨hl, pk, rfl, hpk⟩ := ht
    have hname : namedKey w s.providers db info = some pk := by
      obtain ⟨info', hi', hn⟩ := principalKeyOf_eq_some.1 hpk
      rw [hinfo] at hi'
      cases hi'
      exact hn
    -- until the rename nothing but the temporary file changes
    have hfail : ∀ {v}, (∃ g, Quiet (t.putKeyFile (.keysTmp db) g) v) → MigrationStep w s v := by
      rintro v ⟨_, hq⟩
      exact hl.migrationStep hc hq
    have hsame : ∀ {v}, Quiet t v → ∃ g, Quiet (t.putKeyFile (.keysTmp db) g) v := fun hv =>
      ⟨_, by rw [putKeyFile_self]; exact hv⟩
    refine (wp_bind ..).2 ((signPrincipalKeyInfo_spec pk).mono (fun info' v hv => ?_)
      fun _ v hv => ⟨hfail (hsame hv.1), fun hok => absurd (hl.sysOk hok) hv.2⟩)
    obtain ⟨hqv, hdata, hver⟩ := hv
    refine (wp_bind ..).2 ((openFileWrite_truncate_spec info').mono (fun _ x hx => ?_)
      fun _ x hx => ⟨hfail ?_, fun hok => absurd (hqv.sysOk (hl.sysOk hok)) hx.2⟩)
    · have htx : Quiet (t.putKeyFile (.keysTmp db) (some (.current info' []))) x :=
        (hqv.putKeyFile _ _).trans hx
      have hfx : x.keyFiles (.keysTmp db) = some (.current info' []) := by
        rw [hx.keyFiles]
        simp
      refine (wp_bind ..).2 ((migrateEntries_spec pk (read pk.keyData) entries hfx).mono
        (fun _ y hy => ?_) fun _ y hy => ⟨hfail ?_, fun hok h => ?_⟩)
      · obtain ⟨hr, new, hlive, htable, hqy⟩ := hy
        have hty : Quiet (t.putKeyFile (.keysTmp db) (some (.current info' new))) y := by
          have := (htx.putKeyFile (.keysTmp db) (some (.current info' new))).trans hqy
          rwa [putKeyFile_putKeyFile] at this
        have hoky : s.SysOk → y.SysOk := fun hok => hty.sysOk (hl.sysOk hok)
        simp only [wp_ite, wp_throw, Bool.not_eq_true]
        refine ⟨fun htorn => ⟨hfail ⟨_, hty⟩, fun _ h => ?_⟩, fun htorn => ?_⟩
        · rw [(hready h).2.1] at htorn
          cases htorn
        · refine durableRename_spec.mono (fun _ z hz => ?_) fun _ z hz =>
            ⟨hfail ⟨_, hty.trans hz.1⟩, fun hok => absurd (hoky hok) hz.2⟩
          have hfy : y.keyFiles (.keysTmp db) = some (.current info' new) := by
            rw [hty.keyFiles]
            simp
          rw [hfy] at hz
          have hfz : z.keyFiles (.keys db) = some (.current info' new) := by
            rw [hz.keyFiles]
            simp
          have hstep := hfail ⟨_, hty⟩
          have hmz : Migrating w s z := by
            refine ⟨?_, ?_, fun a => ?_⟩
            · exact (hz.loaded (w := w)).providers.trans hstep.migrating.providers
            · exact hz.walKeys.trans hstep.migrating.walKeys
            · by_cases ha : a = db
              · subst ha
                refine .inr ⟨f, _, hf, hfz, info, info', pk, _, new, hi, hname, ?_, hr, rfl, ?_,
                  hver, hlive, htable⟩
                · rw [hd, htorn]
                · rw [hdata, keyInfo_of_namedKey hname]
              · have : z.keyFiles (.keys a) = y.keyFiles (.keys a) := by
                  rw [hz.keyFiles]
                  simp [ha]
                rw [this]
                exact hstep.migrating.files a
          have hcz : z.cache = y.cache := by
            obtain ⟨_, _, _, _, rfl⟩ := hz
            rfl
          refine ⟨⟨hmz, fun scope k hk => ?_, ?_⟩, ⟨_, hfz, by simp [KeyFile.entries]⟩,
            fun hok => hz.sysOk (hoky hok)⟩
          · rw [hmz.principalKeyOf, ← hstep.migrating.principalKeyOf]
            exact hstep.cacheOk scope k (by rw [← hcz, hk])
          · exact (hz.loaded (w := w)).kms.trans hstep.kms
      · obtain ⟨-, g, hq⟩ := hy
        have := (htx.putKeyFile (.keysTmp db) g).trans hq
        rw [putKeyFile_putKeyFile] at this
        exact ⟨g, this⟩
      · exact hy.1 (htx.sysOk (hl.sysOk hok)) ((hready h).2.2 pk hpk)
    · obtain h | h := hx.1
      · exact hsame (hqv.trans h)
      · exact ⟨_, (hqv.putKeyFile _ _).trans h⟩
  · have hq : Quiet (t.putKeyFile (.keysTmp db) (t.keyFiles (.keysTmp db))) t := by
      rw [putKeyFile_self]
      exact Quiet.refl t
    exact ht.1.migrationStep hc hq
  · exact ht.2 hok (hready h).1

theorem Quiet.migrationStep (h : Quiet s t) (hc : CacheOk w s) : MigrationStep w s t := by
  have hm : Migrating w s t :=
    .of_keyFiles h.providers h.walKeys fun a => by rw [h.keyFiles]
  refine ⟨hm, fun scope k hk => ?_, (h.loaded (w := w)).kms⟩
  rw [hm.principalKeyOf]
  obtain ⟨_, _, _, _, rfl⟩ := h
  exact hc scope k hk

theorem MigrationStep.trans (h : MigrationStep w s t) (h' : MigrationStep w t u) :
    MigrationStep w s u :=
  ⟨h.migrating.trans h'.migrating, h'.cacheOk, h'.kms.trans h.kms⟩

theorem Migrating.settled (h : Migrating w s t) (hs : Settled s db) : Settled t db := by
  obtain ⟨f, hf, hne⟩ := hs
  obtain heq | ⟨f₀, f', hf₀, hf', hm⟩ := h.files db
  · exact ⟨f, by rw [heq, hf], hne⟩
  · exact ⟨f', hf', hm.entries.2⟩

theorem MigrationStep.ready (h : MigrationStep w s t) (hr : Ready w s db) : Ready w t db := by
  obtain hset | ⟨hreach, f, info, k, es, hf, hi, hn, hd, hread⟩ := hr
  · exact .inl (h.migrating.settled hset)
  · obtain heq | ⟨f₀, f', hf₀, hf', hm⟩ := h.migrating.files db
    · refine .inr ⟨fun info' hi' => ?_, f, info, k, es, by rw [heq, hf], hi, ?_, hd, hread⟩
      · rw [h.migrating.providers, h.kms]
        refine hreach info' ?_
        rw [← hi']
        exact (scopeInfo_congr (fun _ => heq) fun _ => by rw [h.migrating.walKeys]).symm
      · rw [h.migrating.providers]
        exact hn
    · exact .inl ⟨f', hf', hm.entries.2⟩

theorem migrateSmgrKeysFile_spec (hs : HeadersOk s) (hc : CacheOk w s) :
    wp (migrateSmgrKeysFile w db)
      (fun _ t => MigrationStep w s t ∧ Settled t db ∧ (s.SysOk → t.SysOk))
      (fun _ t => MigrationStep w s t ∧ (s.SysOk → ¬Ready w s db)) s := by
  refine (wp_bind ..).2 ((sysCall_spec _).mono (fun _ t ht => ?_) fun _ t h =>
    ⟨h.2.1.migrationStep hc, fun hok => absurd hok h.2.2⟩)
  have hstep : MigrationStep w s t := ht.migrationStep hc
  have hst := hstep.migrating.headersOk hs
  -- a file of an old version, in the state after it was opened
  have hold : ∀ {m : M Unit}, wp m
      (fun _ u => MigrationStep w t u ∧ Settled u db ∧ (t.SysOk → u.SysOk))
      (fun _ u => MigrationStep w t u ∧ (t.SysOk → ¬Ready w t db)) t →
      wp m (fun _ u => MigrationStep w s u ∧ Settled u db ∧ (s.SysOk → u.SysOk))
      (fun _ u => MigrationStep w s u ∧ (s.SysOk → ¬Ready w s db)) t := fun h =>
    h.mono (fun _ u hu => ⟨hstep.trans hu.1, hu.2.1, fun hok => hu.2.2 (ht.sysOk hok)⟩)
      fun _ u hu => ⟨hstep.trans hu.1, fun hok hr => hu.2 (ht.sysOk hok) (hstep.ready hr)⟩
  have hkf := ht.keyFiles
  simp only [wp_bind, wp_get]
  cases hf : t.keyFiles (.keys db) with
  | none =>
      refine ⟨hstep, fun _ hr => ?_⟩
      rw [hkf] at hf
      obtain ⟨f, hf', -⟩ | ⟨-, f, _, _, _, hf', -⟩ := hr <;> rw [hf] at hf' <;> cases hf'
  | some f =>
      cases f with
      | empty => exact ⟨hstep, ⟨_, hf, by simp [KeyFile.entries]⟩, ht.sysOk⟩
      | current info entries => exact ⟨hstep, ⟨_, hf, by simp [KeyFile.entries]⟩, ht.sysOk⟩
      | v3 info entries =>
          exact hold (migrateFile_spec hst hstep.cacheOk hf rfl (TDEMapEntryV3.read w) entries
            false fun _ => rfl)
      | v4 info entries torn =>
          exact hold (migrateFile_spec hst hstep.cacheOk hf rfl (TDEMapEntryV4.read w) entries
            torn fun _ => rfl)
      | v5 info entries torn =>
          exact hold (migrateFile_spec hst hstep.cacheOk hf rfl (TDEMapEntryV5.read w) entries
            torn fun _ => rfl)
      | other version info =>
          refine ⟨hstep, fun _ hr => ?_⟩
          rw [hkf] at hf
          obtain ⟨f, hf', hne⟩ | ⟨-, f, _, _, _, hf', -, -, hd, -⟩ := hr
          · rw [hf] at hf'
            cases hf'
            exact hne rfl
          · rw [hf] at hf'
            cases hf'
            cases hd

/-! ### The directory, and restarts -/

theorem migrateSmgrKeys_spec (dir : List Oid) (hs : HeadersOk s) (hc : CacheOk w s) :
    wp (migrateSmgrKeys w dir)
      (fun _ t => MigrationStep w s t ∧ ∀ db ∈ dir, Settled t db)
      (fun _ t => MigrationStep w s t ∧ (s.SysOk → ¬∀ db ∈ dir, Ready w s db)) s := by
  unfold migrateSmgrKeys
  induction dir generalizing s with
  | nil => exact ⟨(Quiet.refl s).migrationStep hc, by simp⟩
  | cons db dir ih =>
      rw [List.forM_cons, wp_bind]
      refine (migrateSmgrKeysFile_spec hs hc).mono (fun _ t ht => ?_) fun _ t ht =>
        ⟨ht.1, fun hok h => ht.2 hok (h db List.mem_cons_self)⟩
      obtain ⟨hstep, hset, hok⟩ := ht
      refine (ih (hstep.migrating.headersOk hs) hstep.cacheOk).mono (fun _ u hu => ?_)
        fun _ u hu => ⟨hstep.trans hu.1, fun hok' h => hu.2 (hok hok') fun a ha => ?_⟩
      · refine ⟨hstep.trans hu.1, fun a ha => ?_⟩
        obtain rfl | ha := List.mem_cons.1 ha
        · exact hu.1.migrating.settled hset
        · exact hu.2 a ha
      · exact hstep.ready (h a (List.mem_cons_of_mem db ha))

/-- A start of the server: the shared cache is empty, the temporary files hold whatever an earlier
start left in them, and the outside world has moved on. -/
structure Restart where
  kms : KeyringProviderRecord → List UInt8 → KmsReply
  rng : ℕ → UInt8
  clock : ℕ → Timeval
  sys : ℕ → Bool
  tmp : Oid → Option KeyFile

def Restart.start (r : Restart) (s : Server) : Server :=
  { s with
    cache := fun _ => none
    keyFiles := fun
      | .keys dbOid => s.keyFiles (.keys dbOid)
      | .keysTmp dbOid => r.tmp dbOid
    kms := r.kms, rng := r.rng, clock := r.clock, sys := r.sys }

/-- Several starts, each of which runs the migration until it ends or is interrupted. -/
def migrationStarts (w : World) (dir : List Oid) (starts : List Restart) (s : Server) : Server :=
  starts.foldl (fun s r => after (migrateSmgrKeys w dir) (r.start s)) s

theorem Restart.migrating (r : Restart) (s : Server) : Migrating w s (r.start s) :=
  .of_keyFiles rfl rfl fun _ => rfl

theorem Restart.cacheOk (r : Restart) (s : Server) : CacheOk w (r.start s) := by
  intro scope k hk
  cases hk

theorem migrationStarts_migrating (dir : List Oid) (starts : List Restart) (hs : HeadersOk s) :
    Migrating w s (migrationStarts w dir starts s) := by
  induction starts generalizing s with
  | nil => exact .of_keyFiles rfl rfl fun _ => rfl
  | cons r starts ih =>
      have hstart : Migrating w s (r.start s) := r.migrating s
      have hrun : MigrationStep w (r.start s) (after (migrateSmgrKeys w dir) (r.start s)) :=
        wp.after ((migrateSmgrKeys_spec dir (hstart.headersOk hs) (r.cacheOk s)).mono
          (fun _ _ h => h.1) fun _ _ h => h.1)
      have hstep := hstart.trans hrun.migrating
      exact hstep.trans (ih (hstep.headersOk hs))

/-- However often the migration was interrupted: every file is as it was or is the migrated file,
and it is as it was if one of its entries does not decrypt. A start that gets through leaves every
file of the directory migrated, save those that were empty or current and are untouched; and it gets
through unless a system call fails, a principal key cannot be had or a file is not valid. -/
theorem migration_preserves_keys (w : World) (s : Server) (hs : HeadersOk s) (dir : List Oid)
    (starts : List Restart) (r : Restart) :
    (∀ db, (migrationStarts w dir starts s).keyFiles (.keys db) = s.keyFiles (.keys db) ∨
      ∃ f f', s.keyFiles (.keys db) = some f ∧
        (migrationStarts w dir starts s).keyFiles (.keys db) = some f' ∧
        Migrated w s.providers db f f') ∧
    (∀ db f k entries torn, s.keyFiles (.keys db) = some f →
      f.info.bind (namedKey w s.providers db) = some k →
      f.diskEntries w k.keyData = some (entries, torn) → ¬DiskReadable entries →
      (migrationStarts w dir starts s).keyFiles (.keys db) = some f) ∧
    (∀ t, migrateSmgrKeys w dir (r.start (migrationStarts w dir starts s)) = .ok () t →
      ∀ db ∈ dir, ∃ f f', s.keyFiles (.keys db) = some f ∧ t.keyFiles (.keys db) = some f' ∧
        (f.entries ≠ none ∧ f' = f ∨ Migrated w s.providers db f f')) ∧
    ((∀ i, r.sys i = true) → (∀ db ∈ dir, Ready w { s with kms := r.kms } db) →
      ∃ t, migrateSmgrKeys w dir (r.start (migrationStarts w dir starts s)) = .ok () t) := by
  have hm := migrationStarts_migrating (w := w) dir starts hs
  have hstart := hm.trans (r.migrating (migrationStarts w dir starts s))
  have hspec := migrateSmgrKeys_spec dir (hstart.headersOk hs)
    (r.cacheOk (w := w) (migrationStarts w dir starts s))
  refine ⟨hm.files, fun db f k entries torn hf hk hd hbad => ?_, fun t ht db hdb => ?_,
    fun hok hready => ?_⟩
  · obtain heq | ⟨f₀, f', hf₀, hf', info, info', k', es, new, hi, hn, hd', hr, -⟩ := hm.files db
    · rw [heq, hf]
    · rw [hf] at hf₀
      cases hf₀
      rw [hi, Option.bind_some, hn] at hk
      cases hk
      rw [hd] at hd'
      cases hd'
      exact absurd hr hbad
  · obtain ⟨hstep, hset⟩ := hspec.of_ok ht
    obtain ⟨f', hf', hne⟩ := hset db hdb
    obtain heq | ⟨f, f₁, hf, hf₁, hmig⟩ := (hstart.trans hstep.migrating).files db
    · exact ⟨f', f', by rw [← heq, hf'], hf', .inl ⟨hne, rfl⟩⟩
    · exact ⟨f, f₁, hf, hf₁, .inr hmig⟩
  · have hstep : MigrationStep w { s with kms := r.kms }
        (r.start (migrationStarts w dir starts s)) :=
      ⟨⟨hstart.providers, hstart.walKeys, hstart.files⟩, r.cacheOk _, rfl⟩
    cases hrun : migrateSmgrKeys w dir (r.start (migrationStarts w dir starts s)) with
    | ok _ t => exact ⟨t, rfl⟩
    | error e t =>
        exact absurd (fun db hdb => hstep.ready (hready db hdb)) ((hspec.of_error hrun).2 hok)

/-- A version 4 file with a free entry and the key of one relation. -/
def sampleOldFile : KeyFile :=
  let e : TDEMapEntryV4 := ⟨.aes128, 1663, 16384, .key, [1], [], [2], List.replicate 16 7⟩
  .v4 (sampleInfo 5) [⟨.aes128, 0, 0, .empty, [], [], [], []⟩,
    { e with aeadTag := (Lib.Aead.transparent.encrypt (List.replicate 16 65) e.entryIv e.aad
        e.encryptedKeyData).2 }] false

def sampleOld : Server :=
  sampleServer.putKeyFile (.keys 5) (some sampleOldFile)

/-- A start of the sample server; `sys` says which of its system calls fail. -/
def sampleRestart (sys : ℕ → Bool) : Restart :=
  ⟨fun _ _ => .stored, fun i => UInt8.ofNat i, fun _ => ⟨0, 0⟩, sys, fun _ => none⟩

theorem sampleOld_headersOk : HeadersOk sampleOld := by
  refine ⟨fun db f info hf hi => ?_, by decide⟩
  by_cases hdb : db = 5
  · subst hdb
    obtain rfl : sampleOldFile = f := by simpa [sampleOld] using hf
    cases hi
    rfl
  · simp [sampleOld, sampleServer, hdb] at hf

/-- The first start is interrupted when it writes the entry, the second one gets through. -/
theorem migration_preserves_keys_sample :
    HeadersOk sampleOld ∧ ∃ t, migrateSmgrKeys sampleWorld [5] ((sampleRestart fun _ => true).start
      (migrationStarts sampleWorld [5] [sampleRestart fun i => i ≠ 7] sampleOld)) = .ok () t := by
  refine ⟨sampleOld_headersOk, (migration_preserves_keys sampleWorld sampleOld sampleOld_headersOk
    [5] [sampleRestart fun i => i ≠ 7] (sampleRestart fun _ => true)).2.2.2 (fun _ => rfl)
    fun db hdb => ?_⟩
  obtain rfl : db = 5 := by simpa using hdb
  refine .inr ⟨fun info hi => ?_, sampleOldFile, sampleInfo 5,
    ⟨(sampleInfo 5).data, List.replicate 16 65⟩, _, rfl, rfl, by decide +kernel, rfl,
    by decide +kernel⟩
  obtain rfl : sampleInfo 5 = info := Option.some.inj hi
  exact ⟨sampleProvider, ⟨[65], List.replicate 16 65⟩, by decide, by decide, by decide +kernel⟩

end OpenPgTde
