import OpenPgTde.KeyMap.Migration
import OpenPgTde.WalKeys.Rotation

/-!
The migration of WAL key files of older versions (`access/open_pg_tde_xlog_keys.c`).

A start of the server rewrites a `wal_keys` file of version 1 or 2 in the current format. An entry
of version 1 has no cipher and authenticates eight bytes that mean nothing; version 2 has a cipher,
and authenticates it and the type of the range, but not the base IV. What they have in common is a
range that decrypts or does not, and that is what the loop copies.
-/

namespace OpenPgTde

open Lib.Effect

variable {w : World} {s t : Server} {α : Type}

/-! ### The migration -/

/-- The part of `open_pg_tde_update_wal_keys_file` for a file of an old version. -/
def migrateWalFile (w : World) (readRange : List UInt8 → α → Option WalEncryptionRange)
    (entries : List α) : M Unit := do
  match ← getPrincipalKey w globalDataTdeOid with
  | none => throw .noServerKey
  | some pk => do
    let info ← signPrincipalKeyInfo w pk
    let _ ← openWalKeyFileWrite .walKeysTmp (some info) true
    migrateWalEntries w pk (readRange pk.keyData) entries
    durableRenameWalKeys

/-- `open_pg_tde_update_wal_keys_file`. A file without a header has no version; the number that is
compared then is not initialised, and is taken to be none of the known ones. -/
def updateWalKeysFile (w : World) : M Unit := do
  sysCall .couldNotOpenWal
  let s ← get
  match s.walKeys .walKeys with
  | none => pure ()
  | some .empty => throw (.unsupportedVersion 0)
  | some (.current _ _) => pure ()
  | some (.v1 _ entries) => migrateWalFile w (walRangeFromEntryV1 w) entries
  | some (.v2 _ entries) => migrateWalFile w (walRangeFromEntryV2 w) entries
  | some (.other version _) => throw (.unsupportedVersion version)

/-- The ranges in a file of an old version, in file order: `none` is an entry that does not
decrypt. -/
def WalKeyFile.oldRanges (w : World) (keyData : List UInt8) :
    WalKeyFile → Option (List (Option WalEncryptionRange))
  | .v1 _ entries => some (entries.map (walRangeFromEntryV1 w keyData))
  | .v2 _ entries => some (entries.map (walRangeFromEntryV2 w keyData))
  | _ => none

/-! ### What it does -/

/-- The server scope is as a start finds it: the header is that of the server key, and a key in
the cache is the one the header names. -/
structure ServerScopeOk (w : World) (s : Server) : Prop where
  owner : ∀ info, scopeInfo s globalDataTdeOid = some info →
    info.data.databaseId = globalDataTdeOid
  cached : ∀ k, s.cache globalDataTdeOid = some k → principalKeyOf w s globalDataTdeOid = some k

theorem scopeInfo_server (s : Server) :
    scopeInfo s globalDataTdeOid = (s.walKeys .walKeys).bind WalKeyFile.info := by
  simp [scopeInfo]

theorem stop_of_oldRanges {f : WalKeyFile} {keyData : List UInt8}
    {ranges : List (Option WalEncryptionRange)} (h : f.oldRanges w keyData = some ranges)
    {r : WalEncryptionRange} (hr : some r ∈ ranges) : r.stop = maxWalLocation := by
  cases f with
  | v1 info entries =>
      cases h
      obtain ⟨e, -, he⟩ := List.mem_map.1 hr
      obtain ⟨k, -, rfl⟩ := Option.map_eq_some_iff.1 he
      rfl
  | v2 info entries =>
      cases h
      obtain ⟨e, -, he⟩ := List.mem_map.1 hr
      obtain ⟨k, -, rfl⟩ := Option.map_eq_some_iff.1 he
      rfl
  | _ => cases h

/-- The file is a current one that shows under `k` the ranges that were there before. -/
def MigratedTo (w : World) (info : TDESignedPrincipalKeyInfo) (k : TDEPrincipalKey)
    (ranges : List (Option WalEncryptionRange)) (f : Option WalKeyFile) : Prop :=
  ∃ info' new, f = some (.current info' new) ∧ info'.data = info.data ∧
    verifyPrincipalKeyInfo w info' k.keyData = true ∧
    new.map (walRangeOfEntry w k.keyData) = ranges

theorem map_walRangeOfEntry_of_copies {keyData : List UInt8}
    {ranges : List (Option WalEncryptionRange)} {new : List WalKeyFileEntry}
    (h : List.Forall₂ (CopyOf w keyData) ranges new)
    (hstop : ∀ r, some r ∈ ranges → r.stop = maxWalLocation) :
    (∀ range ∈ ranges, Copyable range) ∧ new.map (walRangeOfEntry w keyData) = ranges := by
  induction h with
  | nil => exact ⟨by simp, rfl⟩
  | cons hcopy _ ih =>
      obtain ⟨hall, hmap⟩ := ih fun r hr => hstop r (List.mem_cons_of_mem _ hr)
      have hrange := hcopy.walRangeOfEntry fun r hr => hstop r (by simp [hr])
      obtain ⟨r, iv, hr, hlen, -⟩ := hcopy
      refine ⟨?_, by rw [List.map_cons, hrange, hmap]⟩
      rintro range (_ | ⟨_, hmem⟩)
      · exact ⟨r, hr, hlen⟩
      · exact hall range hmem

/-- An old file under a principal key: the migration succeeds, system calls and the key provider
aside, exactly when every range can be copied. Until it is done the file is as it was. -/
theorem migrateWalFile_spec (hs : ServerScopeOk w s) {f : WalKeyFile}
    {info : TDESignedPrincipalKeyInfo} (hf : s.walKeys .walKeys = some f) (hi : f.info = some info)
    (readRange : List UInt8 → α → Option WalEncryptionRange) (entries : List α)
    (hranges : ∀ keyData, f.oldRanges w keyData = some (entries.map (readRange keyData))) :
    wp (migrateWalFile w readRange entries)
      (fun _ t => ∃ k, namedKey w s.providers globalDataTdeOid info = some k ∧
        (∀ e ∈ entries, Copyable (readRange k.keyData e)) ∧
        MigratedTo w info k (entries.map (readRange k.keyData)) (t.walKeys .walKeys))
      (fun _ t => t.walKeys .walKeys = some f ∧ (s.SysOk → Reachable w s globalDataTdeOid →
        ∀ k, namedKey w s.providers globalDataTdeOid info = some k →
          ¬∀ e ∈ entries, Copyable (readRange k.keyData e))) s := by
  have hinfo : scopeInfo s globalDataTdeOid = some info := by
    rw [scopeInfo_server, hf, Option.bind_some, hi]
  refine (wp_bind ..).2 ((getPrincipalKey_header_spec hs.cached hs.owner (by simp [hinfo])).mono
    (fun r t ht => ?_) fun _ t ht => ⟨by rw [ht.1.walKeys, hf], fun hok hr => absurd hr (ht.2 hok)⟩)
  obtain ⟨hl, pk, rfl, hpk⟩ := ht
  have hname : namedKey w s.providers globalDataTdeOid info = some pk := by
    obtain ⟨info', hi', hn⟩ := principalKeyOf_eq_some.1 hpk
    rw [hinfo] at hi'
    cases hi'
    exact hn
  have hft : t.walKeys .walKeys = some f := by rw [hl.walKeys, hf]
  -- until the rename nothing but the temporary file changes
  have hkeep : ∀ {v g}, Quiet (t.putWalKeys .walKeysTmp g) v → v.walKeys .walKeys = some f := by
    intro v g hv
    rw [hv.walKeys]
    simpa using hft
  have hkeep' : ∀ {v}, Quiet t v → v.walKeys .walKeys = some f := fun hv => by
    rw [hv.walKeys, hft]
  refine (wp_bind ..).2 ((signPrincipalKeyInfo_spec pk).mono (fun info' v hv => ?_) fun _ v hv =>
    ⟨hkeep' hv.1, fun hok => absurd (hl.sysOk hok) hv.2⟩)
  obtain ⟨hqv, hdata, hver⟩ := hv
  refine (wp_bind ..).2 ((openWalKeyFileWrite_truncate_spec info').mono (fun _ x hx => ?_)
    fun _ x hx => ⟨?_, fun hok => absurd (hqv.sysOk (hl.sysOk hok)) hx.2⟩)
  · have htx : Quiet (t.putWalKeys .walKeysTmp (some (.current info' []))) x :=
      (hqv.putWalKeys _ _).trans hx
    have hfx : x.walKeys .walKeysTmp = some (.current info' []) := by
      rw [hx.walKeys]
      simp
    have hokx : s.SysOk → x.SysOk := fun hok => htx.sysOk (hl.sysOk hok)
    refine (wp_bind ..).2 ((migrateWalEntries_spec pk (readRange pk.keyData) entries hfx).mono
      (fun _ y hy => ?_) fun _ y hy => ⟨?_, fun hok _ k hk hall => ?_⟩)
    · obtain ⟨new, hnew, hqy⟩ := hy
      have hty : Quiet (t.putWalKeys .walKeysTmp (some (.current info' new))) y := by
        have := (htx.putWalKeys .walKeysTmp (some (.current info' new))).trans hqy
        rwa [putWalKeys_putWalKeys] at this
      refine durableRenameWalKeys_spec.mono (fun _ z hz => ?_) fun _ z hz =>
        ⟨hkeep (hty.trans hz.1), fun hok => absurd (hty.sysOk (hl.sysOk hok)) hz.2⟩
      have hfz : z.walKeys .walKeys = some (.current info' new) := by
        rw [hz.walKeys]
        simp [hty.walKeys]
      obtain ⟨hall, hmap⟩ := map_walRangeOfEntry_of_copies hnew fun r hr =>
        stop_of_oldRanges (hranges pk.keyData) hr
      refine ⟨pk, hname, fun e he => hall _ (List.mem_map_of_mem he), info', new, hfz, ?_, hver, hmap⟩
      rw [hdata, keyInfo_of_namedKey hname]
    · obtain ⟨-, g, hqy⟩ := hy
      have := (htx.putWalKeys .walKeysTmp g).trans hqy
      rw [putWalKeys_putWalKeys] at this
      exact hkeep this
    · rw [hname] at hk
      cases hk
      exact hy.1 (hokx hok) hall
  · obtain h | h := hx.1
    · exact hkeep' (hqv.trans h)
    · exact hkeep ((hqv.putWalKeys _ _).trans h)

/-- A call that returned found nothing to do, or migrated the file. -/
def WalFileDone (w : World) (s t : Server) : Prop :=
  t.walKeys .walKeys = s.walKeys .walKeys ∧
      (∀ f keyData, s.walKeys .walKeys = some f → f.oldRanges w keyData = none) ∨
    ∃ f info k ranges, s.walKeys .walKeys = some f ∧ f.info = some info ∧
      namedKey w s.providers globalDataTdeOid info = some k ∧
      f.oldRanges w k.keyData = some ranges ∧ (∀ range ∈ ranges, Copyable range) ∧
      MigratedTo w info k ranges (t.walKeys .walKeys)

/-- A call that failed left the file alone. If it was an old one then a system call failed, or the
principal key could not be had, or there is a range that cannot be copied. -/
def WalFileKept (w : World) (s t : Server) : Prop :=
  t.walKeys .walKeys = s.walKeys .walKeys ∧
    (s.SysOk → Reachable w s globalDataTdeOid → ∀ f info k ranges,
      s.walKeys .walKeys = some f → f.info = some info →
      namedKey w s.providers globalDataTdeOid info = some k →
      f.oldRanges w k.keyData = some ranges → ¬∀ range ∈ ranges, Copyable range)

theorem updateWalKeysFile_spec (hs : ServerScopeOk w s) :
    wp (updateWalKeysFile w) (fun _ t => WalFileDone w s t) (fun _ t => WalFileKept w s t) s := by
  refine (wp_bind ..).2 ((sysCall_spec _).mono (fun _ t ht => ?_) fun _ t h =>
    ⟨by rw [h.2.1.walKeys], fun hok => absurd hok h.2.2⟩)
  have hl : Loaded w s t := ht.loaded
  have hst : ServerScopeOk w t := by
    refine ⟨fun info hi => hs.owner info (by rwa [← hl.scopeInfo]), fun k hk => ?_⟩
    obtain h | h := hl.cached _ k hk
    · rw [hl.principalKeyOf]
      exact hs.cached k h
    · rwa [hl.principalKeyOf]
  have hreach_t : Reachable w s globalDataTdeOid → Reachable w t globalDataTdeOid := by
    intro h info hi
    rw [hl.scopeInfo] at hi
    rw [hl.providers, hl.kms]
    exact h info hi
  simp only [wp_bind, wp_get, ht.walKeys]
  cases hf : s.walKeys .walKeys with
  | none => exact .inl ⟨by rw [ht.walKeys], by simp [hf]⟩
  | some f =>
      have hft : t.walKeys .walKeys = some f := by rw [ht.walKeys, hf]
      -- a file of an old version, in the state after it was opened
      have hold : ∀ {β : Type} {info : TDESignedPrincipalKeyInfo}
          (readRange : List UInt8 → β → Option WalEncryptionRange) (entries : List β),
          f.info = some info →
          (∀ keyData, f.oldRanges w keyData = some (entries.map (readRange keyData))) →
          wp (migrateWalFile w readRange entries) (fun _ u => WalFileDone w s u)
            (fun _ u => WalFileKept w s u) t := by
        intro β info readRange entries hi hranges
        refine (migrateWalFile_spec hst hft hi readRange entries hranges).mono (fun _ u hu => ?_)
          fun _ u hu => ?_
        · obtain ⟨k, hk, hall, hto⟩ := hu
          rw [hl.providers] at hk
          refine .inr ⟨f, info, k, _, hf, hi, hk, hranges k.keyData, ?_, hto⟩
          simpa using hall
        · refine ⟨by rw [hu.1, hf], fun hok hreach f' info' k ranges hf' hi' hk hr hall => ?_⟩
          rw [hf] at hf'
          cases hf'
          rw [hi] at hi'
          cases hi'
          rw [hranges] at hr
          cases hr
          rw [← hl.providers] at hk
          exact hu.2 (ht.sysOk hok) (hreach_t hreach) k hk (by simpa using hall)
      cases f with
      | empty =>
          refine ⟨by rw [hft, hf], fun _ _ f info k ranges hf' hi => ?_⟩
          rw [hf] at hf'
          cases hf'
          cases hi
      | current info entries =>
          refine .inl ⟨by rw [hft, hf], fun f keyData hf' => ?_⟩
          rw [hf] at hf'
          cases hf'
          rfl
      | v1 info entries => exact hold (walRangeFromEntryV1 w) entries rfl fun _ => rfl
      | v2 info entries => exact hold (walRangeFromEntryV2 w) entries rfl fun _ => rfl
      | other version info =>
          refine ⟨by rw [hft, hf], fun _ _ f info k ranges hf' _ _ hr => ?_⟩
          rw [hf] at hf'
          cases hf'
          cases hr

/-- A file of version 1 or 2 becomes a current one with the same ranges in the same order, under the
same principal key: with the type, the start, the cipher, the base IV and the key of each entry. The
migration gets through if no system call fails, the principal key can be had and every entry
decrypts, to a key there is room for. A current file stays, and so does any file when the migration
fails, as it does on an entry that does not decrypt. -/
theorem wal_migration_preserves_ranges (w : World) (s : Server) (hs : ServerScopeOk w s) :
    (∀ f info k ranges, s.walKeys .walKeys = some f → f.info = some info →
      namedKey w s.providers globalDataTdeOid info = some k →
      f.oldRanges w k.keyData = some ranges →
      (∀ t, updateWalKeysFile w s = .ok () t → MigratedTo w info k ranges (t.walKeys .walKeys)) ∧
      (s.SysOk → Reachable w s globalDataTdeOid → (∀ range ∈ ranges, Copyable range) →
        ∃ t, updateWalKeysFile w s = .ok () t) ∧
      (none ∈ ranges → ∃ e t, updateWalKeysFile w s = .error e t ∧
        t.walKeys .walKeys = some f)) ∧
    (∀ info entries, s.walKeys .walKeys = some (.current info entries) →
      (after (updateWalKeysFile w) s).walKeys .walKeys = some (.current info entries)) ∧
    ∀ e t, updateWalKeysFile w s = .error e t →
      t.walKeys .walKeys = s.walKeys .walKeys := by
  have hspec := updateWalKeysFile_spec hs
  refine ⟨fun f info k ranges hf hi hk hr => ?_, fun info entries hf => ?_, fun e t ht =>
    (hspec.of_error ht).1⟩
  · -- what a successful run says about this file
    have hok : ∀ t, updateWalKeysFile w s = .ok () t → (∀ range ∈ ranges, Copyable range) ∧
        MigratedTo w info k ranges (t.walKeys .walKeys) := by
      intro t ht
      obtain ⟨-, hnone⟩ | ⟨f', info', k', ranges', hf', hi', hk', hr', hall, hto⟩ := hspec.of_ok ht
      · have := hnone f k.keyData hf
        rw [hr] at this
        cases this
      · rw [hf] at hf'
        cases hf'
        rw [hi] at hi'
        cases hi'
        rw [hk] at hk'
        cases hk'
        rw [hr] at hr'
        cases hr'
        exact ⟨hall, hto⟩
    refine ⟨fun t ht => (hok t ht).2, fun hsys hreach hall => ?_, fun hnone => ?_⟩
    · cases hrun : updateWalKeysFile w s with
      | ok _ t => exact ⟨t, rfl⟩
      | error e t =>
          exact absurd hall ((hspec.of_error hrun).2 hsys hreach f info k ranges hf hi hk hr)
    · cases hrun : updateWalKeysFile w s with
      | ok _ t =>
          obtain ⟨r, hr', -⟩ := (hok t hrun).1 none hnone
          cases hr'
      | error e t => exact ⟨e, t, rfl, by rw [(hspec.of_error hrun).1, hf]⟩
  · refine wp.after (hspec.mono (fun _ t ht => ?_) fun _ t ht => ht.1.trans hf)
    obtain ⟨heq, -⟩ | ⟨f, info', k, ranges, hf', -, -, hr, -⟩ := ht
    · exact heq.trans hf
    · rw [hf] at hf'
      cases hf'
      cases hr

/-- A version 1 file with an unencrypted and an encrypted range. -/
def sampleOldWalKeys : WalKeyFile :=
  let e (type : WalEncryptionRangeType) (start : WalLocation) : WalKeyFileEntryV1 :=
    ⟨1, 0, List.replicate 16 7, [1], type, start, [2], (Lib.Aead.transparent.encrypt
      (List.replicate 16 65) [2] (leBytes 4 1 ++ leBytes 4 0) (List.replicate 16 7)).2⟩
  .v1 (sampleInfo globalDataTdeOid) [e .unencrypted ⟨100, 1⟩, e .encrypted ⟨200, 1⟩]

def sampleOldWal : Server := sampleServer.putWalKeys .walKeys (some sampleOldWalKeys)

theorem sampleOldWal_scopeOk : ServerScopeOk sampleWorld sampleOldWal := by
  refine ⟨fun info hi => ?_, fun k hk => by cases hk⟩
  obtain rfl : sampleInfo globalDataTdeOid = info := Option.some.inj hi
  rfl

theorem wal_migration_preserves_ranges_sample :
    ServerScopeOk sampleWorld sampleOldWal ∧
      ∃ t, updateWalKeysFile sampleWorld sampleOldWal = .ok () t := by
  refine ⟨sampleOldWal_scopeOk, ((wal_migration_preserves_ranges sampleWorld sampleOldWal
    sampleOldWal_scopeOk).1 sampleOldWalKeys (sampleInfo globalDataTdeOid)
    ⟨(sampleInfo globalDataTdeOid).data, List.replicate 16 65⟩ _ rfl rfl (by decide +kernel)
    rfl).2.1 (fun _ => rfl) (fun info hi => ?_) (by decide +kernel)⟩
  obtain rfl : sampleInfo globalDataTdeOid = info := Option.some.inj hi
  exact ⟨sampleProvider, ⟨[65], List.replicate 16 65⟩, by decide, by decide, by decide +kernel⟩

end OpenPgTde
