import OpenPgTde.WalKeys.Migration

/-!
The start of the server (`open_pg_tde.c`).

The directory of the key files has a file that says which versions the key files have. If these are the
current ones a start does not look at the key files at all; else it migrates all of them and then writes the
file anew. So the file must never be ahead of the key files, wherever a start is interrupted. A start that
cannot write the file goes on without it. If there are fewer bytes in it than there should be, no later start
gets through until the file is removed.
-/

namespace OpenPgTde

open Lib.Effect

/-! ### State -/

/-- `keys_version_info`, or a file that is too short for it. -/
inductive KeysVersionInfo
  | short
  | versions (smgrVersion walVersion : UInt32)
  deriving DecidableEq

def openPgTdeSmgrFileMagic : UInt32 := 0x06454454

def openPgTdeWalKeyFileMagic : UInt32 := 0x034B4557

def KeysVersionInfo.current : KeysVersionInfo := .versions openPgTdeSmgrFileMagic openPgTdeWalKeyFileMagic

/-- The server, whether there is a directory for its key files, and the file `keys_version`. -/
structure TdeDataDir where
  server : Server
  present : Bool
  keysVersion : Option KeysVersionInfo

def TdeDataDir.putServer (s : Server) (d : TdeDataDir) : TdeDataDir := { d with server := s }

/-- Nothing but the file of the WAL keys changed, and the cache got keys that headers name. -/
structure WalKeysOnly (w : World) (s t : Server) : Prop where
  keyFiles : t.keyFiles = s.keyFiles
  providers : t.providers = s.providers
  kms : t.kms = s.kms
  cached : ∀ scope k, t.cache scope = some k → s.cache scope = some k ∨ principalKeyOf w s scope = some k
  sysOk : s.SysOk → t.SysOk

section WalKeys

variable {w : World} {s t u : Server} {α : Type}

/-- After the key is loaded only the file of the WAL keys and its copy are written. -/
theorem WalKeysOnly.put (h : WalKeysOnly w s t) {path : WalKeyPath} {f : Option WalKeyFile}
    (hq : Quiet (t.putWalKeys path f) u) : WalKeysOnly w s u := by
  have hok := hq.sysOk
  obtain ⟨_, _, _, _, rfl⟩ := hq
  exact ⟨h.keyFiles, h.providers, h.kms, h.cached, fun hs => hok (h.sysOk hs)⟩

theorem WalKeysOnly.quiet (h : WalKeysOnly w s t) (hq : Quiet t u) : WalKeysOnly w s u := by
  have hok := hq.sysOk
  obtain ⟨_, _, _, _, rfl⟩ := hq
  exact ⟨h.keyFiles, h.providers, h.kms, h.cached, fun hs => hok (h.sysOk hs)⟩

/-- The file is there in the current format, or there is none. -/
def WalKeysCurrent (s : Server) : Prop :=
  ∀ f, s.walKeys .walKeys = some f → ∃ info entries, f = .current info entries

/-- The file was not touched, or it was migrated. -/
def WalKeysKept (w : World) (s t : Server) : Prop :=
  t.walKeys .walKeys = s.walKeys .walKeys ∨ ∃ f info k ranges, s.walKeys .walKeys = some f ∧
    f.info = some info ∧ namedKey w s.providers globalDataTdeOid info = some k ∧
    f.oldRanges w k.keyData = some ranges ∧ MigratedTo w info k ranges (t.walKeys .walKeys)

/-- The header of the server key names what it named before. -/
theorem WalKeysKept.principalKeyOf (h : WalKeysKept w s t) (hkeys : t.keyFiles = s.keyFiles)
    (hproviders : t.providers = s.providers) (scope : Oid) :
    principalKeyOf w t scope = principalKeyOf w s scope := by
  obtain hsame | ⟨f, info, k, ranges, hf, hi, hk, -, info', new, hnew, hdata, hver, -⟩ := h
  · exact principalKeyOf_congr (fun _ => by rw [hproviders]) (fun _ => by rw [hkeys]) fun _ => hsame
  · by_cases hscope : scope = globalDataTdeOid
    · subst hscope
      have hs : scopeInfo s globalDataTdeOid = some info := by rw [scopeInfo_server, hf, Option.bind_some, hi]
      have ht : scopeInfo t globalDataTdeOid = some info' := by
        rw [scopeInfo_server, hnew, Option.bind_some, WalKeyFile.info]
      rw [OpenPgTde.principalKeyOf, OpenPgTde.principalKeyOf, hs, ht, Option.bind_some, Option.bind_some,
        hproviders, hk]
      exact namedKey_resigned hk hdata hver
    · exact principalKeyOf_congr (fun _ => by rw [hproviders]) (fun _ => by rw [hkeys])
        fun h => absurd h hscope

end WalKeys

/-! ### What starts keep -/

/-- Every key file is as it was or it is the migrated file, and so is the file of the WAL keys. -/
structure KeyFilesKept (w : World) (s t : Server) : Prop where
  providers : t.providers = s.providers
  files : ∀ db, t.keyFiles (.keys db) = s.keyFiles (.keys db) ∨ ∃ f f',
    s.keyFiles (.keys db) = some f ∧ t.keyFiles (.keys db) = some f' ∧ Migrated w s.providers db f f'
  wal : WalKeysKept w s t

/-- No file has a format of an older version. -/
def AllCurrent (s : Server) : Prop :=
  (∀ db f, s.keyFiles (.keys db) = some f → f.entries ≠ none) ∧ WalKeysCurrent s

/-- What a start relies on: each header names the database of its file, `dir` lists all files, there are none
without a directory, and the file of the versions is not ahead of them. -/
structure TdeDataDir.Ok (dir : List Oid) (d : TdeDataDir) : Prop where
  headers : HeadersOk d.server
  owner : ∀ info, scopeInfo d.server globalDataTdeOid = some info → info.data.databaseId = globalDataTdeOid
  listed : ∀ db f, d.server.keyFiles (.keys db) = some f → db ∈ dir
  absent : d.present = false → d.keysVersion = none ∧ (∀ db, d.server.keyFiles (.keys db) = none) ∧
    d.server.walKeys .walKeys = none
  upToDate : d.keysVersion = some .current → AllCurrent d.server

section Kept

variable {w : World} {s t u : Server} {db : Oid} {dir : List Oid} {d d' : TdeDataDir}

theorem KeyFilesKept.of_same (hproviders : t.providers = s.providers)
    (hkeys : ∀ db, t.keyFiles (.keys db) = s.keyFiles (.keys db))
    (hwal : t.walKeys .walKeys = s.walKeys .walKeys) : KeyFilesKept w s t :=
  ⟨hproviders, fun db => .inl (hkeys db), .inl hwal⟩

theorem Quiet.keyFilesKept (hq : Quiet s t) : KeyFilesKept w s t :=
  .of_same (hq.loaded (w := w)).providers (fun _ => by rw [hq.keyFiles]) (by rw [hq.walKeys])

theorem WalKeysKept.trans (hproviders : t.providers = s.providers) (h : WalKeysKept w s t)
    (h' : WalKeysKept w t u) : WalKeysKept w s u := by
  obtain hsame' | ⟨f', info', k', ranges', hf', hi', hk', hr', hto'⟩ := h'
  · unfold WalKeysKept
    rw [hsame']
    exact h
  · obtain hsame | ⟨f, info, k, ranges, hf, hi, hk, hr, info₁, new, hnew, -⟩ := h
    · rw [hsame] at hf'
      rw [hproviders] at hk'
      exact .inr ⟨f', info', k', ranges', hf', hi', hk', hr', hto'⟩
    · -- the file is migrated only once
      obtain rfl := Option.some.inj (hnew.symm.trans hf')
      cases hr'

theorem KeyFilesKept.trans (h : KeyFilesKept w s t) (h' : KeyFilesKept w t u) : KeyFilesKept w s u := by
  refine ⟨h'.providers.trans h.providers, fun db => ?_, h.wal.trans h.providers h'.wal⟩
  obtain heq' | ⟨f', f'', hf', hf'', hm'⟩ := h'.files db
  · rw [heq']
    exact h.files db
  · obtain heq | ⟨f, f₁, hf, hf₁, hm⟩ := h.files db
    · rw [h.providers] at hm'
      exact .inr ⟨f', f'', by rw [← heq, hf'], hf'', hm'⟩
    · rw [hf'] at hf₁
      cases hf₁
      exact absurd hm'.entries.1 hm.entries.2

theorem KeyFilesKept.headersOk (h : KeyFilesKept w s t) (hs : HeadersOk s) : HeadersOk t := by
  have hm : Migrating w s { t with walKeys := s.walKeys } := ⟨h.providers, rfl, h.files⟩
  have hok := hm.headersOk hs
  exact ⟨hok.owner, hok.server⟩

theorem KeyFilesKept.owner (h : KeyFilesKept w s t)
    (hs : ∀ info, scopeInfo s globalDataTdeOid = some info → info.data.databaseId = globalDataTdeOid)
    {info : TDESignedPrincipalKeyInfo} (hi : scopeInfo t globalDataTdeOid = some info) :
    info.data.databaseId = globalDataTdeOid := by
  rw [scopeInfo_server] at hi
  obtain hsame | ⟨f, info₀, k, ranges, hf, hi₀, -, -, info', new, hnew, hdata, -⟩ := h.wal
  · rw [hsame, ← scopeInfo_server] at hi
    exact hs info hi
  · rw [hnew] at hi
    obtain rfl := Option.some.inj hi
    rw [hdata]
    exact hs info₀ (by rw [scopeInfo_server, hf, Option.bind_some, hi₀])

theorem WalKeysKept.current (h : WalKeysKept w s t) (hs : WalKeysCurrent s) : WalKeysCurrent t := by
  intro f' hf'
  obtain hsame | ⟨f, info, k, ranges, -, -, -, -, info', new, hnew, -⟩ := h
  · exact hs f' (hsame ▸ hf')
  · obtain rfl := Option.some.inj (hnew.symm.trans hf')
    exact ⟨info', new, rfl⟩

theorem KeyFilesKept.allCurrent (h : KeyFilesKept w s t) (hs : AllCurrent s) : AllCurrent t := by
  refine ⟨fun db f' hf' => ?_, h.wal.current hs.2⟩
  obtain heq | ⟨f, f₁, hf, hf₁, hm⟩ := h.files db
  · exact hs.1 db f' (heq ▸ hf')
  · obtain rfl := Option.some.inj (hf₁.symm.trans hf')
    exact hm.entries.2

/-- What could be migrated still can be, or it is migrated. -/
theorem KeyFilesKept.ready (h : KeyFilesKept w s t) (hkms : t.kms = s.kms) (hs : HeadersOk s)
    (hready : Ready w s db) : Ready w t db := by
  obtain hsame | ⟨f, f', hf, hf', hm⟩ := h.files db
  · obtain ⟨f, hf, hne⟩ | ⟨hreach, f, info, k, entries, hf, hi, hk, hd, hread⟩ := hready
    · exact .inl ⟨f, hsame.trans hf, hne⟩
    · have hdb : db ≠ globalDataTdeOid := by
        rintro rfl
        rw [hs.server] at hf
        cases hf
      have hscope : scopeInfo t db = scopeInfo s db := scopeInfo_congr (fun _ => hsame) fun h => absurd h hdb
      rw [← h.providers] at hk
      refine .inr ⟨fun info' hi' => ?_, f, info, k, entries, hsame.trans hf, hi, hk, hd, hread⟩
      rw [h.providers, hkms]
      exact hreach info' (hscope ▸ hi')
  · exact .inl ⟨f', hf', hm.entries.2⟩

/-- Whatever happens to the file of the versions, as long as it does not say more than is true. -/
theorem TdeDataDir.Ok.kept (hok : d.Ok dir) (h : KeyFilesKept w d.server d'.server)
    (hpresent : d'.present = false → d.present = false ∧ d'.keysVersion = none)
    (hversion : d'.keysVersion = some .current → AllCurrent d'.server) : d'.Ok dir := by
  refine ⟨h.headersOk hok.headers, fun info hi => h.owner hok.owner hi, fun db f hf => ?_, fun habsent => ?_,
    hversion⟩
  · obtain heq | ⟨f₀, f', hf₀, -⟩ := h.files db
    · exact hok.listed db f (heq ▸ hf)
    · exact hok.listed db f₀ hf₀
  · obtain ⟨hnot, hnone⟩ := hpresent habsent
    obtain ⟨-, hkeys, hwal⟩ := hok.absent hnot
    refine ⟨hnone, fun db => ?_, ?_⟩
    · obtain heq | ⟨f, f', hf, -⟩ := h.files db
      · rw [heq, hkeys db]
      · rw [hkeys db] at hf
        cases hf
    · obtain hsame | ⟨f, info, k, ranges, hf, -⟩ := h.wal
      · rw [hsame, hwal]
      · rw [hwal] at hf
        cases hf

end Kept

/-! ### One start -/

section Start

variable {w : World} {dir : List Oid} {d : TdeDataDir} {info : KeysVersionInfo} {α : Type}

/-- As long as only the key files have changed, and rightly so, all is well. -/
theorem TdeDataDir.Ok.putServer {t : Server} (hok : d.Ok dir) (h : KeyFilesKept w d.server t) :
    (d.putServer t).Ok dir := by
  refine @TdeDataDir.Ok.kept w dir d (d.putServer t) hok h (fun habsent => ⟨habsent, (hok.absent habsent).1⟩)
    fun hcurrent => ?_
  exact h.allCurrent (hok.upToDate hcurrent)

end Start

/-! ### Starts, one after the other -/

def TdeDataDir.restart (d : TdeDataDir) (r : Restart) : TdeDataDir := d.putServer (r.start d.server)

section Runs

variable {w : World} {dir : List Oid} {d : TdeDataDir}

theorem Restart.keyFilesKept (r : Restart) (d : TdeDataDir) : KeyFilesKept w d.server (d.restart r).server :=
  .of_same rfl (fun _ => rfl) rfl

theorem TdeDataDir.Ok.restart (w : World) (hok : d.Ok dir) (r : Restart) : (d.restart r).Ok dir :=
  hok.putServer (r.keyFilesKept (w := w) d)

end Runs

end OpenPgTde
