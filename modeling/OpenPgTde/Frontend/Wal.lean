import OpenPgTde.Xlog.PerByte
import OpenPgTde.Xlog.Process

/-!
Encrypted WAL in the command line tools: the routines of `access/open_pg_tde_xlog_smgr.c` and
`access/open_pg_tde_xlog_keys.c` as they are compiled with `FRONTEND`.

A tool works on the key directory of a server that is not its own. It has one process, keeps the
location of the write key in a variable of its own, never falls back to the default key, and is never
in crash recovery. Reading WAL does not change the key directory. The tool that restores archived
segments pretends that the last range starts at the very end of the WAL, so that every write is one
to an older range.
-/

namespace OpenPgTde

open Lib.Effect Lib.Breakpoints

/-! ### The routines -/

/-- `open_pg_tde_fetch_wal_keys`. -/
def fetchWalKeysFe (w : World) (start : WalLocation) : X Unit := do
  match ← onServer (getPrincipalKeyNoDefault w globalDataTdeOid) with
  | none => pure ()
  | some pk => do
    match ← onServer (openWalKeyFileRead .walKeys false) with
    | none => pure ()
    | some [] => addWalRangeToCache noWalRange
    | some entries =>
      forM (entries.filter (isFetched start)) fun e => do
        let range ← onServer (walRangeFromEntry w pk e)
        addWalRangeToCache range

/-- The part of `TDEXLogCryptBuffer` that fetches ranges that start at the write key or later. -/
def fetchNewWalKeysFe (w : World) : X Unit := do
  let x ← get
  if x.encKey.lsn ≠ 0 then
    match x.process.cache.getLast? with
    | none => pure ()
    | some last => if walLocationCmp last.start x.encKey = .lt then fetchWalKeysFe w x.encKey

/-- `TDEXLogCryptBuffer`. -/
def xLogCryptBufferFe (w : World) (aes : BlockCipher) (sz : WalSegSz) (a : SegPos) (inPlace : Bool)
    (buf : List UInt8) : X (List UInt8) := do
  if (← get).process.cache = [] then fetchWalKeysFe w firstWalLocation
  fetchNewWalKeysFe w
  let x ← get
  pure (cryptKeys aes sz a inPlace x.process.cache buf)

/-- `tdeheap_xlog_seg_read`, on the bytes that `pg_pread` gave. -/
def tdeheapXlogSegReadFe (w : World) (aes : BlockCipher) (sz : WalSegSz) (a : SegPos)
    (buf : List UInt8) : X (List UInt8) :=
  xLogCryptBufferFe w aes sz a true buf

/-- `tdeheap_xlog_seg_write`: the bytes that are handed to `pg_pwrite`. -/
def tdeheapXlogSegWriteFe (w : World) (aes : BlockCipher) (sz : WalSegSz) (a : SegPos)
    (buf : List UInt8) : X (List UInt8) := do
  let lastKeyUsable ← ensureXlogKeyLocation (a.location sz) false
  let x ← get
  if lastKeyUsable = false ∧ x.process.current.type ≠ .invalid then
    xLogCryptBufferFe w aes sz a false buf
  else if x.process.current.type = .encrypted then
    let key := x.process.current.key
    pure (streamCrypt aes (calcXLogPageIVPrefix a.tli a.segno key.baseIv) a.offset buf key.key)
  else pure buf

/-- The range that `TDEXLogSmgrInitWriteOldKeys` puts at the end of the WAL. -/
def dummyWalRange : WalEncryptionRange :=
  { noWalRange with type := .unencrypted, start := maxWalLocation }

/-- `TDEXLogSmgrInitWriteOldKeys`. -/
def xLogSmgrInitWriteOldKeys (w : World) : X Unit := do
  modify fun x => { x with
    process := { x.process with current := dummyWalRange }, encKey := dummyWalRange.start }
  if (← get).process.cache = [] then fetchWalKeysFe w firstWalLocation

/-- A tool that has just opened a key directory (`open_pg_tde_fe_init`). -/
def openKeyDir (d : Server) : WalState :=
  ⟨{ d with cache := fun _ => none }, invalidWalLocation, .initial⟩

/-! ### What they do -/

variable {w : World} {aes : BlockCipher} {sz : WalSegSz} {a : SegPos} {s t : Server} {x : WalState}
  {buf : List UInt8}

/-- No system call fails, and the key provider of the server key answers. -/
def KeyAnswers (w : World) (s : Server) : Prop := s.SysOk ∧ Reachable w s globalDataTdeOid

theorem Loaded.keyAnswers (h : Loaded w s t) (ha : KeyAnswers w s) : KeyAnswers w t := by
  refine ⟨h.sysOk ha.1, fun info hi => ?_⟩
  rw [h.providers, h.kms]
  exact ha.2 info (by rw [← h.scopeInfo]; exact hi)

/-- What a fetch adds: the ranges from the location on, or a stub if there are no ranges at all. -/
theorem fetchWalKeysFe_spec (hs : WalFileOk w x.server) (start : WalLocation) :
    wp (fetchWalKeysFe w start)
      (fun _ y => ∃ t cache, Loaded w x.server t ∧
        y = { x with server := t, process := { x.process with cache := cache } } ∧
        (walEntries x.server = [] ∧
            (cache = x.process.cache ∨ cache = addWalRange noWalRange x.process.cache) ∨
          ∃ k, principalKeyOf w x.server globalDataTdeOid = some k ∧
            cache = (rangesFrom w k.keyData start (walEntries x.server)).foldl
              (fun cache r => addWalRange r cache) x.process.cache))
      (fun _ _ => ¬KeyAnswers w x.server) x := by
  rw [fetchWalKeysFe, wp_bind, wp_onServer]
  refine (getPrincipalKeyNoDefault_spec (hs.consistent.scopes _)).mono (fun r t ht => ?_)
    fun _ t ht ha => (ht.2 ha.1).2 ha.2
  obtain ⟨hl, hr, -⟩ := ht
  cases r with
  | none =>
      have hnil : walEntries x.server = [] := by
        by_contra hne
        obtain ⟨-, k, -, hk, -⟩ := hs.exists_key hne
        rw [hk] at hr
        cases hr
      exact ⟨t, x.process.cache, hl, rfl, .inl ⟨hnil, .inl rfl⟩⟩
  | some pk =>
      obtain ⟨info, entries, hf, -⟩ :=
        (hs.consistent.scopes globalDataTdeOid).exists_wal_current hr.symm
      have hent := walEntries_of_current hf
      have hft : t.walKeys .walKeys = some (.current info entries) := by rw [hl.walKeys, hf]
      dsimp only
      rw [wp_bind, wp_onServer]
      refine (openWalKeyFileRead_spec false).mono (fun es u hu => ?_) fun _ u hu ha => ?_
      · obtain ⟨hq, hes, -⟩ := hu
        obtain rfl : some entries = es := by
          rw [← hes, hft]
          rfl
        have hlu : Loaded w x.server u := hl.trans hq.loaded
        cases entries with
        | nil => exact ⟨u, _, hlu, rfl, .inl ⟨hent, .inr rfl⟩⟩
        | cons e entries =>
            refine (fetchLoop_spec pk _ ?_).mono (fun _ y hy => ?_) fun _ _ h => h
            · intro e' he'
              obtain ⟨hmem, hfetch⟩ := List.mem_filter.1 he'
              simp only [isFetched, Bool.and_eq_true, decide_eq_true_eq] at hfetch
              obtain ⟨key, hkey, -⟩ := (hs.stamped pk hr.symm e' (by rw [hent]; exact hmem)).unwrap
                hfetch.1.1
              exact ⟨_, Option.map_eq_some_iff.2 ⟨key, hkey, rfl⟩⟩
            · refine ⟨u, _, hlu, hy, .inr ⟨pk, hr.symm, ?_⟩⟩
              rw [hent]
              rfl
      · obtain hnone | ⟨f, hf', hnone⟩ := hu.2 (hl.sysOk ha.1)
        · rw [hft] at hnone
          cases hnone.1
        · rw [hft] at hf'
          cases hf'
          cases hnone

theorem Loaded.walEntries (h : Loaded w s t) : walEntries t = walEntries s := by
  rw [OpenPgTde.walEntries, OpenPgTde.walEntries, h.walKeys]

theorem Loaded.walRanges (h : Loaded w s t) : walRanges w t = walRanges w s := by
  rw [OpenPgTde.walRanges, OpenPgTde.walRanges, h.principalKeyOf, h.walEntries]

/-- The list has all the ranges, or there are none and it has nothing but stubs. -/
def FeCached (w : World) (s : Server) (cache : List WalEncryptionRange) : Prop :=
  cache = chain (walRanges w s) ∨ walEntries s = [] ∧ ∀ r ∈ cache, r.type = .invalid

/-- A tool between two calls: it has fetched nothing or everything, and its write key is nowhere or
at the end of the WAL. -/
structure FeOk (w : World) (x : WalState) : Prop where
  fileOk : WalFileOk w x.server
  increasing : Increasing (·.start) (walRanges w x.server)
  key : x.encKey = invalidWalLocation ∨ x.encKey = maxWalLocation
  cache : x.process.cache = [] ∨ FeCached w x.server x.process.cache

theorem Loaded.feCached {cache : List WalEncryptionRange} (h : Loaded w s t)
    (hc : FeCached w s cache) : FeCached w t cache := by
  rw [FeCached, h.walRanges, h.walEntries]
  exact hc

theorem FeOk.loaded {cache : List WalEncryptionRange} (h : FeOk w x) (hl : Loaded w x.server t)
    (hc : FeCached w x.server cache) :
    FeOk w { x with server := t, process := { x.process with cache := cache } } :=
  ⟨(hl.walKept h.fileOk).fileOk, by dsimp only; rw [hl.walRanges]; exact h.increasing, h.key,
    .inr (hl.feCached hc)⟩

theorem mem_addWalRange {r r' : WalEncryptionRange} {cache : List WalEncryptionRange}
    (hr : r' ∈ addWalRange r cache) : r'.type = r.type ∨ ∃ r'' ∈ cache, r'.type = r''.type := by
  induction cache using addWalRange.induct with
  | case1 => exact .inl (by rw [List.mem_singleton.1 hr])
  | case2 last =>
      obtain rfl | hr := List.mem_cons.1 hr
      · exact .inr ⟨last, by simp, rfl⟩
      · exact .inl (by rw [List.mem_singleton.1 hr])
  | case3 r₁ r₂ cache ih =>
      obtain rfl | hr := List.mem_cons.1 hr
      · exact .inr ⟨r', by simp, rfl⟩
      · obtain h | ⟨r'', hr'', h⟩ := ih hr
        · exact .inl h
        · exact .inr ⟨r'', List.mem_cons_of_mem _ hr'', h⟩

/-- Fetching everything. -/
theorem fetchAllFe_spec (hs : WalFileOk w x.server) (hc : x.process.cache = []) :
    wp (fetchWalKeysFe w firstWalLocation)
      (fun _ y => ∃ t cache, Loaded w x.server t ∧ FeCached w x.server cache ∧
        y = { x with server := t, process := { x.process with cache := cache } })
      (fun _ _ => ¬KeyAnswers w x.server) x := by
  refine (fetchWalKeysFe_spec hs firstWalLocation).mono (fun _ y hy => ?_) fun _ _ h => h
  obtain ⟨t, cache, hl, rfl, hcache⟩ := hy
  refine ⟨t, cache, hl, ?_, rfl⟩
  rw [hc] at hcache
  obtain ⟨hnil, rfl | rfl⟩ | ⟨k, hk, rfl⟩ := hcache
  · exact .inr ⟨hnil, by simp⟩
  · refine .inr ⟨hnil, fun r hr => ?_⟩
    rw [List.mem_singleton.1 hr]
    rfl
  · left
    rw [walRanges, hk]
    exact foldl_addWalRange_chain (fun r hr => stop_of_mem_rangesFrom hr) []

/-- A write key at the end of the WAL lets the tool fetch again and again, and find no range. -/
theorem fetchNewWalKeysFe_spec (h : FeOk w x) (hc : FeCached w x.server x.process.cache) :
    wp (fetchNewWalKeysFe w)
      (fun _ y => ∃ t cache, Loaded w x.server t ∧ FeCached w x.server cache ∧
        y = { x with server := t, process := { x.process with cache := cache } })
      (fun _ _ => ¬KeyAnswers w x.server) x := by
  have hsame : ∃ t cache, Loaded w x.server t ∧ FeCached w x.server cache ∧
      x = { x with server := t, process := { x.process with cache := cache } } :=
    ⟨x.server, x.process.cache, .refl _, hc, rfl⟩
  unfold fetchNewWalKeysFe
  simp only [wp_bind, wp_get, wp_ite, wp_pure]
  refine ⟨fun hlsn => ?_, fun _ => hsame⟩
  have hkey : x.encKey = maxWalLocation := by
    obtain hkey | hkey := h.key
    · rw [hkey] at hlsn
      exact absurd rfl hlsn
    · exact hkey
  cases hlast : x.process.cache.getLast? with
  | none => exact hsame
  | some last =>
      simp only [wp_ite, wp_pure, walLocationCmp_lt]
      refine ⟨fun hlt => ?_, fun _ => hsame⟩
      refine (fetchWalKeysFe_spec h.fileOk x.encKey).mono (fun _ y hy => ?_) fun _ _ hy => hy
      obtain ⟨t, cache, hl, rfl, hcache⟩ := hy
      refine ⟨t, cache, hl, ?_, rfl⟩
      obtain ⟨hnil, hcache⟩ | ⟨k, hk, rfl⟩ := hcache
      · have hstubs : ∀ r ∈ x.process.cache, r.type = .invalid := by
          obtain hc | ⟨-, hc⟩ := hc
          · rw [hc, walRanges_of_nil hnil]
            exact fun r hr => by cases hr
          · exact hc
        obtain rfl | rfl := hcache
        · exact .inr ⟨hnil, hstubs⟩
        · refine .inr ⟨hnil, fun r hr => ?_⟩
          obtain h | ⟨r', hr', h⟩ := mem_addWalRange hr
          · rw [h]
            rfl
          · rw [h]
            exact hstubs r' hr'
      · -- nothing starts at the end of the WAL or later
        have hnone : rangesFrom w k.keyData x.encKey (walEntries x.server) = [] := by
          have hall : rangesFrom w k.keyData firstWalLocation (walEntries x.server) =
              walRanges w x.server := by
            rw [walRanges, hk]
          rw [rangesFrom_eq_filter, hall, List.filter_eq_nil_iff]
          intro r hr
          rw [decide_eq_true_eq, not_not]
          obtain hc | ⟨hnil, -⟩ := hc
          · rw [hc] at hlast
            obtain ⟨r', hr', hstart⟩ := getLast?_chain_start hlast
            rw [hstart] at hlt
            exact (h.increasing.le_of_getLast hr hr').trans_lt hlt
          · rw [walRanges_of_nil hnil] at hr
            cases hr
        rw [hnone]
        exact hc

/-- A list without encrypted ranges changes nothing. -/
theorem cryptKeys_of_not_encrypted {keys : List WalEncryptionRange} (inPlace : Bool)
    (h : ∀ r ∈ keys, r.type ≠ .encrypted) : cryptKeys aes sz a inPlace keys buf = buf := by
  unfold cryptKeys
  suffices hgo : ∀ out : List UInt8, keys.foldl (fun out r =>
      cryptRange aes sz a (if inPlace then out else buf) r out) out = out from hgo buf
  induction keys with
  | nil => exact fun _ => rfl
  | cons r keys ih =>
      intro out
      have hr := h r List.mem_cons_self
      have hskip : cryptRange aes sz a (if inPlace then out else buf) r out = out := by
        simp [cryptRange, hr]
      rw [List.foldl_cons, hskip]
      exact ih (fun r' hr' => h r' (List.mem_cons_of_mem r hr')) out

theorem FeCached.cryptKeys_eq {cache : List WalEncryptionRange} (h : FeCached w s cache)
    (inPlace : Bool) :
    cryptKeys aes sz a inPlace cache buf =
      cryptKeys aes sz a inPlace (chain (walRanges w s)) buf := by
  obtain rfl | ⟨hnil, hinvalid⟩ := h
  · rfl
  · rw [walRanges_of_nil hnil, cryptKeys_of_not_encrypted inPlace fun r hr => ?_]
    · rfl
    · rw [hinvalid r hr]
      exact fun h => by cases h

/-- What a call leaves: the key directory is as it was, and the tool is ready for the next call. -/
def FeStep (w : World) (x y : WalState) : Prop :=
  Loaded w x.server y.server ∧ FeOk w y ∧ y.encKey = x.encKey ∧
    y.process.current = x.process.current

/-- A buffer is treated with the ranges of the key directory. -/
theorem xLogCryptBufferFe_spec (aes : BlockCipher) (sz : WalSegSz) (a : SegPos) (buf : List UInt8)
    (h : FeOk w x) (inPlace : Bool) :
    wp (xLogCryptBufferFe w aes sz a inPlace buf)
      (fun out y => FeStep w x y ∧
        out = cryptKeys aes sz a inPlace (chain (walRanges w x.server)) buf)
      (fun _ _ => ¬KeyAnswers w x.server) x := by
  have hrest : ∀ {t cache}, Loaded w x.server t → FeCached w x.server cache →
      wp (do
        fetchNewWalKeysFe w
        let x ← get
        pure (cryptKeys aes sz a inPlace x.process.cache buf))
      (fun out y => FeStep w x y ∧
        out = cryptKeys aes sz a inPlace (chain (walRanges w x.server)) buf)
      (fun _ _ => ¬KeyAnswers w x.server)
      { x with server := t, process := { x.process with cache := cache } } := by
    intro t cache hl hc
    have hok := h.loaded hl hc
    refine (wp_bind ..).2 ((fetchNewWalKeysFe_spec hok (hl.feCached hc)).mono (fun _ y hy => ?_)
      fun _ _ hy ha => hy (hl.keyAnswers ha))
    obtain ⟨u, cache', hlu, hc', rfl⟩ := hy
    simp only [wp_bind, wp_get, wp_pure]
    refine ⟨⟨hl.trans hlu, hok.loaded hlu hc', rfl, rfl⟩, ?_⟩
    rw [hc'.cryptKeys_eq, hl.walRanges]
  unfold xLogCryptBufferFe
  rw [wp_bind, wp_get, wp_ite]
  refine ⟨fun hc => ?_, fun hc => ?_⟩
  · refine (wp_bind ..).2 ((fetchAllFe_spec h.fileOk hc).mono (fun _ y hy => ?_) fun _ _ hy => hy)
    obtain ⟨t, cache, hl, hcache, rfl⟩ := hy
    exact hrest hl hcache
  · obtain hc' | hc' := h.cache
    · exact absurd hc' hc
    · exact hrest (.refl _) hc'

/-! ### Writing with the old keys -/

/-- A tool that restores: its write key is at the end of the WAL. -/
structure Restoring (w : World) (x : WalState) : Prop extends FeOk w x where
  atEnd : x.encKey = maxWalLocation
  current : x.process.current.type = .unencrypted

theorem Restoring.step {y : WalState} (h : Restoring w x) (hs : FeStep w x y) : Restoring w y := by
  obtain ⟨-, hok, hkey, hcur⟩ := hs
  exact ⟨hok, by rw [hkey, h.atEnd], by rw [hcur, h.current]⟩

/-- A write before the end of the WAL is one to the older ranges. -/
theorem tdeheapXlogSegWriteFe_spec (h : Restoring w x) (hloc : a.location sz < maxWalLocation) :
    wp (tdeheapXlogSegWriteFe w aes sz a buf)
      (fun out y => FeStep w x y ∧
        out = cryptKeys aes sz a false (chain (walRanges w x.server)) buf)
      (fun _ _ => ¬KeyAnswers w x.server) x := by
  have hlsn : x.encKey.lsn ≠ 0 := by
    rw [h.atEnd]
    decide
  have hafter : ¬walLocationCmp x.encKey (a.location sz) ≠ .gt := by
    rw [not_not, walLocationCmp_gt, h.atEnd]
    exact hloc
  unfold tdeheapXlogSegWriteFe ensureXlogKeyLocation
  simp only [wp_bind, wp_get, wp_ite, wp_pure]
  refine ⟨fun hc => absurd hlsn hc.2.1, fun _ => ⟨fun _ => ?_, fun hc => absurd ⟨?_, ?_⟩ hc⟩⟩
  · exact xLogCryptBufferFe_spec _ _ _ _ h.toFeOk false
  · simp [hafter]
  · rw [h.current]
    exact fun h => by cases h

theorem xLogSmgrInitWriteOldKeys_spec (h : FeOk w x) (hc : x.process.cache = []) :
    wp (xLogSmgrInitWriteOldKeys w)
      (fun _ y => Loaded w x.server y.server ∧ Restoring w y)
      (fun _ _ => ¬KeyAnswers w x.server) x := by
  unfold xLogSmgrInitWriteOldKeys
  simp only [wp_bind, wp_modify, wp_get, wp_ite]
  refine ⟨fun _ => ?_, fun hne => absurd hc hne⟩
  refine (fetchAllFe_spec (x := { x with
    process := { x.process with current := dummyWalRange }, encKey := dummyWalRange.start })
    h.fileOk hc).mono (fun _ y hy => ?_) fun _ _ hy => hy
  obtain ⟨t, cache, hl, hcache, rfl⟩ := hy
  refine ⟨hl, ⟨?_, rfl, rfl⟩⟩
  exact ⟨(hl.walKept h.fileOk).fileOk, by dsimp only; rw [hl.walRanges]; exact h.increasing,
    .inr rfl, .inr (hl.feCached hcache)⟩

/-! ### Key directories -/

/-- A key directory as a server leaves it, that a tool can read. -/
structure KeyDir (w : World) (d : Server) : Prop where
  fileOk : WalFileOk w d
  increasing : Increasing (·.start) (walRanges w d)
  answers : KeyAnswers w d

theorem KeyDir.feOk {d : Server} (h : KeyDir w d) : FeOk w (openKeyDir d) := by
  have hcons : Consistent w (openKeyDir d).server :=
    ⟨fun scope => (h.fileOk.consistent.scopes scope).uncached (fun _ => rfl) (fun _ => rfl)
      (fun _ => rfl) rfl, h.fileOk.consistent.providers, h.fileOk.consistent.databases⟩
  exact ⟨⟨hcons, h.fileOk.stamped, h.fileOk.starts, h.fileOk.last⟩, h.increasing, .inl rfl, .inl rfl⟩

end OpenPgTde
