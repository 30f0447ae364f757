import OpenPgTde.WalKeys.Rotation
import OpenPgTde.Xlog.Smgr

/-!
What the routines of encrypted WAL do, in terms of the ranges that the key file stands for.

Two things can be said about the file at any time: which ranges have a start, in file order, and
what the last range is, with or without a start. Looking up the server key and reading the file
change neither. A process that reads the file adds ranges to its list, and a list that is read in
full is the list of ranges with a start, each ending where the next one starts.
-/

namespace OpenPgTde

open Lib.Effect Lib.Breakpoints

variable {w : World} {s t u : Server} {x : WalState}

/-! ### The ranges of the key file -/

/-- A location at which a range can start, within what 32 and 64 bits can number. -/
def ProperStart (loc : WalLocation) : Prop := walLocationValid loc = true ∧ loc ≤ maxWalLocation

/-- A key file whose entries are as they were sealed, up to their starts and marks. The starts are
within what 32 and 64 bits can number, and the last entry is not marked. -/
structure WalFileOk (w : World) (s : Server) : Prop where
  consistent : Consistent w s
  stamped : ∀ k, principalKeyOf w s globalDataTdeOid = some k →
    ∀ e ∈ walEntries s, Stamped w k.keyData e
  starts : ∀ e ∈ walEntries s, e.rangeStart ≤ maxWalLocation
  last : ∀ e ∈ (walEntries s).getLast?, e.rangeType ≠ .invalid

/-- The ranges that have a start, as far as they start at or after `start`. -/
def rangesFrom (w : World) (keyData : List UInt8) (start : WalLocation)
    (entries : List WalKeyFileEntry) : List WalEncryptionRange :=
  (entries.filter (isFetched start)).filterMap (walRangeOfEntry w keyData)

/-- The ranges that have a start. -/
def walRanges (w : World) (s : Server) : List WalEncryptionRange :=
  match principalKeyOf w s globalDataTdeOid with
  | some k => rangesFrom w k.keyData firstWalLocation (walEntries s)
  | none => []

/-- The starts of the entries, also those that are none. -/
def walStarts (s : Server) : List WalLocation := (walEntries s).map (·.rangeStart)

/-- The last range, with or without a start. -/
def lastRange (w : World) (s : Server) : Option WalEncryptionRange :=
  match principalKeyOf w s globalDataTdeOid with
  | some k => (walEntries s).getLast?.bind (walRangeOfEntry w k.keyData)
  | none => none

/-- A file with entries has a header, and the header names the server key. -/
theorem WalFileOk.exists_key (h : WalFileOk w s) (hne : walEntries s ≠ []) :
    ∃ info k, s.walKeys .walKeys = some (.current info (walEntries s)) ∧
      principalKeyOf w s globalDataTdeOid = some k ∧
      HeaderFor w s.providers globalDataTdeOid info k := by
  have hg := h.consistent.scopes globalDataTdeOid
  cases hi : scopeInfo s globalDataTdeOid with
  | none =>
      obtain hf | hf := walFile_of_scopeInfo_none hi
      · exact absurd (by simp [walEntries, hf]) hne
      · exact absurd (by simp [walEntries, hf, WalKeyFile.entries]) hne
  | some info =>
      obtain ⟨k, hk⟩ := hg.header info hi
      have hpk := principalKeyOf_of_headerFor hi hk
      obtain ⟨info', entries, hf, hk'⟩ := hg.exists_wal_current hpk
      exact ⟨info', k, by rw [walEntries_of_current hf, hf], hpk, hk'⟩

/-- From `s` to `t` the file kept its entries and the server its key. -/
structure WalKept (w : World) (s t : Server) : Prop where
  fileOk : WalFileOk w t
  entries : walEntries t = walEntries s
  key : ∀ k, principalKeyOf w s globalDataTdeOid = some k →
    principalKeyOf w t globalDataTdeOid = some k

theorem WalKept.refl (h : WalFileOk w s) : WalKept w s s := ⟨h, rfl, fun _ hk => hk⟩

theorem WalKept.trans (h : WalKept w s t) (h' : WalKept w t u) : WalKept w s u :=
  ⟨h'.fileOk, h'.entries.trans h.entries, fun k hk => h'.key k (h.key k hk)⟩

theorem walRanges_of_nil (h : walEntries s = []) : walRanges w s = [] := by
  unfold walRanges
  split
  · rw [h]
    rfl
  · rfl

theorem lastRange_of_nil (h : walEntries s = []) : lastRange w s = none := by
  unfold lastRange
  split
  · rw [h]
    rfl
  · rfl

theorem WalKept.ranges (h : WalKept w s t) (hs : WalFileOk w s) :
    walRanges w t = walRanges w s ∧ lastRange w t = lastRange w s := by
  by_cases hne : walEntries s = []
  · have hne' : walEntries t = [] := by rw [h.entries, hne]
    simp only [walRanges_of_nil, lastRange_of_nil, hne, hne', and_self]
  · obtain ⟨info, k, -, hk, -⟩ := hs.exists_key hne
    simp only [walRanges, lastRange, hk, h.key k hk, h.entries, and_self]

/-! ### Looking up the server key -/

theorem KeyStep.walEntries_nil (h : KeyStep w s t) (hs : walEntries s = []) :
    walEntries t = [] := by
  have hlogged : ∀ {s t : Server}, LoggedStep w s t → walEntries s = [] → walEntries t = [] := by
    intro s t h hs
    cases h with
    | quiet h => rwa [walEntries, h.walKeys]
    | load | brokenAdd | brokenDelete | tmp | brokenSave | save | rotate | delete => exact hs
    | tmpWal f => simpa [walEntries] using hs
    | brokenSaveServer => simp [walEntries, WalKeyFile.entries]
    | saveServer => simp [walEntries, WalKeyFile.entries]
    | @rotateServer info info' entries new k k' hf hk hr hh ht =>
        have hnil : entries = [] := by rw [← walEntries_of_current hf, hs]
        subst hnil
        have hnew : new = [] := by simpa [walTable] using ht
        simp [walEntries, WalKeyFile.entries, hnew]
  cases h with
  | logged h => exact hlogged h hs
  | @header scope info k hi hh =>
      unfold Server.putHeader
      split
      · simp [walEntries, WalKeyFile.entries]
      · exact hs
  | unlogged h => simpa [walEntries] using hlogged h hs
  | deleteServer => simp [walEntries]

theorem KeySteps.walEntries_nil (h : KeySteps w s t) (hs : walEntries s = []) :
    walEntries t = [] := by
  induction h with
  | refl => exact hs
  | tail _ h ih => exact h.walEntries_nil ih

/-- Steps of the key management keep an empty file empty. -/
theorem KeySteps.walKept (h : KeySteps w s t) (hs : WalFileOk w s) (hnil : walEntries s = [])
    (hkey : ∀ k, principalKeyOf w s globalDataTdeOid = some k →
      principalKeyOf w t globalDataTdeOid = some k) : WalKept w s t := by
  have ht := h.walEntries_nil hnil
  refine ⟨⟨h.consistent hs.consistent, ?_, ?_, ?_⟩, by rw [ht, hnil], hkey⟩ <;> simp [ht]

theorem Loaded.walKept (h : Loaded w s t) (hs : WalFileOk w s) : WalKept w s t := by
  have hent : walEntries t = walEntries s := by rw [walEntries, walEntries, h.walKeys]
  refine ⟨⟨h.consistent hs.consistent, fun k hk => ?_, ?_, ?_⟩, hent, fun k hk => ?_⟩
  · rw [h.principalKeyOf] at hk
    rw [hent]
    exact hs.stamped k hk
  · rw [hent]
    exact hs.starts
  · rw [hent]
    exact hs.last
  · rwa [h.principalKeyOf]

theorem getPrincipalKey_wal_spec (hs : WalFileOk w s) :
    wp (getPrincipalKey w globalDataTdeOid)
      (fun r t => WalKept w s t ∧ r = principalKeyOf w t globalDataTdeOid ∧
        t.cache globalDataTdeOid = r)
      (fun _ t => WalKept w s t) s := by
  have hkept : ∀ {t}, KeySteps w s t → (scopeInfo s globalDataTdeOid ≠ none → Loaded w s t) →
      WalKept w s t := by
    intro t hst hl
    by_cases hi : scopeInfo s globalDataTdeOid = none
    · have hnil : walEntries s = [] := by
        obtain hf | hf := walFile_of_scopeInfo_none hi <;> simp [walEntries, hf, WalKeyFile.entries]
      have hnone := (hs.consistent.scopes _).principalKeyOf_none.2 hi
      exact hst.walKept hs hnil fun k hk => by rw [hnone] at hk; cases hk
    · exact (hl hi).walKept hs
  exact (getPrincipalKey_spec hs.consistent).mono
    (fun r t ht => ⟨hkept ht.1.steps ht.2.2.2, ht.2.1, ht.2.2.1⟩)
    fun _ t ht => hkept ht.1.steps fun hi => (ht.2 hi).1

/-! ### Reading the file -/

theorem Quiet.walKept (h : Quiet s t) (hs : WalFileOk w s) : WalKept w s t :=
  h.loaded.walKept hs

theorem openWalKeyFileRead_walKept {info : TDESignedPrincipalKeyInfo}
    {entries : List WalKeyFileEntry} (hs : WalFileOk w s)
    (hf : s.walKeys .walKeys = some (.current info entries)) :
    wp (openWalKeyFileRead .walKeys false) (fun r t => WalKept w s t ∧ r = some entries)
      (fun _ t => WalKept w s t) s := by
  refine (openWalKeyFileRead_spec false).mono (fun r t ht => ⟨ht.1.walKept hs, ?_⟩)
    fun _ t ht => ht.1.walKept hs
  rw [← ht.2.1, hf]
  rfl

theorem readLastWalRange_spec (hs : WalFileOk w s) :
    wp (readLastWalRange w) (fun r t => WalKept w s t ∧ r = lastRange w s)
      (fun _ t => WalKept w s t) s := by
  refine (wp_bind ..).2 ((getPrincipalKey_wal_spec hs).mono (fun r t ht => ?_) fun _ _ h => h)
  obtain ⟨hkept, hr, -⟩ := ht
  have hlast := (hkept.ranges hs).2
  cases r with
  | none =>
      refine ⟨hkept, ?_⟩
      rw [← hlast, lastRange, ← hr]
  | some pk =>
      obtain ⟨info, entries, hf, -⟩ :=
        (hkept.fileOk.consistent.scopes globalDataTdeOid).exists_wal_current hr.symm
      refine (wp_bind ..).2 ((openWalKeyFileRead_walKept hkept.fileOk hf).mono (fun es u hu => ?_)
        fun _ u hu => hkept.trans hu)
      obtain ⟨hku, rfl⟩ := hu
      have hsu := hkept.trans hku
      rw [← hlast, lastRange, ← hr, walEntries_of_current hf]
      dsimp only [Option.getD_some]
      cases hl : entries.getLast? with
      | none => exact ⟨hsu, rfl⟩
      | some e =>
          refine (wp_bind ..).2 ((walRangeFromEntry_spec pk e).mono (fun range v hv => ?_)
            fun _ v hv => by rw [hv.1]; exact hsu)
          obtain ⟨rfl, hrange⟩ := hv
          exact ⟨hsu, by rw [Option.bind_some, hrange]⟩

/-! ### Changing the file -/

theorem rangesFrom_concat (keyData : List UInt8) (start : WalLocation)
    (entries : List WalKeyFileEntry) (e : WalKeyFileEntry) :
    rangesFrom w keyData start (entries ++ [e]) = rangesFrom w keyData start entries ++
      if isFetched start e then (walRangeOfEntry w keyData e).toList else [] := by
  unfold rangesFrom
  rw [List.filter_append, List.filterMap_append]
  congr 1
  by_cases h : isFetched start e = true
  · cases hr : walRangeOfEntry w keyData e <;> simp [h, hr]
  · simp [h]

/-- New entries under the same header. -/
theorem WalFileOk.putEntries {info : TDESignedPrincipalKeyInfo} {k : TDEPrincipalKey}
    {entries : List WalKeyFileEntry} (hs : WalFileOk w s)
    (hh : HeaderFor w s.providers globalDataTdeOid info k)
    (hk : principalKeyOf w s globalDataTdeOid = some k)
    (hst : ∀ e ∈ entries, Stamped w k.keyData e)
    (hstart : ∀ e ∈ entries, e.rangeStart ≤ maxWalLocation)
    (hlast : ∀ e ∈ entries.getLast?, e.rangeType ≠ .invalid)
    (hq : Quiet (s.putWalKeys .walKeys (some (.current info entries))) t) :
    WalFileOk w t ∧ walEntries t = entries ∧ principalKeyOf w t globalDataTdeOid = some k := by
  have hf : t.walKeys .walKeys = some (.current info entries) := by
    rw [hq.walKeys]
    simp
  have hprov : t.providers = s.providers := hq.providers
  have hent := walEntries_of_current hf
  have hpk : principalKeyOf w t globalDataTdeOid = some k :=
    principalKeyOf_of_headerFor (scopeInfo_wal_current hf) (by rwa [hprov])
  refine ⟨⟨⟨fun scope => ?_, ?_, ?_⟩, fun k' hk' => ?_, ?_, ?_⟩, hent, hpk⟩
  · have hcache : t.cache scope = s.cache scope := by
      obtain ⟨_, _, _, _, rfl⟩ := hq
      rfl
    by_cases hsc : scope = globalDataTdeOid
    · subst hsc
      refine ScopeOk.of_wal_current hf (by rwa [hprov]) ?_
      rw [hcache]
      cases hc : s.cache globalDataTdeOid with
      | none => exact .inl rfl
      | some k' =>
          right
          rw [← hk, (hs.consistent.scopes _).cached k' hc]
    · refine (hs.consistent.scopes scope).frame (fun _ => by rw [hprov]) (fun _ => ?_)
        (fun h => absurd h hsc) hcache
      rw [hq.keyFiles]
      rfl
  · rw [hprov]
    exact hs.consistent.providers
  · obtain ⟨_, _, _, _, rfl⟩ := hq
    exact hs.consistent.databases
  · rw [hpk] at hk'
    cases hk'
    rwa [hent]
  · rwa [hent]
  · rwa [hent]

theorem invalid_le_max : invalidWalLocation ≤ maxWalLocation := by
  rw [WalLocation.le_iff]
  decide

theorem isFetched_invalid {e : WalKeyFileEntry} {start : WalLocation}
    (h : e.rangeStart = invalidWalLocation) : isFetched start e = false := by
  simp [isFetched, h, walLocationValid, invalidWalLocation]

/-- A new range is the last one and has no start. -/
theorem createWalRange_wal_spec {type : WalEncryptionRangeType} (hs : WalFileOk w s)
    (htype : type ≠ .invalid) (keyLen : ℕ) :
    wp (createWalRange w type keyLen)
      (fun range t => WalFileOk w t ∧ walRanges w t = walRanges w s ∧
        lastRange w t = some range ∧ range.type = type ∧ range.start = invalidWalLocation ∧
        walStarts t = walStarts s ++ [invalidWalLocation])
      (fun _ t => WalKept w s t) s := by
  refine (wp_bind ..).2 ((getPrincipalKey_wal_spec hs).mono (fun r t ht => ?_) fun _ _ h => h)
  obtain ⟨hkept, hr, hc⟩ := ht
  cases r with
  | none => exact hkept
  | some pk =>
      obtain ⟨info, entries, hf, hh⟩ :=
        (hkept.fileOk.consistent.scopes globalDataTdeOid).exists_wal_current hr.symm
      have hget : getPrincipalKey w globalDataTdeOid t = .ok (some pk) t := by
        have hspec : wp (getPrincipalKey w globalDataTdeOid) (fun r u => r = some pk ∧ u = t)
            (fun _ _ => False) t := by
          unfold getPrincipalKey getPrincipalKeyNoDefault
          simp [hc]
        cases hrun : getPrincipalKey w globalDataTdeOid t with
        | ok r u =>
            obtain ⟨rfl, rfl⟩ := hspec.of_ok hrun
            rfl
        | error e u => exact (hspec.of_error hrun).elim
      -- from here on the routine does what it does when it finds the key in the cache
      have hspec := ((wp_bind ..).1 (createWalRange_spec (w := w) hc hf htype keyLen)).of_ok hget
      refine hspec.mono (fun range u hu => ?_) fun _ u hu => hkept.trans (hu.walKept hkept.fileOk)
      obtain ⟨e, hst, het, hstart, hrange, hq⟩ := hu
      have hent := walEntries_of_current hf
      have hmem : ∀ {P : WalKeyFileEntry → Prop}, (∀ a ∈ entries, P a) → P e →
          ∀ a ∈ entries ++ [e], P a := by
        intro P h he a ha
        obtain ha | ha := List.mem_append.1 ha
        · exact h a ha
        · rwa [List.mem_singleton.1 ha]
      obtain ⟨hok, hentu, hku⟩ := hkept.fileOk.putEntries hh hr.symm
        (hmem (by rw [← hent]; exact hkept.fileOk.stamped pk hr.symm) hst)
        (hmem (by rw [← hent]; exact hkept.fileOk.starts) (by rw [hstart]; exact invalid_le_max))
        (by simp [het, htype]) hq
      have hfields : range.type = type ∧ range.start = invalidWalLocation := by
        obtain ⟨key, -, rfl⟩ := Option.map_eq_some_iff.1 hrange
        exact ⟨het, hstart⟩
      have hstarts : walStarts u = walStarts s ++ [invalidWalLocation] := by
        rw [walStarts, walStarts, ← hkept.entries, hentu, hent, List.map_append, ← hstart]
        rfl
      refine ⟨hok, ?_, ?_, hfields.1, hfields.2, hstarts⟩
      · rw [← (hkept.ranges hs).1, walRanges, walRanges, hku, ← hr, hentu, hent]
        dsimp only
        rw [rangesFrom_concat, isFetched_invalid hstart]
        simp
      · rw [lastRange, hku, hentu]
        simpa using hrange

/-- Giving the last entry its start changes nothing else, but that the entry before it is marked if
it does not start earlier. -/
theorem setLastLocation_concat (loc : WalLocation) (entries : List WalKeyFileEntry)
    (e : WalKeyFileEntry) :
    setLastLocation loc (entries ++ [e]) = entries ++ [{ e with rangeStart := loc }] ∨
      ∃ front prev, entries = front ++ [prev] ∧ ¬prev.rangeStart < loc ∧
        setLastLocation loc (entries ++ [e]) =
          front ++ [{ prev with rangeType := .invalid }] ++ [{ e with rangeStart := loc }] := by
  obtain rfl | ⟨front, prev, rfl⟩ := List.eq_nil_or_concat' entries
  · exact .inl rfl
  · have happ := setLastLocation_append loc front prev e
    rw [List.append_assoc, List.singleton_append, happ]
    by_cases h : walLocationCmp prev.rangeStart loc = .lt
    · left
      simp [h]
    · right
      refine ⟨front, prev, rfl, by rwa [← walLocationCmp_lt], ?_⟩
      simp [h]

theorem eq_concat_of_lastRange {k : TDEPrincipalKey} {r : WalEncryptionRange}
    (hk : principalKeyOf w s globalDataTdeOid = some k) (h : lastRange w s = some r) :
    ∃ entries e, walEntries s = entries ++ [e] ∧ walRangeOfEntry w k.keyData e = some r := by
  rw [lastRange, hk] at h
  obtain ⟨e, he, hr⟩ := Option.bind_eq_some_iff.1 h
  obtain ⟨entries, hent⟩ := List.getLast?_eq_some_iff.1 he
  exact ⟨entries, e, hent, hr⟩

theorem walEntries_ne_nil_of_lastRange {r : WalEncryptionRange} (h : lastRange w s = some r) :
    walEntries s ≠ [] := by
  intro hnil
  rw [lastRange_of_nil hnil] at h
  cases h

theorem isFetched_first {e : WalKeyFileEntry} :
    isFetched firstWalLocation e = true ↔
      e.rangeType ≠ .invalid ∧ walLocationValid e.rangeStart = true := by
  simp only [isFetched, walLocationValid, Bool.and_eq_true, decide_eq_true_eq, and_assoc]
  refine and_congr_right fun _ => and_congr_right fun htli => ?_
  rw [and_iff_left_iff_imp]
  intro hlsn hlt
  rw [walLocationCmp_lt, WalLocation.lt_iff] at hlt
  simp only [firstWalLocation] at hlt
  omega

/-- The ranges with a start once the last one is given `loc`, which need not be a start. -/
def withStart (loc : WalLocation) (r : WalEncryptionRange) (ranges : List WalEncryptionRange) :
    List WalEncryptionRange :=
  if walLocationValid loc then ranges ++ [{ r with start := loc }] else ranges

/-- The last range is given its start. -/
theorem walLastRangeSetLocation_wal_spec {loc : WalLocation} {r : WalEncryptionRange}
    (hs : WalFileOk w s) (hlast : lastRange w s = some r) (hr : ¬walLocationValid r.start = true)
    (hloc : loc ≤ maxWalLocation)
    (hprev : ∀ r' ∈ (walRanges w s).getLast?, r'.start < loc) :
    wp (walLastRangeSetLocation loc)
      (fun _ t => WalFileOk w t ∧ walRanges w t = withStart loc r (walRanges w s) ∧
        lastRange w t = some { r with start := loc } ∧
        walStarts t = (walStarts s).dropLast ++ [loc])
      (fun _ t => WalKept w s t) s := by
  obtain ⟨info, k, hf, hk, hh⟩ := hs.exists_key (walEntries_ne_nil_of_lastRange hlast)
  obtain ⟨entries, e, hent, hre⟩ := eq_concat_of_lastRange hk hlast
  rw [hent] at hf
  have hstart : ¬isFetched firstWalLocation e = true := by
    obtain ⟨key, -, rfl⟩ := Option.map_eq_some_iff.1 hre
    exact fun h => hr (isFetched_first.1 h).2
  have hranges : walRanges w s = rangesFrom w k.keyData firstWalLocation entries := by
    rw [walRanges, hk, hent]
    dsimp only
    rw [rangesFrom_concat, if_neg hstart, List.append_nil]
  have hold : ∀ a ∈ entries, a ∈ walEntries s := fun a ha => by simp [hent, ha]
  have he : e ∈ walEntries s := by simp [hent]
  -- an entry that is marked now was not among those that have a start
  obtain ⟨entries', hset, hfrom, hstarts, hmem⟩ : ∃ entries',
      setLastLocation loc (entries ++ [e]) = entries' ++ [{ e with rangeStart := loc }] ∧
      rangesFrom w k.keyData firstWalLocation entries' =
        rangesFrom w k.keyData firstWalLocation entries ∧
      entries'.map (·.rangeStart) = entries.map (·.rangeStart) ∧
      ∀ a ∈ entries', Stamped w k.keyData a ∧ a.rangeStart ≤ maxWalLocation := by
    have hgood : ∀ a ∈ entries, Stamped w k.keyData a ∧ a.rangeStart ≤ maxWalLocation :=
      fun a ha => ⟨hs.stamped k hk a (hold a ha), hs.starts a (hold a ha)⟩
    obtain heq | ⟨front, prev, rfl, hlt, heq⟩ := setLastLocation_concat loc entries e
    · exact ⟨entries, heq, rfl, rfl, hgood⟩
    refine ⟨_, heq, ?_, by simp, fun a ha => ?_⟩
    · have hnot : ¬isFetched firstWalLocation prev = true := by
        intro hfetch
        obtain ⟨htype, -⟩ := isFetched_first.1 hfetch
        obtain ⟨key, hkey, -⟩ := (hgood prev (by simp)).1.unwrap htype
        refine hlt (hprev ⟨prev.rangeType, key, prev.rangeStart, maxWalLocation⟩ ?_)
        rw [hranges, rangesFrom_concat, if_pos hfetch, walRangeOfEntry, hkey]
        simp
      rw [rangesFrom_concat, rangesFrom_concat, if_neg hnot, if_neg (by simp [isFetched])]
    · obtain ha | ha := List.mem_append.1 ha
      · exact hgood a (by simp [ha])
      · rw [List.mem_singleton.1 ha]
        exact ⟨(hgood prev (by simp)).1.invalidated, (hgood prev (by simp)).2⟩
  refine (walLastRangeSetLocation_spec hf loc).mono (fun _ t ht => ?_)
    fun _ t ht => ht.1.walKept hs
  obtain ⟨info', hinfo, hq⟩ := ht
  rw [hinfo (by simp), hset] at hq
  obtain ⟨hok, hentt, hkt⟩ := hs.putEntries hh hk
    (by
      intro a ha
      obtain ha | ha := List.mem_append.1 ha
      · exact (hmem a ha).1
      · rw [List.mem_singleton.1 ha]
        exact (hs.stamped k hk e he).start loc)
    (by
      intro a ha
      obtain ha | ha := List.mem_append.1 ha
      · exact (hmem a ha).2
      · rwa [List.mem_singleton.1 ha])
    (by simpa using hs.last e (by simp [hent])) hq
  have hrange : walRangeOfEntry w k.keyData { e with rangeStart := loc } =
      some { r with start := loc } := by
    obtain ⟨key, hkey, rfl⟩ := Option.map_eq_some_iff.1 hre
    exact Option.map_eq_some_iff.2 ⟨key, hkey, rfl⟩
  have hfetch : isFetched firstWalLocation { e with rangeStart := loc } = true ↔
      walLocationValid loc = true := by
    rw [isFetched_first]
    exact and_iff_right (hs.last e (by simp [hent]))
  refine ⟨hok, ?_, ?_, ?_⟩
  · rw [hranges, walRanges, hkt, hentt]
    dsimp only
    rw [rangesFrom_concat, hfrom, hrange, withStart]
    by_cases hv : walLocationValid loc = true
    · rw [if_pos (hfetch.2 hv), if_pos hv]
      rfl
    · rw [if_neg (mt hfetch.1 hv), if_neg hv, List.append_nil]
  · rw [lastRange, hkt, hentt]
    simpa using hrange
  · simp [walStarts, hentt, hent, hstarts]

/-! ### The key cache -/

@[simp] theorem wp_onServer {α : Type} (m : M α) (Q : α → WalState → Prop)
    (E : TdeError → WalState → Prop) (x : WalState) :
    wp (onServer m) Q E x ↔ wp m (fun a s => Q a { x with server := s })
      (fun e s => E e { x with server := s }) x.server := by
  unfold wp onServer
  cases m x.server <;> rfl

@[simp] theorem wp_modifyProcess (f : WalProcess → WalProcess) (Q : Unit → WalState → Prop)
    (E : TdeError → WalState → Prop) (x : WalState) :
    wp (modifyProcess f) Q E x ↔ Q () { x with process := f x.process } := Iff.rfl

/-- A list of ranges that is read in full continues as such a list. -/
theorem addWalRange_chain {r : WalEncryptionRange} (hr : r.stop = maxWalLocation)
    (ranges : List WalEncryptionRange) : addWalRange r (chain ranges) = chain (ranges ++ [r]) := by
  have hlast : chain [r] = [r] := by
    simp only [chain, spans, List.map_cons, List.map_nil, ← hr]
  induction ranges with
  | nil => rw [List.nil_append, hlast]; rfl
  | cons a ranges ih =>
      cases ranges with
      | nil =>
          show addWalRange r [{ a with stop := maxWalLocation }] =
            { a with stop := r.start } :: chain [r]
          rw [hlast]
          rfl
      | cons b ranges =>
          have hcons : ∀ b' l, chain (a :: b' :: l) = { a with stop := b'.start } ::
              chain (b' :: l) := fun _ _ => rfl
          obtain ⟨c, l, hcl⟩ : ∃ c l, chain (b :: ranges) = c :: l := by
            cases ranges <;> exact ⟨_, _, rfl⟩
          rw [hcons, hcl, addWalRange, ← hcl, ih]
          exact (hcons b (ranges ++ [r])).symm

theorem foldl_addWalRange_chain {new : List WalEncryptionRange}
    (hnew : ∀ r ∈ new, r.stop = maxWalLocation) (ranges : List WalEncryptionRange) :
    new.foldl (fun cache r => addWalRange r cache) (chain ranges) = chain (ranges ++ new) := by
  induction new generalizing ranges with
  | nil => simp
  | cons r new ih =>
      rw [List.foldl_cons, addWalRange_chain (hnew r List.mem_cons_self),
        ih fun r' hr' => hnew r' (List.mem_cons_of_mem r hr'), List.append_assoc]
      rfl

theorem stop_of_mem_rangesFrom {keyData : List UInt8} {start : WalLocation}
    {entries : List WalKeyFileEntry} {r : WalEncryptionRange}
    (h : r ∈ rangesFrom w keyData start entries) : r.stop = maxWalLocation := by
  obtain ⟨e, -, he⟩ := List.mem_filterMap.1 h
  obtain ⟨key, -, rfl⟩ := Option.map_eq_some_iff.1 he
  rfl

theorem WalFileOk.mem_walRanges {r : WalEncryptionRange} (hs : WalFileOk w s)
    (h : r ∈ walRanges w s) : r.stop = maxWalLocation ∧ ProperStart r.start := by
  unfold walRanges at h
  split at h
  · refine ⟨stop_of_mem_rangesFrom h, ?_⟩
    obtain ⟨e, he, hr⟩ := List.mem_filterMap.1 h
    obtain ⟨key, -, rfl⟩ := Option.map_eq_some_iff.1 hr
    obtain ⟨hmem, hfetch⟩ := List.mem_filter.1 he
    have hvalid := (isFetched_first.1 hfetch).2
    exact ⟨hvalid, hs.starts e hmem⟩
  · cases h

/-- The loop of `open_pg_tde_fetch_wal_keys`, over entries that all decrypt. -/
theorem fetchLoop_spec (pk : TDEPrincipalKey) (entries : List WalKeyFileEntry)
    (hread : ∀ e ∈ entries, ∃ r, walRangeOfEntry w pk.keyData e = some r)
    {E : TdeError → WalState → Prop} :
    wp (forM entries fun e => do
        let range ← onServer (walRangeFromEntry w pk e)
        addWalRangeToCache range)
      (fun _ y => y = { x with process := { x.process with
        cache := (entries.filterMap (walRangeOfEntry w pk.keyData)).foldl
          (fun cache r => addWalRange r cache) x.process.cache } }) E x := by
  induction entries generalizing x with
  | nil => rfl
  | cons e entries ih =>
      obtain ⟨r, hr⟩ := hread e List.mem_cons_self
      have hone : walRangeFromEntry w pk e x.server = .ok r x.server := by
        rw [walRangeFromEntry, hr]
        rfl
      rw [List.forM_cons, wp_bind, wp_bind, wp_onServer]
      unfold wp
      rw [hone]
      refine (ih fun e' he' => hread e' (List.mem_cons_of_mem e he')).mono (fun _ y hy => ?_)
        fun _ _ h => h
      rw [hy, List.filterMap_cons, hr]
      rfl

/-- What a fetch adds: the ranges from the location on, or the stub if there are no ranges at
all. -/
theorem fetchWalKeys_spec (hs : WalFileOk w x.server) (start : WalLocation) :
    wp (fetchWalKeys w start)
      (fun _ y => ∃ t cache, WalKept w x.server t ∧
        y = { x with server := t, process := { x.process with cache := cache } } ∧
        (walEntries x.server = [] ∧
            (cache = x.process.cache ∨ cache = addWalRange noWalRange x.process.cache) ∨
          ∃ k, principalKeyOf w x.server globalDataTdeOid = some k ∧
            cache = (rangesFrom w k.keyData start (walEntries x.server)).foldl
              (fun cache r => addWalRange r cache) x.process.cache))
      (fun _ y => ∃ t, WalKept w x.server t ∧ y = { x with server := t }) x := by
  rw [fetchWalKeys, wp_bind, wp_onServer]
  refine (getPrincipalKey_wal_spec hs).mono (fun r t ht => ?_) fun _ t h => ⟨t, h, rfl⟩
  obtain ⟨hkept, hr, -⟩ := ht
  cases r with
  | none =>
      have hnil : walEntries x.server = [] := by
        by_contra hne
        rw [← hkept.entries] at hne
        obtain ⟨-, k, -, hk, -⟩ := hkept.fileOk.exists_key hne
        rw [hk] at hr
        cases hr
      exact ⟨t, x.process.cache, hkept, rfl, .inl ⟨hnil, .inl rfl⟩⟩
  | some pk =>
      obtain ⟨info, entries, hf, -⟩ :=
        (hkept.fileOk.consistent.scopes globalDataTdeOid).exists_wal_current hr.symm
      have hent : walEntries x.server = entries := by
        rw [← hkept.entries, walEntries_of_current hf]
      dsimp only
      rw [wp_bind, wp_onServer]
      refine (openWalKeyFileRead_walKept hkept.fileOk hf).mono (fun es u hu => ?_)
        fun _ u hu => ⟨u, hkept.trans hu, rfl⟩
      obtain ⟨hku, rfl⟩ := hu
      have hsu := hkept.trans hku
      cases entries with
      | nil => exact ⟨u, _, hsu, rfl, .inl ⟨hent, .inr rfl⟩⟩
      | cons e entries =>
          have hk : principalKeyOf w x.server globalDataTdeOid = some pk := by
            obtain ⟨-, k, -, hk, -⟩ := hs.exists_key (by rw [hent]; exact List.cons_ne_nil _ _)
            rw [hk, ← hkept.key k hk, hr]
          refine (fetchLoop_spec pk _ ?_).mono (fun _ y hy => ?_) fun _ _ h => h
          · intro e' he'
            obtain ⟨hmem, hfetch⟩ := List.mem_filter.1 he'
            simp only [isFetched, Bool.and_eq_true, decide_eq_true_eq] at hfetch
            obtain ⟨key, hkey, -⟩ := (hs.stamped pk hk e' (by rw [hent]; exact hmem)).unwrap
              hfetch.1.1
            exact ⟨_, Option.map_eq_some_iff.2 ⟨key, hkey, rfl⟩⟩
          · refine ⟨u, _, hsu, hy, .inr ⟨pk, hk, ?_⟩⟩
            rw [hent]
            rfl

end OpenPgTde
