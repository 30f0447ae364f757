import OpenPgTde.Xlog.Specs

/-!
A process that writes and reads encrypted WAL.

What the processes of a running server share is the key file and the location of the write key: the
location is where the last range starts, or nothing if the last range has no start yet. What a
process has for itself is always a little behind: its list of ranges is complete or lacks the last
one, and in that case the shared location tells it so. A write or a read brings the list up to date
before it is used, and then treats every byte as the range in force at the byte says.
-/

namespace OpenPgTde

open Lib.Effect Lib.Breakpoints

variable {w : World} {s t u : Server} {x : WalState} {encKey encKey' : WalLocation}
  {p : WalProcess}

/-! ### The invariants -/

/-- Shared memory agrees with the key file. -/
structure SharedOk (w : World) (s : Server) (encKey : WalLocation) : Prop where
  fileOk : WalFileOk w s
  increasing : Increasing (·.start) (walRanges w s)
  last : ∀ r, lastRange w s = some r → r.start = encKey
  none : lastRange w s = none → encKey = invalidWalLocation

/-- The list has all the ranges, or there are none and it has the stub. -/
def UpToDate (w : World) (s : Server) (cache : List WalEncryptionRange) : Prop :=
  cache = chain (walRanges w s) ∨ walEntries s = [] ∧ cache = [noWalRange]

/-- The process writes with the last range, and its list lacks at most that one. -/
structure ProcessOk (w : World) (s : Server) (encKey : WalLocation) (p : WalProcess) : Prop where
  current : ∀ r, lastRange w s = some r → p.current.type = r.type ∧ p.current.key = r.key
  none : lastRange w s = none → p.current.type = .invalid
  cache : UpToDate w s p.cache ∨
    ∃ ranges r, walRanges w s = ranges ++ [r] ∧ r.start = encKey ∧ p.cache = chain ranges

/-- The server is running. -/
structure WalState.Ok (w : World) (x : WalState) : Prop where
  shared : SharedOk w x.server x.encKey
  process : ProcessOk w x.server x.encKey x.process

/-! ### How the shared state changes -/

/-- Nothing changes, or the last range is given its start. -/
inductive WalStep (w : World) (s : Server) (encKey : WalLocation) (t : Server)
    (encKey' : WalLocation) : Prop
  | kept : WalKept w s t → encKey' = encKey → WalStep w s encKey t encKey'
  | located (r : WalEncryptionRange) : encKey.lsn = 0 → lastRange w s = some r →
      encKey' ≤ maxWalLocation → (∀ r' ∈ walRanges w s, r'.start < encKey') →
      WalFileOk w t → walRanges w t = withStart encKey' r (walRanges w s) →
      lastRange w t = some { r with start := encKey' } →
      walStarts t = (walStarts s).dropLast ++ [encKey'] → WalStep w s encKey t encKey'

theorem WalStep.keptRight (h : WalStep w s encKey t encKey') (h' : WalKept w t u) :
    WalStep w s encKey u encKey' := by
  cases h with
  | kept hk he => exact .kept (hk.trans h') he
  | located r h₁ h₂ h₃ h₄ h₅ h₆ h₇ h₈ =>
      have hr := h'.ranges h₅
      exact .located r h₁ h₂ h₃ h₄ h'.fileOk (by rw [hr.1, h₆]) (by rw [hr.2, h₇])
        (by rw [walStarts, h'.entries, ← h₈, walStarts])

theorem lsn_ne_zero {loc : WalLocation} (h : walLocationValid loc = true) : loc.lsn ≠ 0 := by
  simp only [walLocationValid, Bool.and_eq_true, decide_eq_true_eq] at h
  exact h.2

theorem SharedOk.step (h : SharedOk w s encKey) (hst : WalStep w s encKey t encKey') :
    SharedOk w t encKey' := by
  cases hst with
  | kept hk he =>
      subst he
      obtain ⟨hr, hl⟩ := hk.ranges h.fileOk
      refine ⟨hk.fileOk, ?_, ?_, ?_⟩
      · rw [hr]
        exact h.increasing
      · rw [hl]
        exact h.last
      · rw [hl]
        exact h.none
  | located r h₁ h₂ h₃ h₄ h₅ h₆ h₇ =>
      refine ⟨h₅, ?_, fun r' hr' => ?_, fun hnone => ?_⟩
      · rw [h₆, withStart]
        split
        · exact h.increasing.concat h₄
        · exact h.increasing
      · rw [h₇] at hr'
        cases hr'
        rfl
      · rw [h₇] at hnone
        cases hnone

theorem WalKept.upToDate {cache : List WalEncryptionRange} (hk : WalKept w s t)
    (hs : WalFileOk w s) : UpToDate w t cache ↔ UpToDate w s cache := by
  rw [UpToDate, UpToDate, (hk.ranges hs).1, hk.entries]

/-- No list can lack a range that has no start. -/
theorem ProcessOk.upToDate (h : ProcessOk w s encKey p) (hs : WalFileOk w s)
    (hlsn : encKey.lsn = 0) : UpToDate w s p.cache := by
  obtain hup | ⟨ranges, r, hr, hstart, -⟩ := h.cache
  · exact hup
  · have hvalid : ProperStart r.start := (hs.mem_walRanges (by simp [hr])).2
    rw [hstart] at hvalid
    exact absurd hlsn (lsn_ne_zero hvalid.1)

/-- The list of a process falls behind by at most one range. -/
theorem ProcessOk.step (h : ProcessOk w s encKey p) (hs : SharedOk w s encKey)
    (hst : WalStep w s encKey t encKey') : ProcessOk w t encKey' p := by
  cases hst with
  | kept hk he =>
      subst he
      obtain ⟨hr, hl⟩ := hk.ranges hs.fileOk
      refine ⟨?_, ?_, ?_⟩
      · rw [hl]
        exact h.current
      · rw [hl]
        exact h.none
      · rw [hr]
        exact h.cache.imp_left (hk.upToDate hs.fileOk).2
  | located r h₁ h₂ h₃ h₄ h₅ h₆ h₇ =>
      refine ⟨fun r' hr' => ?_, fun hnone => ?_, ?_⟩
      · rw [h₇] at hr'
        cases hr'
        exact h.current r h₂
      · rw [h₇] at hnone
        cases hnone
      · have hc : p.cache = chain (walRanges w s) := by
          obtain hc | ⟨hnil, -⟩ := h.upToDate hs.fileOk h₁
          · exact hc
          · exact absurd hnil (walEntries_ne_nil_of_lastRange h₂)
        rw [withStart] at h₆
        split at h₆
        · exact .inr ⟨walRanges w s, _, h₆, rfl, hc⟩
        · exact .inl (.inl (by rw [h₆, hc]))

/-! ### Bringing the list up to date -/

/-- The list of ranges that a process reads from scratch. -/
theorem fetchAll_spec (hs : WalFileOk w x.server) (hc : x.process.cache = []) :
    wp (fetchWalKeys w firstWalLocation)
      (fun _ y => ∃ t cache, WalKept w x.server t ∧ UpToDate w x.server cache ∧
        y = { x with server := t, process := { x.process with cache := cache } })
      (fun _ y => ∃ t, WalKept w x.server t ∧ y = { x with server := t }) x := by
  refine (fetchWalKeys_spec hs firstWalLocation).mono (fun _ y hy => ?_) fun _ _ h => h
  obtain ⟨t, cache, hk, rfl, hcache⟩ := hy
  refine ⟨t, cache, hk, ?_, rfl⟩
  rw [hc] at hcache
  obtain ⟨hnil, rfl | rfl⟩ | ⟨k, hk, rfl⟩ := hcache
  · left
    rw [walRanges_of_nil hnil]
    rfl
  · exact .inr ⟨hnil, rfl⟩
  · left
    rw [walRanges, hk]
    exact foldl_addWalRange_chain (fun r hr => stop_of_mem_rangesFrom hr) []

theorem getLast?_chain (ranges : List WalEncryptionRange) (r : WalEncryptionRange) :
    (chain (ranges ++ [r])).getLast? = some { r with stop := maxWalLocation } := by
  induction ranges using List.reverseRecOn with
  | nil => rfl
  | append_singleton ranges b _ =>
      rw [chain, spans_concat, List.map_append]
      simp

/-- The ranges from a location on are those of all that start there or later. -/
theorem rangesFrom_eq_filter (keyData : List UInt8) (start : WalLocation)
    (entries : List WalKeyFileEntry) :
    rangesFrom w keyData start entries =
      (rangesFrom w keyData firstWalLocation entries).filter fun r => ¬r.start < start := by
  induction entries using List.reverseRecOn with
  | nil => rfl
  | append_singleton entries e ih =>
      rw [rangesFrom_concat, rangesFrom_concat, List.filter_append, ih]
      congr 1
      have hfetch : isFetched start e = true ↔
          isFetched firstWalLocation e = true ∧ ¬e.rangeStart < start := by
        rw [isFetched_first]
        simp [isFetched, walLocationCmp_lt]
      cases hr : walRangeOfEntry w keyData e with
      | none => simp
      | some r =>
          obtain ⟨key, -, rfl⟩ := Option.map_eq_some_iff.1 hr
          by_cases h₁ : isFetched firstWalLocation e = true
          · by_cases h₂ : e.rangeStart < start
            · simp [h₁, h₂, hfetch]
            · simp [h₁, hfetch, not_lt.1 h₂]
          · simp [h₁, hfetch]

theorem chain_ne_nil {ranges : List WalEncryptionRange} (h : ranges ≠ []) : chain ranges ≠ [] := by
  cases ranges with
  | nil => exact absurd rfl h
  | cons a ranges => cases ranges <;> simp [chain, spans]

theorem getLast?_chain_start {ranges : List WalEncryptionRange} {last : WalEncryptionRange}
    (h : (chain ranges).getLast? = some last) : ∃ r ∈ ranges.getLast?, last.start = r.start := by
  induction ranges using List.reverseRecOn with
  | nil => cases h
  | append_singleton ranges r _ =>
      rw [getLast?_chain] at h
      cases h
      exact ⟨r, by simp, rfl⟩

/-- The last range is the last of those that have a start, if it has one. -/
theorem WalFileOk.walRanges_concat {r : WalEncryptionRange} (hs : WalFileOk w s)
    (h : lastRange w s = some r) (hstart : walLocationValid r.start = true) :
    ∃ ranges, walRanges w s = ranges ++ [r] := by
  obtain ⟨info, k, -, hk, -⟩ := hs.exists_key (walEntries_ne_nil_of_lastRange h)
  obtain ⟨entries, e, hent, hr⟩ := eq_concat_of_lastRange hk h
  have hfetch : isFetched firstWalLocation e = true := by
    rw [isFetched_first]
    refine ⟨hs.last e (by simp [hent]), ?_⟩
    obtain ⟨key, -, rfl⟩ := Option.map_eq_some_iff.1 hr
    exact hstart
  refine ⟨rangesFrom w k.keyData firstWalLocation entries, ?_⟩
  rw [walRanges, hk, hent]
  dsimp only
  rw [rangesFrom_concat, if_pos hfetch, hr]
  rfl

theorem SharedOk.set (h : SharedOk w s encKey) (hvalid : walLocationValid encKey = true) :
    ∃ ranges r, walRanges w s = ranges ++ [r] ∧ lastRange w s = some r ∧ r.start = encKey := by
  cases hl : lastRange w s with
  | none =>
      rw [h.none hl] at hvalid
      cases hvalid
  | some r =>
      have hstart := h.last r hl
      obtain ⟨ranges, hranges⟩ := h.fileOk.walRanges_concat hl (by rw [hstart]; exact hvalid)
      exact ⟨ranges, r, hranges, rfl, hstart⟩

/-- The shared location is that of the last range with a start, or it is none and lies before all
that are. -/
theorem SharedOk.le_start (h : SharedOk w s encKey) {r : WalEncryptionRange}
    (hr : r ∈ (walRanges w s).getLast?) (hlsn : encKey.lsn ≠ 0) : encKey ≤ r.start := by
  by_cases hvalid : walLocationValid encKey = true
  · obtain ⟨ranges, r', hranges, -, hstart⟩ := h.set hvalid
    rw [hranges] at hr
    simp only [List.getLast?_append, List.getLast?_singleton, Option.some_or, Option.mem_def,
      Option.some.injEq] at hr
    rw [← hr, hstart]
  · have hproper := (h.fileOk.mem_walRanges (List.mem_of_getLast? hr)).2.1
    simp only [walLocationValid, Bool.and_eq_true, decide_eq_true_eq] at hvalid hproper
    have htli : encKey.tli = 0 := by
      by_contra htli
      exact hvalid ⟨htli, hlsn⟩
    rw [WalLocation.le_iff]
    omega

theorem WalState.Ok.le_of_getLast (h : x.Ok w) (hlsn : x.encKey.lsn ≠ 0)
    (hup : UpToDate w x.server x.process.cache) {last : WalEncryptionRange}
    (hlast : x.process.cache.getLast? = some last) : x.encKey ≤ last.start := by
  obtain hc | ⟨hnil, -⟩ := hup
  · rw [hc] at hlast
    obtain ⟨r, hr, hstart⟩ := getLast?_chain_start hlast
    rw [hstart]
    exact h.shared.le_start hr hlsn
  · rw [h.shared.none (lastRange_of_nil hnil)] at hlsn
    exact absurd rfl hlsn

/-- A process whose list lacks the range that a write has located since fetches it. -/
theorem fetchNewWalKeys_spec (h : x.Ok w)
    (hempty : x.process.cache = [] → UpToDate w x.server x.process.cache) :
    wp (fetchNewWalKeys w)
      (fun _ y => ∃ t cache, WalKept w x.server t ∧ UpToDate w x.server cache ∧
        y = { x with server := t, process := { x.process with cache := cache } })
      (fun _ y => ∃ t, WalKept w x.server t ∧ y = { x with server := t }) x := by
  have hfile := h.shared.fileOk
  have hsame : UpToDate w x.server x.process.cache → ∃ t cache, WalKept w x.server t ∧
      UpToDate w x.server cache ∧
      x = { x with server := t, process := { x.process with cache := cache } } :=
    fun hup => ⟨x.server, x.process.cache, .refl hfile, hup, rfl⟩
  unfold fetchNewWalKeys
  simp only [wp_bind, wp_get, wp_ite, wp_pure]
  refine ⟨fun hlsn => ?_, fun hlsn => hsame (h.process.upToDate hfile (not_not.1 hlsn))⟩
  obtain hup | ⟨ranges, r, hr, hstart, hchain⟩ := h.process.cache
  · cases hlast : x.process.cache.getLast? with
    | none => exact hsame hup
    | some last =>
        have hnot : ¬walLocationCmp last.start x.encKey = .lt := by
          rw [walLocationCmp_lt, not_lt]
          exact h.le_of_getLast hlsn hup hlast
        simp only [wp_ite, wp_pure, hnot, false_implies, not_false_eq_true, true_implies, true_and]
        exact hsame hup
  · induction ranges using List.reverseRecOn with
    | nil =>
        obtain hc | ⟨-, hc⟩ := hempty hchain
        · rw [hchain, hr] at hc
          cases hc
        · rw [hchain] at hc
          cases hc
    | append_singleton ranges b _ =>
        have hinc := h.shared.increasing
        rw [hr] at hinc
        have hlt : ∀ r' ∈ ranges ++ [b], r'.start < x.encKey := by
          intro r' hr'
          rw [← hstart]
          exact (List.pairwise_append.1 hinc).2.2 r' hr' r (by simp)
        rw [hchain, getLast?_chain]
        simp only [wp_ite, wp_pure, walLocationCmp_lt]
        refine ⟨fun _ => ?_, fun hnot => absurd (hlt b (by simp)) hnot⟩
        refine (fetchWalKeys_spec hfile x.encKey).mono (fun _ y hy => ?_) fun _ _ hy => hy
        obtain ⟨t, cache, hk, rfl, hcache⟩ := hy
        refine ⟨t, cache, hk, .inl ?_, rfl⟩
        obtain ⟨hnil, -⟩ | ⟨k, hkey, rfl⟩ := hcache
        · rw [walRanges_of_nil hnil] at hr
          simp at hr
        · -- what is fetched is the one range that starts at the shared location
          have hall : rangesFrom w k.keyData firstWalLocation (walEntries x.server) =
              walRanges w x.server := by
            rw [walRanges, hkey]
          have hnew : rangesFrom w k.keyData x.encKey (walEntries x.server) = [r] := by
            rw [rangesFrom_eq_filter, hall, hr, List.filter_append,
              List.filter_eq_nil_iff.2 fun r' hr' => by simpa using hlt r' hr']
            simp [hstart]
          rw [hchain, hnew, hr]
          exact foldl_addWalRange_chain
            (by simpa using (hfile.mem_walRanges (r := r) (by simp [hr])).1) _

/-- An interrupted refresh leaves a list the process could have had before. -/
theorem WalState.Ok.kept {cache : List WalEncryptionRange} (h : x.Ok w)
    (hk : WalKept w x.server t) (hup : UpToDate w x.server cache) :
    WalState.Ok w { x with server := t, process := { x.process with cache := cache } } := by
  have hstep : WalStep w x.server x.encKey t x.encKey := .kept hk rfl
  have hp : ProcessOk w x.server x.encKey { x.process with cache := cache } :=
    ⟨h.process.current, h.process.none, .inl hup⟩
  exact ⟨h.shared.step hstep, hp.step h.shared hstep⟩

theorem WalState.Ok.keptServer (h : x.Ok w) (hk : WalKept w x.server t) :
    WalState.Ok w { x with server := t } :=
  ⟨h.shared.step (.kept hk rfl), h.process.step h.shared (.kept hk rfl)⟩

/-- What a routine leaves that does not locate a range. -/
def Refreshed (w : World) (x y : WalState) : Prop :=
  y.Ok w ∧ WalKept w x.server y.server ∧ y.encKey = x.encKey ∧
    y.process.current = x.process.current

/-- After the refresh the list is complete, and nothing else has changed. -/
theorem refreshWalKeys_spec (h : x.Ok w) :
    wp (refreshWalKeys w)
      (fun _ y => Refreshed w x y ∧ UpToDate w x.server y.process.cache)
      (fun _ y => Refreshed w x y) x := by
  have hfile := h.shared.fileOk
  have hnew : ∀ {t cache}, WalKept w x.server t →
      (UpToDate w x.server cache ∨ x.process.cache ≠ [] ∧ cache = x.process.cache) →
      wp (fetchNewWalKeys w)
        (fun _ y => Refreshed w x y ∧ UpToDate w x.server y.process.cache)
        (fun _ y => Refreshed w x y)
        { x with server := t, process := { x.process with cache := cache } } := by
    intro t cache hk hcache
    have hok : WalState.Ok w
        { x with server := t, process := { x.process with cache := cache } } := by
      obtain hup | ⟨-, rfl⟩ := hcache
      · exact h.kept hk hup
      · exact h.keptServer hk
    refine (fetchNewWalKeys_spec hok fun hc => ?_).mono (fun _ y hy => ?_) fun _ y hy => ?_
    · obtain hup | ⟨hne, rfl⟩ := hcache
      · exact (hk.upToDate hfile).2 hup
      · exact absurd hc hne
    · obtain ⟨u, cache', hku, hup, rfl⟩ := hy
      exact ⟨⟨hok.kept hku hup, hk.trans hku, rfl, rfl⟩, (hk.upToDate hfile).1 hup⟩
    · obtain ⟨u, hku, rfl⟩ := hy
      exact ⟨hok.keptServer hku, hk.trans hku, rfl, rfl⟩
  unfold refreshWalKeys
  simp only [wp_bind, wp_get, wp_ite]
  refine ⟨fun hc => ?_, fun hc => hnew (.refl hfile) (.inr ⟨hc, rfl⟩)⟩
  refine (fetchAll_spec hfile hc).mono (fun _ y hy => ?_) fun _ y hy => ?_
  · obtain ⟨t, cache, hk, hup, rfl⟩ := hy
    exact hnew hk (.inl hup)
  · obtain ⟨t, hk, rfl⟩ := hy
    exact ⟨h.keptServer hk, hk, rfl, rfl⟩

/-! ### Writing and reading -/

variable {aes : BlockCipher} {sz : WalSegSz} {a : SegPos} {buf : List UInt8}

/-- What the ranges of the file make of a buffer. -/
def coverBuffer (aes : BlockCipher) (sz : WalSegSz) (ranges : List WalEncryptionRange) (a : SegPos)
    (buf : List UInt8) : List UInt8 :=
  buf.mapIdx fun i b => coverByte aes sz ranges (a.advance i) b

theorem InSegment.lt_max (h : InSegment sz a buf.length) {i : ℕ} (hi : i < buf.length) :
    (a.advance i).location sz < maxWalLocation := by
  have haddr := h.address
  have htli := h.timeline
  have hlsn := h.lsn hi.le
  have htli' : ((a.advance i).location sz).tli = a.tli := rfl
  rw [WalLocation.lt_iff, htli', hlsn]
  simp only [maxWalLocation]
  omega

theorem mapIdx_congr {α β : Type} {l : List α} {f g : ℕ → α → β}
    (h : ∀ i b, i < l.length → f i b = g i b) : l.mapIdx f = l.mapIdx g := by
  apply List.ext_getElem
  · simp
  · intro i h₁ h₂
    rw [List.getElem_mapIdx, List.getElem_mapIdx]
    exact h i _ (by simpa using h₁)

/-- The loop of `TDEXLogCryptBuffer` over a complete list. -/
theorem UpToDate.cryptKeys {cache : List WalEncryptionRange} (h : UpToDate w s cache)
    (hs : WalFileOk w s) (hinc : Increasing (·.start) (walRanges w s))
    (hseg : InSegment sz a buf.length) (inPlace : Bool) :
    cryptKeys aes sz a inPlace cache buf = coverBuffer aes sz (walRanges w s) a buf := by
  obtain rfl | ⟨hnil, rfl⟩ := h
  · have hordered : ∀ r ∈ chain (walRanges w s), r.start ≤ r.stop := by
      intro r hr
      obtain ⟨⟨r', stop⟩, hmem, rfl⟩ := List.mem_map.1 hr
      exact hinc.le_of_mem_spans (fun b hb => (hs.mem_walRanges hb).2.2) hmem
    rw [cryptKeys_eq hseg inPlace fun r hr _ => hordered r hr]
    exact mapIdx_congr fun i b hi => cryptByte_chain hinc (hseg.lt_max hi) inPlace b
  · have hordered : ∀ r ∈ [noWalRange], r.start ≤ r.stop := by
      simp [noWalRange, invalidWalLocation, maxWalLocation, WalLocation.le_iff]
    rw [cryptKeys_eq hseg inPlace fun r hr _ => hordered r hr, walRanges_of_nil hnil]
    refine mapIdx_congr fun i b _ => ?_
    have hnot : ¬noWalRange.Covers ((a.advance i).location sz) := fun hc => by
      cases hc.2.1
    simp [cryptByte, hnot, coverByte]

theorem xLogCryptBuffer_spec (h : x.Ok w) (hseg : InSegment sz a buf.length) (inPlace : Bool) :
    wp (xLogCryptBuffer w aes sz a inPlace buf)
      (fun out y => Refreshed w x y ∧ UpToDate w x.server y.process.cache ∧
        out = coverBuffer aes sz (walRanges w x.server) a buf)
      (fun _ y => Refreshed w x y) x := by
  refine (wp_bind ..).2 ((refreshWalKeys_spec h).mono (fun _ y hy => ?_) fun _ _ hy => hy)
  simp only [wp_bind, wp_get, wp_pure]
  exact ⟨hy.1, hy.2, hy.2.cryptKeys h.shared.fileOk h.shared.increasing hseg inPlace⟩

theorem WalFileOk.type_of_lastRange {r : WalEncryptionRange} (hs : WalFileOk w s)
    (h : lastRange w s = some r) : r.type ≠ .invalid := by
  obtain ⟨info, k, -, hk, -⟩ := hs.exists_key (walEntries_ne_nil_of_lastRange h)
  obtain ⟨entries, e, hent, hr⟩ := eq_concat_of_lastRange hk h
  obtain ⟨key, -, rfl⟩ := Option.map_eq_some_iff.1 hr
  exact hs.last e (by simp [hent])

/-- A file without a last range has no entries. -/
theorem WalFileOk.walEntries_of_lastRange_none (hs : WalFileOk w s) (h : lastRange w s = none) :
    walEntries s = [] := by
  by_contra hne
  obtain ⟨info, k, -, hk, -⟩ := hs.exists_key hne
  obtain ⟨e, he⟩ := Option.ne_none_iff_exists'.1 (mt List.getLast?_eq_none_iff.1 hne)
  obtain ⟨key, hkey, -⟩ := (hs.stamped k hk e (List.mem_of_getLast? he)).unwrap (hs.last e he)
  rw [lastRange, hk, he] at h
  simp [walRangeOfEntry, hkey] at h

theorem WalFileOk.getLast?_walStarts (hs : WalFileOk w s) :
    (walStarts s).getLast? = (lastRange w s).map (·.start) := by
  cases hl : lastRange w s with
  | none =>
      rw [walStarts, hs.walEntries_of_lastRange_none hl]
      rfl
  | some r =>
      obtain ⟨info, k, -, hk, -⟩ := hs.exists_key (walEntries_ne_nil_of_lastRange hl)
      obtain ⟨entries, e, hent, hr⟩ := eq_concat_of_lastRange hk hl
      obtain ⟨key, -, rfl⟩ := Option.map_eq_some_iff.1 hr
      simp [walStarts, hent]

/-- What a routine leaves that may locate the last range. -/
def Stepped (w : World) (x y : WalState) : Prop :=
  y.Ok w ∧ WalStep w x.server x.encKey y.server y.encKey

theorem Stepped.refl (h : x.Ok w) : Stepped w x x := ⟨h, .kept (.refl h.shared.fileOk) rfl⟩

theorem Stepped.refreshed {y z : WalState} (h : Stepped w x y) (h' : Refreshed w y z) :
    Stepped w x z := by
  refine ⟨h'.1, ?_⟩
  rw [h'.2.2.1]
  exact h.2.keptRight h'.2.1

/-- No write at `loc` or before it gives the last range its start. -/
def NoStartUpTo (w : World) (x : WalState) (loc : WalLocation) : Prop :=
  x.encKey.lsn ≠ 0 ∨ loc < x.encKey ∨ lastRange w x.server = none ∨
    ∃ r ∈ walRanges w x.server, loc ≤ r.start

/-- The location in shared memory after the call is that of the last range, and the call tells
whether a write at `loc` is one to that range. -/
theorem ensureXlogKeyLocation_spec {loc : WalLocation} (h : x.Ok w) (hloc : loc ≤ maxWalLocation)
    (crashRecovery : Bool) :
    wp (ensureXlogKeyLocation loc crashRecovery)
      (fun usable y => Stepped w x y ∧
        (loc.lsn ≠ 0 → (usable = true ↔ y.encKey.lsn ≠ 0 ∧ y.encKey ≤ loc)) ∧
        (y.encKey = x.encKey ∨ y.encKey = loc) ∧
        (loc.lsn ≠ 0 → crashRecovery = false → NoStartUpTo w y loc))
      (fun _ y => Stepped w x y ∧ y.encKey = x.encKey) x := by
  unfold ensureXlogKeyLocation
  simp only [wp_bind, wp_get, wp_ite, wp_onServer, wp_modify, wp_pure]
  refine ⟨fun hc => ?_, fun hc => ⟨.refl h, fun _ => ?_, .inl trivial, fun _ hrec => ?_⟩⟩
  · obtain ⟨htype, hlsn, -, -, hlast⟩ := hc
    have hlsn : x.encKey.lsn = 0 := not_not.1 hlsn
    obtain ⟨r, hr⟩ : ∃ r, lastRange w x.server = some r :=
      Option.ne_none_iff_exists'.1 fun hnone => htype (h.process.none hnone)
    -- the last range of the list is the last one that has a start
    have hprev : ∀ r' ∈ (walRanges w x.server).getLast?, r'.start < loc := by
      intro r' hr'
      obtain ⟨ranges, hranges⟩ := List.getLast?_eq_some_iff.1 hr'
      obtain hc | ⟨hnil, -⟩ := h.process.upToDate h.shared.fileOk hlsn
      · have := hlast { r' with stop := maxWalLocation } (by rw [hc, hranges, getLast?_chain]; rfl)
        rwa [walLocationCmp_lt] at this
      · rw [walRanges_of_nil hnil] at hranges
        simp at hranges
    have hall : ∀ r' ∈ walRanges w x.server, r'.start < loc := by
      intro r' hr'
      obtain ⟨ranges, last, hranges⟩ : ∃ ranges last, walRanges w x.server = ranges ++ [last] :=
        ⟨_, _, (List.dropLast_append_getLast (List.ne_nil_of_mem hr')).symm⟩
      have hinc := h.shared.increasing
      rw [hranges] at hr' hinc
      have hlt : last.start < loc := hprev last (by simp [hranges])
      obtain hr' | hr' := List.mem_append.1 hr'
      · exact ((List.pairwise_append.1 hinc).2.2 r' hr' last (by simp)).trans hlt
      · rwa [List.mem_singleton.1 hr']
    have hnot : ¬walLocationValid r.start = true := by
      rw [h.shared.last r hr]
      exact fun hv => lsn_ne_zero hv hlsn
    refine (walLastRangeSetLocation_wal_spec h.shared.fileOk hr hnot hloc hprev).mono
      (fun _ t ht => ?_) fun _ t ht => ⟨⟨h.keptServer ht, .kept ht rfl⟩, trivial⟩
    obtain ⟨hok, hranges, hlastt, hstarts⟩ := ht
    have hstep : WalStep w x.server x.encKey t loc :=
      .located r hlsn hr hloc hall hok hranges hlastt hstarts
    have hp := h.process.step h.shared hstep
    refine ⟨⟨⟨h.shared.step hstep, ⟨hp.current, hp.none, hp.cache⟩⟩, hstep⟩, fun hl => ?_, .inr trivial,
      fun hl _ => .inl hl⟩
    simp [hl]
  · simp only [Bool.and_eq_true, decide_eq_true_eq, Ne, walLocationCmp_gt, not_lt]
  · by_contra hns
    simp only [NoStartUpTo, not_or, not_not, not_exists, not_and, not_le] at hns
    obtain ⟨hlsn, hle, hlast, hall⟩ := hns
    obtain ⟨r, hr⟩ := Option.ne_none_iff_exists'.1 hlast
    refine hc ⟨?_, not_not.2 hlsn, ?_, hrec, fun last hmem => ?_⟩
    · rw [(h.process.current r hr).1]
      exact h.shared.fileOk.type_of_lastRange hr
    · rw [Ne, walLocationCmp_gt]
      exact hle
    · rw [walLocationCmp_lt]
      obtain hchain | ⟨hnil, -⟩ := h.process.upToDate h.shared.fileOk hlsn
      · obtain ⟨ranges, last', hranges⟩ : ∃ ranges last', walRanges w x.server =
            ranges ++ [last'] := by
          refine ⟨_, _, (List.dropLast_append_getLast fun hnil => ?_).symm⟩
          rw [hchain, hnil] at hmem
          cases hmem
        rw [hchain, hranges, getLast?_chain] at hmem
        cases hmem
        exact hall last' (by simp [hranges])
      · exact absurd hnil (walEntries_ne_nil_of_lastRange hr)

theorem InSegment.location_le (h : InSegment sz a buf.length) {i : ℕ} (hi : i < buf.length) :
    a.location sz ≤ (a.advance i).location sz := by
  have hlsn := h.lsn hi.le
  have hlsn₀ : (a.location sz).lsn = a.segno * sz.size + a.offset := h.lsn (n := 0) (by omega)
  rw [WalLocation.le_iff, hlsn, hlsn₀]
  exact .inr ⟨rfl, by omega⟩

/-- Bytes at and after the start of the last range are in that range. -/
theorem SharedOk.coverByte_last (h : SharedOk w s encKey) (hset : walLocationValid encKey = true)
    {r : WalEncryptionRange} (hr : lastRange w s = some r) (hle : encKey ≤ a.location sz)
    (b : UInt8) :
    coverByte aes sz (walRanges w s) a b = if r.type = .encrypted then b ^^^ r.stream aes a
      else b := by
  obtain ⟨ranges, r', hranges, hr', hstart⟩ := h.set hset
  rw [hr] at hr'
  cases hr'
  have hvalid : ProperStart r.start := (h.fileOk.mem_walRanges (by simp [hranges])).2
  have hcover : cover (·.start) (walRanges w s) (a.location sz) = some r := by
    rw [hranges, cover_concat, if_pos]
    rwa [hstart]
  simp [coverByte, hcover, WalEncryptionRange.crypt, hvalid.1]

/-- The shared location is one, or there is none yet. -/
def KeySettled (encKey : WalLocation) : Prop := encKey.lsn ≠ 0 → walLocationValid encKey = true

/-- The shared location stays, or becomes one. -/
def KeyMoved (x y : WalState) : Prop :=
  y.encKey = x.encKey ∨ walLocationValid y.encKey = true

theorem KeySettled.moved {y : WalState} (h : KeySettled x.encKey) (hm : KeyMoved x y) :
    KeySettled y.encKey := by
  obtain heq | hvalid := hm
  · rwa [heq]
  · exact fun _ => hvalid

/-- A write hands over the bytes as the ranges of the file want them. -/
theorem tdeheapXlogSegWrite_spec (h : x.Ok w) (hkey : KeySettled x.encKey)
    (hseg : InSegment sz a buf.length) (hloc : ProperStart (a.location sz)) (crashRecovery : Bool) :
    wp (tdeheapXlogSegWrite w aes sz a crashRecovery buf)
      (fun out y => (Stepped w x y ∧ KeyMoved x y) ∧
        out = coverBuffer aes sz (walRanges w y.server) a buf)
      (fun _ y => Stepped w x y ∧ KeyMoved x y) x := by
  refine (wp_bind ..).2 ((ensureXlogKeyLocation_spec h hloc.2 crashRecovery).mono
    (fun usable y hy => ?_) fun _ _ hy => ⟨hy.1, .inl hy.2⟩)
  obtain ⟨hstep, husable, hmoved, -⟩ := hy
  have hok := hstep.1
  have hmoved : KeyMoved x y := hmoved.imp_right fun heq => by rw [heq]; exact hloc.1
  have hset := hkey.moved hmoved
  have hrefreshed : ∀ {z}, Refreshed w y z → Stepped w x z ∧ KeyMoved x z := by
    intro z hz
    refine ⟨hstep.refreshed hz, ?_⟩
    rw [KeyMoved, hz.2.2.1]
    exact hmoved
  simp only [wp_bind, wp_get, wp_ite, wp_pure]
  refine ⟨fun _ => ?_, fun hc => ?_⟩
  · refine (xLogCryptBuffer_spec hok hseg false).mono (fun out z hz => ?_)
      fun _ z hz => hrefreshed hz
    refine ⟨hrefreshed hz.1, ?_⟩
    rw [hz.2.2, (hz.1.2.1.ranges hok.shared.fileOk).1]
  · -- the whole buffer lies in the last range, or there is no range
    have hlast : ∀ {r}, lastRange w y.server = some r → y.process.current.type ≠ .invalid →
        ∀ i b, i < buf.length → coverByte aes sz (walRanges w y.server) (a.advance i) b =
          if r.type = .encrypted then b ^^^ r.stream aes (a.advance i) else b := by
      intro r hr htype i b hi
      obtain ⟨hlsn, hle⟩ := (husable (lsn_ne_zero hloc.1)).1
        (Bool.not_eq_false _ ▸ fun hu => hc ⟨hu, htype⟩)
      exact hok.shared.coverByte_last (hset hlsn) hr (hle.trans (hseg.location_le hi)) b
    refine ⟨fun henc => ⟨⟨hstep, hmoved⟩, ?_⟩, fun henc => ⟨⟨hstep, hmoved⟩, ?_⟩⟩
    · have htype : y.process.current.type ≠ .invalid := by
        rw [henc]
        exact fun h => by cases h
      obtain ⟨r, hr⟩ : ∃ r, lastRange w y.server = some r :=
        Option.ne_none_iff_exists'.1 fun hnone => htype (hok.process.none hnone)
      obtain ⟨hrt, hrk⟩ := hok.process.current r hr
      rw [streamCrypt_eq]
      refine mapIdx_congr fun i b hi => ?_
      rw [hlast hr htype i b hi, if_pos (hrt ▸ henc), hrk]
      rfl
    · have hid : buf = buf.mapIdx fun _ b => b := by simp [List.mapIdx_eq_zipIdx_map]
      refine hid.trans (mapIdx_congr fun i b hi => ?_)
      cases hr : lastRange w y.server with
      | none =>
          rw [walRanges_of_nil (hok.shared.fileOk.walEntries_of_lastRange_none hr)]
          rfl
      | some r =>
          obtain ⟨hrt, -⟩ := hok.process.current r hr
          have htype : y.process.current.type ≠ .invalid := by
            rw [hrt]
            exact hok.shared.fileOk.type_of_lastRange hr
          rw [hlast hr htype i b hi, if_neg (hrt ▸ henc)]

theorem tdeheapXlogSegRead_spec (h : x.Ok w) (hseg : InSegment sz a buf.length) :
    wp (tdeheapXlogSegRead w aes sz a buf)
      (fun out y => Refreshed w x y ∧ out = coverBuffer aes sz (walRanges w x.server) a buf)
      (fun _ y => Refreshed w x y) x :=
  (xLogCryptBuffer_spec h hseg true).mono (fun _ _ hy => ⟨hy.1, hy.2.2⟩) fun _ _ hy => hy

/-! ### Starting -/

/-- The key file after a start, whatever became of it: there may be a new range, without a start. -/
def FileStarted (w : World) (s t : Server) : Prop :=
  WalFileOk w t ∧ walRanges w t = walRanges w s ∧
    (walStarts t = walStarts s ∨ walStarts t = walStarts s ++ [invalidWalLocation])

theorem WalKept.starts (h : WalKept w s t) : walStarts t = walStarts s := by
  rw [walStarts, h.entries, walStarts]

theorem WalKept.fileStarted (h : WalKept w s t) (hs : WalFileOk w s) : FileStarted w s t :=
  ⟨h.fileOk, (h.ranges hs).1, .inl h.starts⟩

theorem FileStarted.kept (h : FileStarted w s t) (hk : WalKept w t u) : FileStarted w s u :=
  ⟨hk.fileOk, (hk.ranges h.1).1.trans h.2.1, by rw [hk.starts]; exact h.2.2⟩

/-- A process that writes with the last range and has no list yet. -/
structure Chosen (w : World) (x : WalState) : Prop where
  shared : SharedOk w x.server x.encKey
  current : ∀ r, lastRange w x.server = some r →
    x.process.current.type = r.type ∧ x.process.current.key = r.key
  none : lastRange w x.server = none → x.process.current.type = .invalid
  cache : x.process.cache = []

/-- The choice of the range to write with when the postmaster starts. -/
theorem chooseWalRange_spec (hs : WalFileOk w x.server)
    (hinc : Increasing (·.start) (walRanges w x.server)) (hkey : x.encKey = invalidWalLocation)
    (hnone : lastRange w x.server = none → x.process.current.type = .invalid)
    (hcache : x.process.cache = []) (encryptXlog : Bool) (keyLen : ℕ) :
    wp (chooseWalRange w encryptXlog keyLen false (lastRange w x.server))
      (fun _ y => Chosen w y ∧ FileStarted w x.server y.server)
      (fun _ y => FileStarted w x.server y.server) x := by
  -- both kinds of new ranges
  have hcreate : ∀ type, type ≠ .invalid → wp (do
      let r ← onServer (createWalRange w type keyLen)
      modifyProcess fun p => { p with current := r })
      (fun _ y => Chosen w y ∧ FileStarted w x.server y.server)
      (fun _ y => FileStarted w x.server y.server) x := by
    intro type htype
    rw [wp_bind, wp_onServer]
    refine (createWalRange_wal_spec hs htype keyLen).mono (fun r t ht => ?_)
      fun _ t ht => ht.fileStarted hs
    obtain ⟨hok, hranges, hlast, -, hstart, hstarts⟩ := ht
    have hshared : SharedOk w t x.encKey := by
      refine ⟨hok, by rwa [hranges], fun r' hr' => ?_, fun _ => hkey⟩
      rw [hlast] at hr'
      cases hr'
      rw [hkey, hstart]
    refine ⟨⟨hshared, fun r' hr' => ?_, fun hn => ?_, hcache⟩, hok, hranges, .inr hstarts⟩
    · rw [hlast] at hr'
      cases hr'
      exact ⟨rfl, rfl⟩
    · rw [hlast] at hn
      cases hn
  have hself : FileStarted w x.server x.server := ⟨hs, rfl, .inl rfl⟩
  unfold chooseWalRange
  rw [if_neg (by simp)]
  cases encryptXlog with
  | true =>
      rw [if_pos rfl]
      exact hcreate .encrypted (by simp)
  | false =>
      rw [if_neg (by simp)]
      cases hlast : lastRange w x.server with
      | none =>
          refine ⟨⟨⟨hs, hinc, fun r hr => ?_, fun _ => hkey⟩, fun r hr => ?_, ?_, hcache⟩, hself⟩
          · rw [hlast] at hr
            cases hr
          · rw [hlast] at hr
            cases hr
          · exact hnone
      | some r =>
          dsimp only
          split
          · exact hcreate .unencrypted (by simp)
          · have hfound : ∀ r', lastRange w x.server = some r' → r = r' := by
              intro r' hr'
              rw [hlast] at hr'
              cases hr'
              rfl
            have hsome : lastRange w x.server ≠ none := by
              rw [hlast]
              exact Option.some_ne_none r
            refine ⟨⟨⟨hs, hinc, fun r' hr' => ?_, fun hn => absurd hn hsome⟩, fun r' hr' => ?_,
              fun hn => absurd hn hsome, hcache⟩, hself⟩
            · rw [hfound r' hr']
            · rw [hfound r' hr']
              exact ⟨rfl, rfl⟩

/-- A process that has chosen its range reads its list. -/
theorem Chosen.fetch (h : Chosen w x) :
    wp (do if (← get).process.cache = [] then fetchWalKeys w firstWalLocation)
      (fun _ y => y.Ok w ∧ WalKept w x.server y.server ∧ y.encKey = x.encKey)
      (fun _ y => WalKept w x.server y.server ∧ y.encKey = x.encKey) x := by
  simp only [wp_bind, wp_get, wp_ite]
  refine ⟨fun hc => ?_, fun hc => absurd h.cache hc⟩
  refine (fetchAll_spec h.shared.fileOk hc).mono (fun _ y hy => ?_) fun _ y hy => ?_
  · obtain ⟨t, cache, hk, hup, rfl⟩ := hy
    have hstep : WalStep w x.server x.encKey t x.encKey := .kept hk rfl
    have hp : ProcessOk w x.server x.encKey { x.process with cache := cache } :=
      ⟨h.current, h.none, .inl hup⟩
    exact ⟨⟨h.shared.step hstep, hp.step h.shared hstep⟩, hk, rfl⟩
  · obtain ⟨t, hk, rfl⟩ := hy
    exact ⟨hk, rfl⟩

/-- A start of the server, over zeroed shared memory. -/
theorem xLogSmgrInitWrite_spec (hs : WalFileOk w x.server)
    (hinc : Increasing (·.start) (walRanges w x.server)) (hkey : x.encKey = invalidWalLocation)
    (hnone : lastRange w x.server = none → x.process.current.type = .invalid)
    (encryptXlog : Bool) (keyLen : ℕ) :
    wp (xLogSmgrInitWrite w encryptXlog keyLen false)
      (fun _ y => y.Ok w ∧ FileStarted w x.server y.server)
      (fun _ y => FileStarted w x.server y.server) x := by
  unfold xLogSmgrInitWrite freeWalKeyCache
  rw [wp_bind, wp_modifyProcess, wp_bind, wp_onServer]
  refine (readLastWalRange_spec hs).mono (fun r t ht => ?_) fun _ t ht => ht.fileStarted hs
  obtain ⟨hkept, hr⟩ := ht
  obtain ⟨hranges, hlast⟩ := hkept.ranges hs
  rw [hr, ← hlast, wp_bind]
  have hback : ∀ {u}, FileStarted w t u → FileStarted w x.server u := fun hu =>
    ⟨hu.1, hu.2.1.trans hranges, by rw [← hkept.starts]; exact hu.2.2⟩
  refine (chooseWalRange_spec (x := { x with server := t, process := { x.process with cache := [] } })
    hkept.fileOk (by rw [hranges]; exact hinc) hkey (by rw [hlast]; exact hnone) rfl encryptXlog
    keyLen).mono (fun _ y hy => ?_) fun _ y hy => hback hy
  exact hy.1.fetch.mono (fun _ z hz => ⟨hz.1, hback (hy.2.kept hz.2.1)⟩)
    fun _ z hz => hback (hy.2.kept hz.1)

/-- A child that has to start from nothing. -/
theorem xLogSmgrInitWrite_child_spec (hs : SharedOk w x.server x.encKey)
    (hp : x.process = WalProcess.initial) (encryptXlog : Bool) (keyLen : ℕ) :
    wp (xLogSmgrInitWrite w encryptXlog keyLen true)
      (fun _ y => y.Ok w ∧ WalKept w x.server y.server ∧ y.encKey = x.encKey)
      (fun _ y => WalKept w x.server y.server ∧ y.encKey = x.encKey) x := by
  unfold xLogSmgrInitWrite freeWalKeyCache
  rw [wp_bind, wp_modifyProcess, wp_bind, wp_onServer]
  refine (readLastWalRange_spec hs.fileOk).mono (fun r t ht => ?_) fun _ t ht => ⟨ht, rfl⟩
  obtain ⟨hkept, rfl⟩ := ht
  have hlast := (hkept.ranges hs.fileOk).2
  have hshared : SharedOk w t x.encKey := hs.step (.kept hkept rfl)
  have hfetch : ∀ current : WalEncryptionRange,
      (∀ r, lastRange w t = some r → current.type = r.type ∧ current.key = r.key) →
      (lastRange w t = none → current.type = .invalid) →
      wp (do if (← get).process.cache = [] then fetchWalKeys w firstWalLocation)
        (fun _ y => y.Ok w ∧ WalKept w x.server y.server ∧ y.encKey = x.encKey)
        (fun _ y => WalKept w x.server y.server ∧ y.encKey = x.encKey)
        { x with server := t, process := ⟨[], current⟩ } := by
    intro current hcur hnone
    have hchosen : Chosen w { x with server := t, process := ⟨[], current⟩ } :=
      ⟨hshared, hcur, hnone, rfl⟩
    exact hchosen.fetch.mono (fun _ y hy => ⟨hy.1, hkept.trans hy.2.1, hy.2.2⟩)
      fun _ y hy => ⟨hkept.trans hy.1, hy.2⟩
  rw [hp, ← hlast, wp_bind]
  unfold chooseWalRange
  rw [if_pos rfl]
  cases hl : lastRange w t with
  | none =>
      refine hfetch noWalRange (fun r hr => ?_) fun _ => rfl
      rw [hl] at hr
      cases hr
  | some r =>
      refine hfetch r (fun r' hr' => ?_) fun hn => ?_
      · rw [hl] at hr'
        cases hr'
        exact ⟨rfl, rfl⟩
      · rw [hl] at hn
        cases hn

end OpenPgTde
