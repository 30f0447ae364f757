import OpenPgTde.KeyMap.RelationKeys

/-!
Rotating the server key over a file of WAL ranges.

The file grows by `open_pg_tde_create_wal_range` and is patched in place by
`open_pg_tde_wal_last_range_set_location`. The start location is not under the tag of an entry, but
the type of the range is; so an entry that was marked invalid in place no longer decrypts, and no
rotation gets past it. Which entries are marked is decided by the locations: a range is marked when
its successor is given a start that does not lie after its own.
-/

namespace OpenPgTde

open Lib.Effect

variable {w : World} {s t : Server} {pk : TDEPrincipalKey} {keyData : List UInt8}
  {loc : WalLocation} {entries : List WalKeyFileEntry}

/-! ### Entries that were patched in place -/

/-- An entry as it was sealed, up to its start location, and possibly marked invalid since. -/
def Stamped (w : World) (keyData : List UInt8) (e : WalKeyFileEntry) : Prop :=
  ∃ iv range type start, range.type ≠ .invalid ∧ range.key.cipher.keyLength ≤ 32 ∧
    (type = range.type ∨ type = .invalid) ∧
    e = { sealWalKeyFileEntry w keyData iv range with rangeType := type, rangeStart := start }

theorem stamped_seal {iv : List UInt8} {range : WalEncryptionRange} (ht : range.type ≠ .invalid)
    (hlen : range.key.cipher.keyLength ≤ 32) :
    Stamped w keyData (sealWalKeyFileEntry w keyData iv range) :=
  ⟨iv, range, range.type, range.start, ht, hlen, .inl rfl, rfl⟩

theorem Stamped.start {e : WalKeyFileEntry} (h : Stamped w keyData e) (loc : WalLocation) :
    Stamped w keyData { e with rangeStart := loc } := by
  obtain ⟨iv, range, type, start, ht, hlen, htype, rfl⟩ := h
  exact ⟨iv, range, type, loc, ht, hlen, htype, rfl⟩

theorem Stamped.invalidated {e : WalKeyFileEntry} (h : Stamped w keyData e) :
    Stamped w keyData { e with rangeType := .invalid } := by
  obtain ⟨iv, range, type, start, ht, hlen, -, rfl⟩ := h
  exact ⟨iv, range, .invalid, start, ht, hlen, .inr rfl, rfl⟩

/-- An entry that was not marked is readable, wherever it starts by now. -/
theorem Stamped.unwrap {e : WalKeyFileEntry} (h : Stamped w keyData e)
    (hvalid : e.rangeType ≠ .invalid) :
    ∃ k, e.unwrap w keyData = some k ∧ k.cipher.keyLength ≤ 32 := by
  obtain ⟨iv, range, type, start, ht, hlen, rfl | rfl, rfl⟩ := h
  · exact ⟨range.key, unwrap_sealWalKeyFileEntry keyData iv range, hlen⟩
  · exact absurd rfl hvalid

theorem leBytes_code_inj {a b : WalEncryptionRangeType}
    (h : leBytes 4 a.code = leBytes 4 b.code) : a = b := by
  cases a <;> cases b <;> first | rfl | exact absurd h (by decide)

/-- The mark changes what the tag was computed over. -/
theorem Stamped.unwrap_invalid {e : WalKeyFileEntry} (hbind : w.aead.BindsAad)
    (h : Stamped w keyData e) (hinvalid : e.rangeType = .invalid) :
    e.unwrap w keyData = none := by
  obtain ⟨iv, range, type, start, ht, -, -, rfl⟩ := h
  obtain rfl : type = .invalid := hinvalid
  have haad : leBytes 4 range.key.cipher.code ++ leBytes 4 WalEncryptionRangeType.invalid.code ++
      range.key.baseIv ≠ leBytes 4 range.key.cipher.code ++ leBytes 4 range.type.code ++
      range.key.baseIv := by
    intro heq
    rw [List.append_left_inj, List.append_right_inj] at heq
    exact ht (leBytes_code_inj heq).symm
  have htake : (w.aead.encrypt keyData iv (leBytes 4 range.key.cipher.code ++
      leBytes 4 range.type.code ++ range.key.baseIv) range.key.key).1.take
        range.key.cipher.keyLength = (w.aead.encrypt keyData iv (leBytes 4 range.key.cipher.code ++
      leBytes 4 range.type.code ++ range.key.baseIv) range.key.key).1 :=
    List.take_of_length_le (by simp [range.key.length_key])
  simp only [WalKeyFileEntry.unwrap, unwrapKey, sealWalKeyFileEntry, wrapKey, WalKeyFileEntry.aad,
    htake, hbind keyData iv _ _ range.key.key haad]

/-! ### Positioning -/

/-- The range before the last one does not start before `loc`. -/
def overlaps (loc : WalLocation) : List WalKeyFileEntry → Bool
  | [prev, _] => walLocationCmp prev.rangeStart loc ≠ .lt
  | _ :: e' :: e'' :: entries => overlaps loc (e' :: e'' :: entries)
  | _ => false

theorem setLastLocation_stamped (loc : WalLocation)
    (h : ∀ e ∈ entries, Stamped w keyData e) :
    ∀ e ∈ setLastLocation loc entries, Stamped w keyData e := by
  induction entries using setLastLocation.induct with
  | case1 => exact h
  | case2 last =>
      simp only [setLastLocation, List.mem_singleton, forall_eq] at h ⊢
      exact h.start loc
  | case3 prev last =>
      simp only [List.mem_cons, List.not_mem_nil, or_false, forall_eq_or_imp, forall_eq] at h
      simp only [setLastLocation, List.mem_cons, List.not_mem_nil, or_false, forall_eq_or_imp,
        forall_eq]
      refine ⟨?_, h.2.start loc⟩
      split
      · exact h.1.invalidated
      · exact h.1
  | case4 e e' e'' entries ih =>
      rw [setLastLocation]
      intro a ha
      obtain rfl | ha := List.mem_cons.1 ha
      · exact h a List.mem_cons_self
      · exact ih (fun b hb => h b (List.mem_cons_of_mem e hb)) a ha

/-- A mark in the file was there before or is due to an overlap; and no mark is ever lifted. -/
theorem exists_invalid_setLastLocation (loc : WalLocation) (entries : List WalKeyFileEntry) :
    (∃ e ∈ setLastLocation loc entries, e.rangeType = .invalid) ↔
      (∃ e ∈ entries, e.rangeType = .invalid) ∨ overlaps loc entries = true := by
  induction entries using setLastLocation.induct with
  | case1 => simp [setLastLocation, overlaps]
  | case2 last => simp [setLastLocation, overlaps]
  | case3 prev last =>
      by_cases h : walLocationCmp prev.rangeStart loc = .lt
      · simp [setLastLocation, overlaps, h]
      · simp [setLastLocation, overlaps, h]
  | case4 e e' e'' entries ih =>
      rw [setLastLocation, overlaps, List.exists_mem_cons_iff, List.exists_mem_cons_iff, ih,
        or_assoc]

/-! ### The two operations -/

/-- The operations that make a file of WAL ranges. -/
inductive WalKeyOp
  | create (encrypted : Bool) (keyLen : ℕ)
  | setLocation (loc : WalLocation)

def WalKeyOp.exec (w : World) : WalKeyOp → M Unit
  | create encrypted keyLen => do
    let _ ← createWalRange w (if encrypted then .encrypted else .unencrypted) keyLen
  | setLocation loc => walLastRangeSetLocation loc

/-- The operation gives the last range a start at or before that of the range before it. -/
def WalKeyOp.overlapping (s : Server) : WalKeyOp → Bool
  | create .. => false
  | setLocation loc => overlaps loc (walEntries s)

/-- A file of ranges under the server key, which is in the cache. -/
structure WalKeysOk (w : World) (pk : TDEPrincipalKey) (s : Server) : Prop where
  cached : s.cache globalDataTdeOid = some pk
  file : ∃ info entries, s.walKeys .walKeys = some (.current info entries) ∧
    ∀ e ∈ entries, Stamped w pk.keyData e

theorem keyLength_le_of_byKeyLen {n : ℕ} {c : CipherType} (h : CipherType.byKeyLen n = some c) :
    c.keyLength ≤ 32 := by
  have hmem := List.mem_of_find?_eq_some h
  cases c <;> simp_all [CipherType.keyLength]

theorem createWalRange_spec {info : TDESignedPrincipalKeyInfo} {type : WalEncryptionRangeType}
    (hc : s.cache globalDataTdeOid = some pk)
    (hf : s.walKeys .walKeys = some (.current info entries)) (htype : type ≠ .invalid)
    (keyLen : ℕ) :
    wp (createWalRange w type keyLen)
      (fun range t => ∃ e, Stamped w pk.keyData e ∧ e.rangeType = type ∧
        e.rangeStart = invalidWalLocation ∧ walRangeOfEntry w pk.keyData e = some range ∧
        Quiet (s.putWalKeys .walKeys (some (.current info (entries ++ [e])))) t)
      (fun _ t => Quiet s t) s := by
  have hget : wp (getPrincipalKey w globalDataTdeOid) (fun r t => r = some pk ∧ t = s)
      (fun _ _ => False) s := by
    unfold getPrincipalKey getPrincipalKeyNoDefault
    simp [hc]
  refine (wp_bind ..).2 (hget.mono (fun r t ht => ?_) fun _ _ h => h.elim)
  obtain ⟨rfl, rfl⟩ := ht
  dsimp only
  cases hcipher : CipherType.byKeyLen keyLen with
  | none => exact Quiet.refl t
  | some cipher =>
      refine (wp_bind ..).2 ((generateInternalKey_spec cipher).mono (fun k u hu => ?_)
        fun _ u hu => hu.1)
      obtain ⟨hq, hk⟩ := hu
      have hlen : k.cipher.keyLength ≤ 32 := by
        rw [hk]
        exact keyLength_le_of_byKeyLen hcipher
      refine (wp_bind ..).2 ((wp_bind ..).2 ((signPrincipalKeyInfo_spec pk).mono
        (fun info' v hv => ?_) fun _ v hv => hq.trans hv.1))
      have htv : Quiet t v := hq.trans hv.1
      have hfv : v.walKeys .walKeys = some (.current info entries) := by rw [htv.walKeys, hf]
      refine (wp_bind ..).2 ((openWalKeyFileWrite_current_spec hfv (some info')).mono
        (fun _ x hx => ?_) fun _ x hx => htv.trans hx.1)
      have htx : Quiet t x := htv.trans hx.2
      refine (wp_bind ..).2 ((initializeWalKeyFileEntry_spec pk _).mono (fun e y hy => ?_)
        fun _ y hy => htx.trans hy.1)
      obtain ⟨hqy, -, iv, rfl⟩ := hy
      have hty : Quiet t y := htx.trans hqy
      have hfy : y.walKeys .walKeys = some (.current info entries) := by rw [hty.walKeys, hf]
      refine (writeOneWalKeyFileEntry_spec hfy _).mono (fun _ z hz => ?_)
        fun _ z hz => hty.trans hz.1
      refine ⟨_, stamped_seal htype hlen, rfl, rfl, ?_, (hty.putWalKeys _ _).trans hz⟩
      rw [walRangeOfEntry, unwrap_sealWalKeyFileEntry]
      rfl

theorem walLastRangeSetLocation_spec {info : TDESignedPrincipalKeyInfo}
    (hf : s.walKeys .walKeys = some (.current info entries)) (loc : WalLocation) :
    wp (walLastRangeSetLocation loc)
      (fun _ t => ∃ info', (entries ≠ [] → info' = info) ∧ Quiet (s.putWalKeys .walKeys
        (some (.current info' (setLastLocation loc entries)))) t)
      (fun _ t => Quiet s t ∧ ¬s.SysOk) s := by
  refine (wp_bind ..).2 ((openWalKeyFileWrite_current_spec hf none).mono (fun _ t ht => ?_)
    fun _ _ h => h)
  have hq : Quiet s t := ht.2
  refine (wp_bind ..).2 ((sysCall_spec _).mono (fun _ u hu => ?_) fun _ u hu =>
    ⟨hq.trans hu.2.1, fun h => hu.2.2 (hq.sysOk h)⟩)
  have hsu : Quiet s u := hq.trans hu
  simp only [wp_bind, wp_get, hsu.walKeys, hf]
  cases entries with
  | nil => exact ⟨_, fun h => absurd rfl h, hsu.putWalKeys _ _⟩
  | cons e entries => exact ⟨info, fun _ => rfl, hsu.putWalKeys _ _⟩

/-- Some entry of the file is marked invalid. -/
def Marked (s : Server) : Prop := ∃ e ∈ walEntries s, e.rangeType = .invalid

/-- What one operation does to a file: it stays one of stamped entries, a mark that is new comes
from an overlap, and an overlap leaves a mark unless a system call fails. -/
structure WalKeyOp.Step (w : World) (pk : TDEPrincipalKey) (op : WalKeyOp) (s t : Server) :
    Prop where
  ok : WalKeysOk w pk t
  sysOk : s.SysOk → t.SysOk
  marked : Marked t → Marked s ∨ op.overlapping s = true
  mark : Marked s ∨ s.SysOk ∧ op.overlapping s = true → Marked t

theorem WalKeyOp.exec_step (op : WalKeyOp) (hs : WalKeysOk w pk s) :
    op.Step w pk s (after (op.exec w) s) := by
  obtain ⟨hc, info, entries, hf, hst⟩ := hs
  have hcache : ∀ {f : Option WalKeyFile} {t}, Quiet (s.putWalKeys .walKeys f) t →
      t.cache globalDataTdeOid = some pk := by
    rintro f t ⟨_, _, _, _, rfl⟩
    exact hc
  have hfile : ∀ {f : Option WalKeyFile} {t}, Quiet (s.putWalKeys .walKeys f) t →
      t.walKeys .walKeys = f := fun hq => by
    rw [hq.walKeys]
    simp
  -- an operation that fails leaves the file as it was
  have hfail : ∀ {t}, Quiet s t → (s.SysOk → op.overlapping s = false) →
      op.Step w pk s t := by
    intro t hq hno
    have hf' : t.walKeys .walKeys = some (.current info entries) := by rw [hq.walKeys, hf]
    have hc' : t.cache globalDataTdeOid = some pk := hcache (by rw [putWalKeys_self]; exact hq)
    have hmark : Marked t ↔ Marked s := by
      rw [Marked, Marked, walEntries_of_current hf', walEntries_of_current hf]
    refine ⟨⟨hc', info, entries, hf', hst⟩, hq.sysOk, fun h => .inl (hmark.1 h), ?_⟩
    rintro (h | ⟨hok, h⟩)
    · exact hmark.2 h
    · rw [hno hok] at h
      cases h
  refine wp.after (P := op.Step w pk s) ?_
  cases op with
  | create encrypted keyLen =>
      have htype : (if encrypted then WalEncryptionRangeType.encrypted else .unencrypted) ≠
          .invalid := by
        cases encrypted <;> simp
      refine (wp_bind ..).2 ((createWalRange_spec hc hf htype keyLen).mono (fun _ t ht => ?_)
        fun _ t ht => hfail ht fun _ => rfl)
      obtain ⟨e, hstamped, het, -, -, hq⟩ := ht
      have hvalid : e.rangeType ≠ .invalid := by rw [het]; exact htype
      have hmark : Marked t ↔ Marked s := by
        rw [Marked, Marked, walEntries_of_current (hfile hq), walEntries_of_current hf]
        simp [hvalid]
      refine ⟨⟨hcache hq, info, _, hfile hq, ?_⟩, hq.sysOk, fun h => .inl (hmark.1 h), ?_⟩
      · simpa [or_imp, forall_and] using ⟨hst, hstamped⟩
      · rintro (h | ⟨-, h⟩)
        · exact hmark.2 h
        · cases h
  | setLocation loc =>
      refine (walLastRangeSetLocation_spec hf loc).mono (fun _ t ht => ?_)
        fun _ t ht => hfail ht.1 fun hok => absurd hok ht.2
      obtain ⟨info', -, hq⟩ := ht
      have hover : (WalKeyOp.setLocation loc).overlapping s = overlaps loc entries := by
        rw [WalKeyOp.overlapping, walEntries_of_current hf]
      have hmark : Marked t ↔ Marked s ∨ overlaps loc entries = true := by
        rw [Marked, Marked, walEntries_of_current (hfile hq), walEntries_of_current hf]
        exact exists_invalid_setLastLocation loc entries
      refine ⟨⟨hcache hq, info', _, hfile hq, setLastLocation_stamped loc hst⟩, hq.sysOk,
        fun h => ?_, fun h => hmark.2 (h.imp_right fun h => ?_)⟩
      · rw [hover]
        exact hmark.1 h
      · rw [← hover]
        exact h.2

/-! ### Histories -/

/-- Any sequence of the operations; one that fails leaves what it has done so far. -/
def walKeyRun (w : World) (ops : List WalKeyOp) (s : Server) : Server :=
  ops.foldl (fun s op => after (op.exec w) s) s

/-- No location in the history lies at or before the start of the range before the last one. -/
def NoOverlap (w : World) : List WalKeyOp → Server → Prop
  | [], _ => True
  | op :: ops, s => op.overlapping s = false ∧ NoOverlap w ops (after (op.exec w) s)

theorem walKeyRun_ok (ops : List WalKeyOp) (hs : WalKeysOk w pk s) :
    WalKeysOk w pk (walKeyRun w ops s) := by
  induction ops generalizing s with
  | nil => exact hs
  | cons op ops ih => exact ih (op.exec_step hs).ok

theorem walKeyRun_not_marked (ops : List WalKeyOp) (hs : WalKeysOk w pk s) (hm : ¬Marked s)
    (hno : NoOverlap w ops s) : ¬Marked (walKeyRun w ops s) := by
  induction ops generalizing s with
  | nil => exact hm
  | cons op ops ih =>
      have hstep := op.exec_step hs
      refine ih hstep.ok (fun h => ?_) hno.2
      obtain h | h := hstep.marked h
      · exact hm h
      · rw [hno.1] at h
        cases h

theorem walKeyRun_marked (ops : List WalKeyOp) (hs : WalKeysOk w pk s) (hok : s.SysOk)
    (hm : Marked s ∨ ¬NoOverlap w ops s) : Marked (walKeyRun w ops s) := by
  induction ops generalizing s with
  | nil =>
      obtain h | h := hm
      · exact h
      · exact absurd trivial h
  | cons op ops ih =>
      have hstep := op.exec_step hs
      refine ih hstep.ok (hstep.sysOk hok) ?_
      obtain h | h := hm
      · exact .inl (hstep.mark (.inl h))
      · cases ho : op.overlapping s with
        | true => exact .inl (hstep.mark (.inr ⟨hok, ho⟩))
        | false => exact .inr fun hrest => h ⟨ho, hrest⟩

/-- After a rotation from `t` to `u` the file has the same entries in the same order, with the same
types, starts, ciphers, base IVs and keys, and every entry is readable under the new key. -/
def RangesKept (w : World) (pk newPk : TDEPrincipalKey) (t u : Server) : Prop :=
  ∃ info info' new, t.walKeys .walKeys = some (.current info (walEntries t)) ∧
    u.walKeys .walKeys = some (.current info' new) ∧
    walTable w newPk.keyData new = walTable w pk.keyData (walEntries t) ∧
    WalReadable w newPk.keyData new

theorem rotation_of_not_marked (newPk : TDEPrincipalKey) (writeXlog : Bool)
    (hs : WalKeysOk w pk s) (hok : s.SysOk) (hm : ¬Marked s) :
    ∃ u, performRotateServerKey w pk newPk writeXlog s = .ok () u ∧
      RangesKept w pk newPk s u := by
  obtain ⟨-, info, entries, hf, hst⟩ := hs
  have hent := walEntries_of_current hf
  have hread : WalReadable w pk.keyData entries := fun e he =>
    (hst e he).unwrap fun hinv => hm ⟨e, by rwa [hent], hinv⟩
  have hspec := performRotateServerKey_spec (w := w) pk newPk writeXlog (walEntries_of_current hf)
  cases hr : performRotateServerKey w pk newPk writeXlog s with
  | ok _ u =>
      obtain ⟨-, info', new, -, -, htable, hq⟩ := hspec.of_ok hr
      refine ⟨u, rfl, info, info', new, by rw [hent, hf], ?_, by rw [hent, htable],
        walReadable_of_walTable_eq hread htable⟩
      rw [hq.walKeys]
      simp
  | error e u =>
      exact absurd hread ((hspec.of_error hr).1 hok (by simp [hf, WalKeyFile.entries]))

theorem no_rotation_of_marked (hbind : w.aead.BindsAad) (newPk : TDEPrincipalKey)
    (writeXlog : Bool) (hs : WalKeysOk w pk s) (hm : Marked s) :
    ∀ u, performRotateServerKey w pk newPk writeXlog s ≠ .ok () u := by
  intro u hr
  obtain ⟨-, info, entries, hf, hst⟩ := hs
  obtain ⟨e, he, hinv⟩ := hm
  rw [walEntries_of_current hf] at he
  obtain ⟨k, hk, -⟩ := ((performRotateServerKey_spec (w := w) pk newPk writeXlog (walEntries_of_current hf)).of_ok hr).1 e he
  rw [(hst e he).unwrap_invalid hbind hinv] at hk
  cases hk

/-- Rotation after any history of range creations and positionings: without an overlap it succeeds
and keeps the ranges. With one it fails, for every cipher that authenticates the associated data. -/
theorem server_key_rotation (w : World) (s : Server) (pk newPk : TDEPrincipalKey)
    (info : TDESignedPrincipalKeyInfo) (hc : s.cache globalDataTdeOid = some pk)
    (hf : s.walKeys .walKeys = some (.current info [])) (ops : List WalKeyOp) (writeXlog : Bool) :
    ((walKeyRun w ops s).SysOk → NoOverlap w ops s →
      ∃ u, performRotateServerKey w pk newPk writeXlog (walKeyRun w ops s) = .ok () u ∧
        RangesKept w pk newPk (walKeyRun w ops s) u) ∧
    (w.aead.BindsAad → s.SysOk → ¬NoOverlap w ops s →
      ∀ u, performRotateServerKey w pk newPk writeXlog (walKeyRun w ops s) ≠ .ok () u) := by
  have hs : WalKeysOk w pk s := ⟨hc, info, [], hf, by simp⟩
  have hstart : ¬Marked s := by
    rw [Marked, walEntries_of_current hf]
    simp
  have hrun := walKeyRun_ok ops hs
  refine ⟨fun hok hno => ?_, fun hbind hok hover => ?_⟩
  · exact rotation_of_not_marked newPk writeXlog hrun hok (walKeyRun_not_marked ops hs hstart hno)
  · exact no_rotation_of_marked hbind newPk writeXlog hrun
      (walKeyRun_marked ops hs hok (.inr hover))

/-- The sample server once it has a server key. -/
def sampleWalServer : Server :=
  after (setServerKeyUsingGlobalKeyProvider sampleWorld (sampleCall [65])) sampleServer

/-- The key of the sample provider with a name of one letter, as a server key. -/
def sampleServerKey (letter : UInt8) : TDEPrincipalKey :=
  ⟨⟨globalDataTdeOid, -1, ⟨0, 0⟩, [letter]⟩, List.replicate 16 letter⟩

/-- Two ranges; the second one is given the start of the first plus `distance`. -/
def sampleWalOps (distance : ℕ) : List WalKeyOp :=
  [.create true 16, .setLocation ⟨100, 1⟩, .create false 16, .setLocation ⟨100 + distance, 1⟩]

theorem server_key_rotation_sample :
    sampleWalServer.cache globalDataTdeOid = some (sampleServerKey 65) ∧
    ∃ u, performRotateServerKey sampleWorld (sampleServerKey 65) (sampleServerKey 66) true
      (walKeyRun sampleWorld (sampleWalOps 1) sampleWalServer) = .ok () u ∧
      RangesKept sampleWorld (sampleServerKey 65) (sampleServerKey 66)
        (walKeyRun sampleWorld (sampleWalOps 1) sampleWalServer) u :=
  ⟨by decide +kernel, (server_key_rotation sampleWorld sampleWalServer (sampleServerKey 65)
    (sampleServerKey 66) (sampleInfo globalDataTdeOid) (by decide +kernel) (by decide +kernel)
    (sampleWalOps 1) true).1 (fun _ => rfl)
    ⟨by decide +kernel, by decide +kernel, by decide +kernel, by decide +kernel, trivial⟩⟩

/-- A standby that was restarted writes the WAL of the segment again: the new range starts where the
old one does, and the server key can no longer be rotated. -/
theorem server_key_rotation_fails :
    ¬∃ u, performRotateServerKey sampleWorld (sampleServerKey 65) (sampleServerKey 66) true
      (walKeyRun sampleWorld (sampleWalOps 0) sampleWalServer) = .ok () u ∧
      RangesKept sampleWorld (sampleServerKey 65) (sampleServerKey 66)
        (walKeyRun sampleWorld (sampleWalOps 0) sampleWalServer) u := by
  have hrun : (match performRotateServerKey sampleWorld (sampleServerKey 65) (sampleServerKey 66)
      true (walKeyRun sampleWorld (sampleWalOps 0) sampleWalServer) with
      | .ok _ _ => none
      | .error e _ => some e) = some TdeError.decryptFailed := by decide +kernel
  rintro ⟨u, hu, -⟩
  rw [hu] at hrun
  cases hrun

end OpenPgTde
