import OpenPgTde.KeyMap.Specs
import OpenPgTde.WalKeys.File

/-!
What each routine of the WAL key file does. The routines are those of a database's key file over
another layout, and so are the specifications; the difference is in the rotation, which keeps every
entry and its start location, and not only the live ones.
-/

namespace OpenPgTde

open Lib.Effect

variable {w : World} {s t : Server} {path : WalKeyPath}

/-! ### Entries -/

@[simp] theorem unwrap_sealWalKeyFileEntry (keyData iv : List UInt8) (range : WalEncryptionRange) :
    (sealWalKeyFileEntry w keyData iv range).unwrap w keyData = some range.key :=
  unwrapKey_wrapKey w keyData iv _ range.key

theorem initializeWalKeyFileEntry_spec (pk : TDEPrincipalKey) (range : WalEncryptionRange) :
    wp (initializeWalKeyFileEntry w pk range)
      (fun e t => Quiet s t ∧ range.key.cipher.keyLength ≤ 32 ∧
        ∃ iv, e = sealWalKeyFileEntry w pk.keyData iv range)
      (fun _ t => Quiet s t ∧ (s.SysOk → 32 < range.key.cipher.keyLength)) s := by
  unfold initializeWalKeyFileEntry
  simp only [wp_bind, wp_ite, wp_throw, wp_pure]
  refine ⟨fun h => ⟨Quiet.refl s, fun _ => h⟩, fun h => ?_⟩
  refine (randBytes_spec _).mono (fun iv t ht => ⟨ht.2, not_lt.1 h, iv, rfl⟩) fun _ t ht =>
    ⟨ht.1, fun hs => absurd hs ht.2⟩

theorem walRangeFromEntry_spec (pk : TDEPrincipalKey) (e : WalKeyFileEntry) :
    wp (walRangeFromEntry w pk e)
      (fun range t => t = s ∧ walRangeOfEntry w pk.keyData e = some range)
      (fun _ t => t = s ∧ e.unwrap w pk.keyData = none) s := by
  unfold walRangeFromEntry
  cases h : walRangeOfEntry w pk.keyData e with
  | none => exact ⟨rfl, by simpa [walRangeOfEntry] using h⟩
  | some k => exact ⟨rfl, rfl⟩

/-! ### Files -/

/-- The entries of a file in the current format. -/
def WalKeyFile.entries : WalKeyFile → Option (List WalKeyFileEntry)
  | .empty => some []
  | .current _ entries => some entries
  | _ => none

/-- The entries in the file. -/
def walEntries (s : Server) : List WalKeyFileEntry :=
  ((s.walKeys .walKeys).bind WalKeyFile.entries).getD []

theorem walEntries_of_current {info : TDESignedPrincipalKeyInfo}
    {entries : List WalKeyFileEntry} (hf : s.walKeys .walKeys = some (.current info entries)) :
    walEntries s = entries := by
  rw [walEntries, hf]
  rfl

theorem openWalKeyFileRead_spec (ignoreMissing : Bool) :
    wp (openWalKeyFileRead path ignoreMissing)
      (fun r t => Quiet s t ∧ (s.walKeys path).bind WalKeyFile.entries = r ∧
        (s.walKeys path = none → ignoreMissing = true))
      (fun _ t => Quiet s t ∧ (s.SysOk → s.walKeys path = none ∧ ignoreMissing = false ∨
        ∃ f, s.walKeys path = some f ∧ f.entries = none)) s := by
  refine (wp_bind ..).2 ((sysCall_spec _).mono (fun _ t ht => ?_) fun _ t h => ?_)
  · simp only [wp_bind, wp_get, ht.walKeys]
    cases hf : s.walKeys path with
    | none => cases ignoreMissing <;> simp [ht]
    | some f => cases f <;> simp [ht, WalKeyFile.entries]
  · exact ⟨h.2.1, fun hs => absurd hs h.2.2⟩

theorem openWalKeyFileWrite_truncate_spec (info : TDESignedPrincipalKeyInfo) :
    wp (openWalKeyFileWrite path (some info) true)
      (fun _ t => Quiet (s.putWalKeys path (some (.current info []))) t)
      (fun _ t => (Quiet s t ∨ Quiet (s.putWalKeys path (some .empty)) t) ∧ ¬s.SysOk) s := by
  refine (wp_bind ..).2 ((sysCall_spec _).mono (fun _ t ht => ?_) fun _ t h => ⟨.inl h.2.1, h.2.2⟩)
  simp only [wp_bind, wp_get, wp_set, if_true]
  refine (sysCall_spec _).mono (fun _ u hu => ?_) fun _ u h => ⟨.inr ?_, fun hs => h.2.2 ?_⟩
  · simp only [wp_modify, wp_pure]
    have := ((ht.putWalKeys path (some .empty)).trans hu).putWalKeys path (some (.current info []))
    rwa [putWalKeys_putWalKeys] at this
  · exact (ht.putWalKeys _ _).trans h.2.1
  · exact ht.sysOk hs

theorem openWalKeyFileWrite_current_spec {info : TDESignedPrincipalKeyInfo}
    {entries : List WalKeyFileEntry} (hf : s.walKeys path = some (.current info entries))
    (info' : Option TDESignedPrincipalKeyInfo) :
    wp (openWalKeyFileWrite path info' false) (fun es t => es = entries ∧ Quiet s t)
      (fun _ t => Quiet s t ∧ ¬s.SysOk) s := by
  refine (wp_bind ..).2 ((sysCall_spec _).mono (fun _ t ht => ?_) fun _ _ h => h.2)
  have hft : t.walKeys path = some (.current info entries) := by rw [ht.walKeys, hf]
  have hself : t.putWalKeys path (some (.current info entries)) = t := by
    rw [← hft, putWalKeys_self]
  simp only [wp_bind, wp_get, wp_set, hft, Bool.false_eq_true, if_false, Option.getD_some, hself]
  exact ⟨rfl, ht⟩

theorem openWalKeyFileWrite_empty_spec
    (hf : s.walKeys path = none ∨ s.walKeys path = some .empty)
    (info : Option TDESignedPrincipalKeyInfo) :
    wp (openWalKeyFileWrite path info false)
      (fun es t => es = [] ∧
        Quiet (s.putWalKeys path (some (info.elim .empty fun i => .current i []))) t)
      (fun _ t => (Quiet s t ∨ Quiet (s.putWalKeys path (some .empty)) t) ∧ ¬s.SysOk) s := by
  refine (wp_bind ..).2 ((sysCall_spec _).mono (fun _ t ht => ?_) fun _ t h => ⟨.inl h.2.1, h.2.2⟩)
  have hft : (t.walKeys path).getD .empty = .empty := by
    rw [ht.walKeys]
    obtain h | h := hf <;> simp [h]
  have hempty : Quiet (s.putWalKeys path (some .empty)) (t.putWalKeys path (some .empty)) :=
    ht.putWalKeys _ _
  simp only [wp_bind, wp_get, wp_set, hft, Bool.false_eq_true, if_false]
  cases info with
  | none => exact ⟨rfl, hempty⟩
  | some info =>
      simp only [wp_bind]
      refine (sysCall_spec _).mono (fun _ u hu => ?_) fun _ u h =>
        ⟨.inr (hempty.trans h.2.1), fun hs => h.2.2 (ht.sysOk hs)⟩
      simp only [wp_modify, wp_pure, true_and]
      have := (hempty.trans hu).putWalKeys path (some (.current info []))
      rwa [putWalKeys_putWalKeys] at this

theorem writeOneWalKeyFileEntry_spec {info : TDESignedPrincipalKeyInfo}
    {entries : List WalKeyFileEntry} (hf : s.walKeys path = some (.current info entries))
    (e : WalKeyFileEntry) :
    wp (writeOneWalKeyFileEntry path e)
      (fun _ t => Quiet (s.putWalKeys path (some (.current info (entries ++ [e])))) t)
      (fun _ t => Quiet s t ∧ ¬s.SysOk) s := by
  refine (wp_bind ..).2 ((sysCall_spec _).mono (fun _ t ht => ?_) fun _ _ h => h.2)
  simp only [wp_bind, wp_get, ht.walKeys, hf, wp_set]
  exact ht.putWalKeys _ _

theorem durableRenameWalKeys_spec :
    wp durableRenameWalKeys
      (fun _ t => Quiet ((s.putWalKeys .walKeys (s.walKeys .walKeysTmp)).putWalKeys
        .walKeysTmp none) t)
      (fun _ t => Quiet s t ∧ ¬s.SysOk) s := by
  refine (wp_bind ..).2 ((sysCall_spec _).mono (fun _ t ht => ?_) fun _ _ h => h.2)
  simp only [wp_bind, wp_get, wp_set, ht.walKeys]
  exact (ht.putWalKeys _ _).putWalKeys _ _

/-! ### The header -/

theorem getServerKeyInfo_spec :
    wp getServerKeyInfo
      (fun r t => Quiet s t ∧ r = (s.walKeys .walKeys).bind WalKeyFile.info)
      (fun _ t => Quiet s t ∧ ¬s.SysOk) s := by
  refine (wp_bind ..).2 ((sysCall_spec _).mono (fun _ t ht => ?_) fun _ _ h => h.2)
  simp only [wp_bind, wp_get, wp_pure, ht.walKeys, and_true]
  exact ht

theorem saveServerKey_spec (pk : TDEPrincipalKey) (writeXlog : Bool) :
    wp (saveServerKey w pk writeXlog)
      (fun _ t => ∃ info, info.data = pk.keyInfo ∧
        verifyPrincipalKeyInfo w info pk.keyData = true ∧
        Quiet ((s.logged (if writeXlog then [.addPrincipalKey info] else [])).putWalKeys
          .walKeys (some (.current info []))) t)
      (fun _ t => ¬s.SysOk ∧ ∃ rs, AddRecords w pk rs ∧ (Quiet (s.logged rs) t ∨
        Quiet ((s.logged rs).putWalKeys .walKeys (some .empty)) t)) s := by
  refine (wp_bind ..).2 ((signPrincipalKeyInfo_spec pk).mono (fun info t ht => ?_) fun _ t h =>
    ⟨h.2, [], .inl rfl, .inl (by simpa using h.1)⟩)
  have hlog : ∀ rs, Quiet (s.logged rs) (t.logged rs) := ht.1.logged
  have hopen : ∀ rs, AddRecords w pk rs → wp (openWalKeyFileWrite .walKeys (some info) true)
      (fun _ u => Quiet ((s.logged rs).putWalKeys .walKeys (some (.current info []))) u)
      (fun _ u => ¬s.SysOk ∧ ∃ rs, AddRecords w pk rs ∧ (Quiet (s.logged rs) u ∨
        Quiet ((s.logged rs).putWalKeys .walKeys (some .empty)) u))
      (t.logged rs) := by
    intro rs hrs
    refine (openWalKeyFileWrite_truncate_spec info).mono (fun _ u hu => ?_) fun _ u hu => ?_
    · exact ((hlog rs).putWalKeys _ _).trans hu
    · refine ⟨fun hs => hu.2 ((hlog rs).sysOk hs), rs, hrs, ?_⟩
      obtain h | h := hu.1
      · exact .inl ((hlog rs).trans h)
      · exact .inr (((hlog rs).putWalKeys _ _).trans h)
  cases writeXlog with
  | true =>
      simp only [if_true, wp_bind, wp_pure]
      refine xlogInsert_spec _ |>.mono (fun _ u hu => ?_) fun _ _ h => h.elim
      subst hu
      have hadd : AddRecords w pk [.addPrincipalKey info] := .inr ⟨info, rfl, ht.2.1, ht.2.2⟩
      exact (hopen _ hadd).mono (fun _ u hu => ⟨info, ht.2.1, ht.2.2, hu⟩) fun _ _ h => h
  | false =>
      simp only [Bool.false_eq_true, if_false, wp_bind, wp_pure]
      have hnil := hopen [] (.inl rfl)
      rw [logged_nil (s := t)] at hnil
      exact hnil.mono (fun _ u hu => ⟨info, ht.2.1, ht.2.2, hu⟩) fun _ _ h => h

theorem deleteServerKey_spec :
    wp deleteServerKey
      (fun _ t => Quiet ((s.logged [.deletePrincipalKey globalDataTdeOid]).putWalKeys
        .walKeys none) t ∧ s.walKeys .walKeys ≠ none)
      (fun _ t => Quiet (s.logged [.deletePrincipalKey globalDataTdeOid]) t ∧
        (s.SysOk → s.walKeys .walKeys = none)) s := by
  refine (wp_bind ..).2 ((xlogInsert_spec _).mono (fun _ u hu => ?_) fun _ _ h => h.elim)
  subst hu
  refine (wp_bind ..).2 ((sysCall_spec _).mono (fun _ t ht => ?_) fun _ t h =>
    ⟨h.2.1, fun hs => absurd hs h.2.2⟩)
  simp only [wp_bind, wp_get, wp_ite, wp_set, wp_throw, ht.walKeys]
  refine ⟨fun h => ⟨ht.putWalKeys _ _, fun hnone => ?_⟩, fun h => ⟨ht, fun _ => ?_⟩⟩
  · simp [hnone] at h
  · simpa using h

theorem countWalRangesInFile_spec
    (hf : ∀ f, s.walKeys .walKeys = some f → f.entries ≠ none) :
    wp countWalRangesInFile
      (fun n t => Quiet s t ∧
        n = (((s.walKeys .walKeys).bind WalKeyFile.entries).getD []).length)
      (fun _ t => Quiet s t ∧ ¬s.SysOk) s := by
  refine (wp_bind ..).2 ((openWalKeyFileRead_spec true).mono (fun r t ht => ?_) fun _ t h =>
    ⟨h.1, ?_⟩)
  · obtain ⟨hq, rfl, -⟩ := ht
    cases (s.walKeys .walKeys).bind WalKeyFile.entries with
    | none => exact ⟨hq, rfl⟩
    | some entries => exact ⟨hq, rfl⟩
  · intro hs
    obtain ⟨-, h'⟩ | ⟨f, hf', hnone⟩ := h.2 hs
    · cases h'
    · exact hf f hf' hnone

/-! ### Rotation -/

/-- What a reader of the file learns from each entry, in file order. -/
def walTable (w : World) (keyData : List UInt8) (entries : List WalKeyFileEntry) :
    List (WalEncryptionRangeType × WalLocation × Option InternalKey) :=
  entries.map fun e => (e.rangeType, e.rangeStart, e.unwrap w keyData)

/-- Every entry decrypts, to a key that fits into an entry. -/
def WalReadable (w : World) (keyData : List UInt8) (entries : List WalKeyFileEntry) : Prop :=
  ∀ e ∈ entries, ∃ k, e.unwrap w keyData = some k ∧ k.cipher.keyLength ≤ 32

variable {entries : List WalKeyFileEntry}

theorem walReadable_cons {keyData : List UInt8} {e : WalKeyFileEntry} :
    WalReadable w keyData (e :: entries) ↔
      (∃ k, e.unwrap w keyData = some k ∧ k.cipher.keyLength ≤ 32) ∧
        WalReadable w keyData entries := by
  simp [WalReadable]

/-- The entry `e` is a copy of the range, when there is one: encrypted under `keyData`, with room
for its key. -/
def CopyOf (w : World) (keyData : List UInt8) (range : Option WalEncryptionRange)
    (e : WalKeyFileEntry) : Prop :=
  ∃ r iv, range = some r ∧ r.key.cipher.keyLength ≤ 32 ∧ e = sealWalKeyFileEntry w keyData iv r

/-- A range that can be copied. -/
def Copyable (range : Option WalEncryptionRange) : Prop :=
  ∃ r, range = some r ∧ r.key.cipher.keyLength ≤ 32

instance (range : Option WalEncryptionRange) : Decidable (Copyable range) :=
  decidable_of_iff (range.any (fun r => r.key.cipher.keyLength ≤ 32) = true)
    (by cases range <;> simp [Copyable])

/-- A loop that reads ranges one way or another and writes each of them to the new file. It goes to
the end if and only if, system calls aside, every range can be read and its key has room. -/
theorem migrateWalEntries_spec {α : Type} (pk : TDEPrincipalKey)
    (readRange : α → Option WalEncryptionRange) (old : List α) {info : TDESignedPrincipalKeyInfo}
    {out : List WalKeyFileEntry} (hf : s.walKeys .walKeysTmp = some (.current info out)) :
    wp (migrateWalEntries w pk readRange old)
      (fun _ t => ∃ new, List.Forall₂ (CopyOf w pk.keyData) (old.map readRange) new ∧
        Quiet (s.putWalKeys .walKeysTmp (some (.current info (out ++ new)))) t)
      (fun _ t => (s.SysOk → ¬∀ e ∈ old, Copyable (readRange e)) ∧
        ∃ f, Quiet (s.putWalKeys .walKeysTmp f) t) s := by
  induction old generalizing s out with
  | nil =>
      refine ⟨[], .nil, ?_⟩
      rw [List.append_nil, ← hf, putWalKeys_self]
      exact Quiet.refl s
  | cons e old ih =>
      have hsame : ∀ {u}, Quiet s u → ∃ f, Quiet (s.putWalKeys .walKeysTmp f) u := fun hu =>
        ⟨_, by rw [putWalKeys_self]; exact hu⟩
      rw [migrateWalEntries, List.map_cons]
      cases hr : readRange e with
      | none =>
          refine ⟨fun _ h => ?_, hsame (Quiet.refl s)⟩
          obtain ⟨r, hr', -⟩ := h e List.mem_cons_self
          rw [hr] at hr'
          cases hr'
      | some r =>
          dsimp only
          rw [wp_bind]
          refine (initializeWalKeyFileEntry_spec pk r).mono (fun e' u hu => ?_) fun _ u hu =>
            ⟨fun hs h => ?_, hsame hu.1⟩
          · obtain ⟨hq, hlen, iv, he'⟩ := hu
            have hfu : u.walKeys .walKeysTmp = some (.current info out) := by rw [hq.walKeys, hf]
            rw [wp_bind]
            refine (writeOneWalKeyFileEntry_spec hfu _).mono (fun _ x hx => ?_) fun _ x hx =>
              ⟨fun hs => absurd (hq.sysOk hs) hx.2, hsame (hq.trans hx.1)⟩
            have hq' : Quiet (s.putWalKeys .walKeysTmp (some (.current info (out ++ [e'])))) x :=
              (hq.putWalKeys _ _).trans hx
            have hfx : x.walKeys .walKeysTmp = some (.current info (out ++ [e'])) := by
              rw [hx.walKeys]
              simp
            refine (ih hfx).mono (fun _ y hy => ?_) fun _ y hy => ?_
            · obtain ⟨new, hnew, hy⟩ := hy
              refine ⟨e' :: new, .cons ⟨r, iv, rfl, hlen, he'⟩ hnew, ?_⟩
              have := (hq'.putWalKeys _ _).trans hy
              rw [putWalKeys_putWalKeys] at this
              simpa using this
            · refine ⟨fun hs h => hy.1 (hq'.sysOk hs) fun a ha => h a (List.mem_cons_of_mem e ha), ?_⟩
              obtain ⟨f, hy⟩ := hy.2
              have := (hq'.putWalKeys _ f).trans hy
              rw [putWalKeys_putWalKeys] at this
              exact ⟨f, this⟩
          · obtain ⟨r', hr', hlen⟩ := h e List.mem_cons_self
            rw [hr] at hr'
            cases hr'
            exact absurd (hu.2 hs) (not_lt.2 hlen)

/-- The loop of the rotation is the same, over the ranges of the current layout. -/
theorem rotateWalEntries_eq (pk newPk : TDEPrincipalKey) (entries : List WalKeyFileEntry) :
    rotateWalEntries w pk newPk entries =
      migrateWalEntries w newPk (walRangeOfEntry w pk.keyData) entries := by
  induction entries with
  | nil => rfl
  | cons e entries ih =>
      rw [rotateWalEntries, migrateWalEntries, walRangeFromEntry, ih]
      cases walRangeOfEntry w pk.keyData e <;> rfl

/-- What a reader learns of a copied range. -/
theorem CopyOf.walRangeOfEntry {keyData : List UInt8} {range : Option WalEncryptionRange}
    {e : WalKeyFileEntry} (h : CopyOf w keyData range e)
    (hstop : ∀ r, range = some r → r.stop = maxWalLocation) :
    OpenPgTde.walRangeOfEntry w keyData e = range := by
  obtain ⟨r, iv, rfl, -, rfl⟩ := h
  have := hstop r rfl
  cases r
  subst this
  rw [OpenPgTde.walRangeOfEntry, unwrap_sealWalKeyFileEntry]
  rfl

/-- The table of the copies of entries under a new key is the table of the entries. -/
theorem walTable_of_copies {keyData keyData' : List UInt8} {new : List WalKeyFileEntry}
    (h : List.Forall₂ (CopyOf w keyData') (entries.map (walRangeOfEntry w keyData)) new) :
    WalReadable w keyData entries ∧ walTable w keyData' new = walTable w keyData entries := by
  induction entries generalizing new with
  | nil =>
      cases h
      exact ⟨by simp [WalReadable], rfl⟩
  | cons e entries ih =>
      obtain ⟨⟩ | ⟨⟨r, iv, hr, hlen, rfl⟩, h⟩ := h
      obtain ⟨hread, htable⟩ := ih h
      obtain ⟨k, hk, rfl⟩ : ∃ k, e.unwrap w keyData = some k ∧
          (⟨e.rangeType, k, e.rangeStart, maxWalLocation⟩ : WalEncryptionRange) = r := by
        simpa [walRangeOfEntry] using hr
      refine ⟨walReadable_cons.2 ⟨⟨k, hk, hlen⟩, hread⟩, ?_⟩
      simp only [walTable, List.map_cons] at htable ⊢
      rw [htable, unwrap_sealWalKeyFileEntry, hk]
      rfl

/-- The loop of the rotation appends to the new file the entries it goes through, under the new
key. It goes to the end if and only if, system calls aside, all of them are readable. -/
theorem rotateWalEntries_spec (pk newPk : TDEPrincipalKey) (entries : List WalKeyFileEntry)
    {info : TDESignedPrincipalKeyInfo} {out : List WalKeyFileEntry}
    (hf : s.walKeys .walKeysTmp = some (.current info out)) :
    wp (rotateWalEntries w pk newPk entries)
      (fun _ t => WalReadable w pk.keyData entries ∧ ∃ new,
        walTable w newPk.keyData new = walTable w pk.keyData entries ∧
        Quiet (s.putWalKeys .walKeysTmp (some (.current info (out ++ new)))) t)
      (fun _ t => (s.SysOk → ¬WalReadable w pk.keyData entries) ∧
        ∃ f, Quiet (s.putWalKeys .walKeysTmp f) t) s := by
  rw [rotateWalEntries_eq]
  refine (migrateWalEntries_spec newPk _ entries hf).mono (fun _ t ht => ?_) fun _ t ht =>
    ⟨fun hs hread => ht.1 hs fun e he => ?_, ht.2⟩
  · obtain ⟨new, hnew, hq⟩ := ht
    obtain ⟨hread, htable⟩ := walTable_of_copies hnew
    exact ⟨hread, new, htable, hq⟩
  · obtain ⟨k, hk, hlen⟩ := hread e he
    exact ⟨⟨e.rangeType, k, e.rangeStart, maxWalLocation⟩, by simp [walRangeOfEntry, hk], hlen⟩

/-- A rotation of the server key. If no system call fails it succeeds exactly when every entry is
readable under the old key; the new file then shows under the new key what the old one showed under
the old key. A rotation that fails changes the temporary file only. -/
theorem performRotateServerKey_spec (pk newPk : TDEPrincipalKey) (writeXlog : Bool)
    (hf : walEntries s = entries) :
    wp (performRotateServerKey w pk newPk writeXlog)
      (fun _ t => WalReadable w pk.keyData entries ∧
        ∃ info' new, info'.data = newPk.keyInfo ∧
        verifyPrincipalKeyInfo w info' newPk.keyData = true ∧
        walTable w newPk.keyData new = walTable w pk.keyData entries ∧
        Quiet (((s.logged (if writeXlog then [rotateRecord newPk] else [])).putWalKeys .walKeys
          (some (.current info' new))).putWalKeys .walKeysTmp none) t)
      (fun _ t => (s.SysOk → (s.walKeys .walKeys).bind WalKeyFile.entries ≠ none →
          ¬WalReadable w pk.keyData entries) ∧
        ∃ f, Quiet (s.putWalKeys .walKeysTmp f) t) s := by
  have hsame : ∀ {u}, Quiet s u → ∃ f, Quiet (s.putWalKeys .walKeysTmp f) u := fun hu =>
    ⟨_, by rw [putWalKeys_self]; exact hu⟩
  refine (wp_bind ..).2 ((signPrincipalKeyInfo_spec newPk).mono (fun info' t ht => ?_)
    fun _ t h => ⟨fun hs => absurd hs h.2, hsame h.1⟩)
  obtain ⟨hqt, hdata, hverify⟩ := ht
  refine (wp_bind ..).2 ((openWalKeyFileRead_spec false).mono (fun r u hu => ?_) fun _ u hu => ?_)
  · obtain ⟨hqu, hr, -⟩ := hu
    have hr' : r.getD [] = entries := by rw [← hr, hqt.walKeys, ← hf, walEntries]
    have hsu : Quiet s u := hqt.trans hqu
    refine (wp_bind ..).2 ((openWalKeyFileWrite_truncate_spec info').mono (fun _ v hv => ?_)
      fun _ v hv => ⟨fun hs => absurd (hsu.sysOk hs) hv.2, ?_⟩)
    · have hfv : v.walKeys .walKeysTmp = some (.current info' []) := by
        rw [hv.walKeys]; simp
      have hsv : Quiet (s.putWalKeys .walKeysTmp (some (.current info' []))) v :=
        (hsu.putWalKeys _ _).trans hv
      rw [hr']
      refine (wp_bind ..).2 ((rotateWalEntries_spec pk newPk entries hfv).mono (fun _ x hx => ?_)
        fun _ x hx => ⟨fun hs _ => hx.1 (hsv.sysOk hs), ?_⟩)
      · obtain ⟨hread, new, htable, hqx⟩ := hx
        have hsx : Quiet (s.putWalKeys .walKeysTmp (some (.current info' new))) x := by
          have := (hsv.putWalKeys .walKeysTmp (some (.current info' new))).trans hqx
          rwa [putWalKeys_putWalKeys] at this
        have hfx : x.walKeys .walKeysTmp = some (.current info' new) := by
          rw [hsx.walKeys]; simp
        refine (wp_bind ..).2 (durableRenameWalKeys_spec.mono (fun _ y hy => ?_) fun _ y hy =>
          ⟨fun hs => absurd (hsx.sysOk hs) hy.2, _, hsx.trans hy.1⟩)
        rw [hfx] at hy
        have hsy : Quiet ((s.putWalKeys .walKeys (some (.current info' new))).putWalKeys
            .walKeysTmp none) y := by
          have := ((hsx.putWalKeys .walKeys (some (.current info' new))).putWalKeys
            .walKeysTmp none).trans hy
          rwa [putWalKeys_comm _ _ _ (by simp), putWalKeys_putWalKeys, putWalKeys_comm _ _ _ (by simp)]
            at this
        cases writeXlog with
        | true => exact ⟨hread, info', new, hdata, hverify, htable, hsy.logged _⟩
        | false =>
            refine ⟨hread, info', new, hdata, hverify, htable, ?_⟩
            simpa using hsy
      · obtain ⟨f, hqx⟩ := hx.2
        have := (hsv.putWalKeys .walKeysTmp f).trans hqx
        rw [putWalKeys_putWalKeys] at this
        exact ⟨f, this⟩
    · obtain h | h := hv.1
      · exact hsame (hsu.trans h)
      · exact ⟨_, (hsu.putWalKeys _ _).trans h⟩
  · refine ⟨fun hs hne => absurd ?_ hne, hsame (hqt.trans hu.1)⟩
    rw [← hqt.walKeys]
    obtain ⟨h, -⟩ | ⟨f, h, hnone⟩ := hu.2 (hqt.sysOk hs)
    · rw [h, Option.bind_none]
    · rw [h, Option.bind_some, hnone]

/-- Whether entries are readable shows in their table. -/
theorem walReadable_of_walTable_eq {keyData keyData' : List UInt8} {new : List WalKeyFileEntry}
    (h : WalReadable w keyData entries)
    (ht : walTable w keyData' new = walTable w keyData entries) : WalReadable w keyData' new := by
  intro e he
  have hmem : (e.rangeType, e.rangeStart, e.unwrap w keyData') ∈ walTable w keyData entries := by
    rw [← ht]
    exact List.mem_map_of_mem he
  obtain ⟨e₀, he₀, heq⟩ := List.mem_map.1 hmem
  obtain ⟨k, hk, hlen⟩ := h e₀ he₀
  simp only [Prod.mk.injEq] at heq
  exact ⟨k, by rw [← heq.2.2, hk], hlen⟩

end OpenPgTde
