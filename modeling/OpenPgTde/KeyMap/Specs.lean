import OpenPgTde.KeyMap.File

/-!
What each routine of the key file does, one specification a routine.

A specification says which file the routine leaves where; that nothing else changes is part of it,
because it is stated as a quiet step away from a state that differs from the first one in that file
only. The error postconditions name the reasons an error can have, so that a caller can exclude
them.
-/

namespace OpenPgTde

open Lib.Effect Lib.SlotArray

variable {w : World} {s t : Server} {path : KeyFilePath} {db : Oid}

/-! ### Wrapping -/

theorem sysTry_spec : wp sysTry (fun b t => Quiet s t ∧ (b = false → ¬s.SysOk))
    (fun _ _ => False) s := by
  simp only [sysTry, wp_bind, wp_get, wp_set, wp_pure]
  exact ⟨⟨_, _, _, fun h i => h (i + 1), rfl⟩, fun h hs => by simp [hs 0] at h⟩

theorem signPrincipalKeyInfo_spec (k : TDEPrincipalKey) :
    wp (signPrincipalKeyInfo w k)
      (fun info t => Quiet s t ∧ info.data = k.keyInfo ∧
        verifyPrincipalKeyInfo w info k.keyData = true)
      (fun _ t => Quiet s t ∧ ¬s.SysOk) s := by
  refine (wp_bind ..).2 ((randBytes_spec _).mono (fun iv t ht => ?_) fun _ _ h => h)
  have hopen := w.aead.decrypt_encrypt k.keyData iv k.keyInfo.bytes []
  have hnil : (w.aead.encrypt k.keyData iv k.keyInfo.bytes []).1 = [] := by
    exact List.length_eq_zero_iff.1 (w.aead.length_encrypt k.keyData iv k.keyInfo.bytes [])
  rw [hnil] at hopen
  exact ⟨ht.2, rfl, by simp [verifyPrincipalKeyInfo, hopen]⟩

theorem initializeMapEntry_spec (pk : TDEPrincipalKey) (r : RelFileLocator) (k : InternalKey) :
    wp (initializeMapEntry w pk r k)
      (fun e t => Quiet s t ∧ e.type = .key ∧ e.spcOid = r.spcOid ∧ e.relNumber = r.relNumber ∧
        e.unwrap w pk.keyData = some k)
      (fun _ t => Quiet s t ∧ ¬s.SysOk) s := by
  refine (wp_bind ..).2 ((randBytes_spec _).mono (fun iv t ht => ?_) fun _ _ h => h)
  exact ⟨ht.2, rfl, rfl, rfl, unwrapKey_wrapKey w pk.keyData iv _ k⟩

theorem decryptRelKey_spec (pk : TDEPrincipalKey) (e : TDEMapEntry) :
    wp (decryptRelKey w pk e) (fun k t => t = s ∧ e.unwrap w pk.keyData = some k)
      (fun _ t => t = s ∧ e.unwrap w pk.keyData = none) s := by
  unfold decryptRelKey
  cases h : e.unwrap w pk.keyData with
  | none => simp
  | some k => simp

/-! ### Files -/

/-- The entries of a file in the current format. -/
def KeyFile.entries : KeyFile → Option (List TDEMapEntry)
  | .empty => some []
  | .current _ entries => some entries
  | _ => none

theorem entries_of_current {info : TDESignedPrincipalKeyInfo} {entries : List TDEMapEntry}
    (hf : s.keyFiles path = some (.current info entries)) :
    ((s.keyFiles path).bind KeyFile.entries).getD [] = entries := by
  rw [hf]
  rfl

theorem openFileRead_spec (ignoreMissing : Bool) :
    wp (openFileRead path ignoreMissing)
      (fun r t => Quiet s t ∧ (s.keyFiles path).bind KeyFile.entries = r ∧
        (s.keyFiles path = none → ignoreMissing = true))
      (fun _ t => Quiet s t ∧ (s.SysOk → s.keyFiles path = none ∧ ignoreMissing = false ∨
        ∃ f, s.keyFiles path = some f ∧ f.entries = none)) s := by
  refine (wp_bind ..).2 ((sysCall_spec _).mono (fun _ t ht => ?_) fun _ t h => ?_)
  · simp only [wp_bind, wp_get, ht.keyFiles]
    cases hf : s.keyFiles path with
    | none => cases ignoreMissing <;> simp [ht]
    | some f => cases f <;> simp [ht, KeyFile.entries]
  · exact ⟨h.2.1, fun hs => absurd hs h.2.2⟩

/-- Asking whether a relation has a key changes nothing. -/
theorem hasSmgrKey_quiet (rel : RelFileLocator) :
    wp (hasSmgrKey rel) (fun _ t => Quiet s t) (fun _ t => Quiet s t) s := by
  unfold hasSmgrKey
  rw [wp_bind, wp_get]
  cases s.keyFiles (.keys rel.dbOid) with
  | none => exact Quiet.refl s
  | some f =>
      dsimp only [findMapEntry]
      rw [wp_bind, wp_bind]
      refine (openFileRead_spec false).mono (fun r t ht => ?_) fun _ t ht => ht.1
      cases r <;> exact ht.1

/-- Creating a file anew: it ends up with the header and nothing else. Cut short, it is as before
or empty. -/
theorem openFileWrite_truncate_spec (info : TDESignedPrincipalKeyInfo) :
    wp (openFileWrite path (some info) true)
      (fun _ t => Quiet (s.putKeyFile path (some (.current info []))) t)
      (fun _ t => (Quiet s t ∨ Quiet (s.putKeyFile path (some .empty)) t) ∧ ¬s.SysOk) s := by
  refine (wp_bind ..).2 ((sysCall_spec _).mono (fun _ t ht => ?_) fun _ t h => ⟨.inl h.2.1, h.2.2⟩)
  simp only [wp_bind, wp_get, wp_set, if_true]
  refine (sysCall_spec _).mono (fun _ u hu => ?_) fun _ u h => ⟨.inr ?_, fun hs => h.2.2 ?_⟩
  · simp only [wp_modify, wp_pure]
    have := ((ht.putKeyFile path (some .empty)).trans hu).putKeyFile path (some (.current info []))
    rwa [putKeyFile_putKeyFile] at this
  · exact (ht.putKeyFile _ _).trans h.2.1
  · exact ht.sysOk hs

/-- Opening a file that has a header leaves it alone. -/
theorem openFileWrite_current_spec {info : TDESignedPrincipalKeyInfo} {entries : List TDEMapEntry}
    (hf : s.keyFiles path = some (.current info entries))
    (info' : Option TDESignedPrincipalKeyInfo) :
    wp (openFileWrite path info' false) (fun es t => es = entries ∧ Quiet s t)
      (fun _ t => Quiet s t ∧ ¬s.SysOk) s := by
  refine (wp_bind ..).2 ((sysCall_spec _).mono (fun _ t ht => ?_) fun _ _ h => h.2)
  have hft : t.keyFiles path = some (.current info entries) := by rw [ht.keyFiles, hf]
  have hself : t.putKeyFile path (some (.current info entries)) = t := by
    rw [← hft, putKeyFile_self]
  simp only [wp_bind, wp_get, wp_set, hft, Bool.false_eq_true, if_false, Option.getD_some, hself]
  exact ⟨rfl, ht⟩

/-- Opening a file that is missing or empty adds the header, if there is one to add. -/
theorem openFileWrite_empty_spec (hf : s.keyFiles path = none ∨ s.keyFiles path = some .empty)
    (info : Option TDESignedPrincipalKeyInfo) :
    wp (openFileWrite path info false)
      (fun es t => es = [] ∧
        Quiet (s.putKeyFile path (some (info.elim .empty fun i => .current i []))) t)
      (fun _ t => (Quiet s t ∨ Quiet (s.putKeyFile path (some .empty)) t) ∧ ¬s.SysOk) s := by
  refine (wp_bind ..).2 ((sysCall_spec _).mono (fun _ t ht => ?_) fun _ t h => ⟨.inl h.2.1, h.2.2⟩)
  have hft : (t.keyFiles path).getD .empty = .empty := by
    rw [ht.keyFiles]
    obtain h | h := hf <;> simp [h]
  have hempty : Quiet (s.putKeyFile path (some .empty)) (t.putKeyFile path (some .empty)) :=
    ht.putKeyFile _ _
  simp only [wp_bind, wp_get, wp_set, hft, Bool.false_eq_true, if_false]
  cases info with
  | none => exact ⟨rfl, hempty⟩
  | some info =>
      simp only [wp_bind]
      refine (sysCall_spec _).mono (fun _ u hu => ?_) fun _ u h =>
        ⟨.inr (hempty.trans h.2.1), fun hs => h.2.2 (ht.sysOk hs)⟩
      simp only [wp_modify, wp_pure, true_and]
      have := (hempty.trans hu).putKeyFile path (some (.current info []))
      rwa [putKeyFile_putKeyFile] at this

theorem writeOneMapEntry_spec {info : TDESignedPrincipalKeyInfo} {entries : List TDEMapEntry}
    (hf : s.keyFiles path = some (.current info entries)) (i : ℕ) (e : TDEMapEntry) :
    wp (writeOneMapEntry path i e)
      (fun _ t => Quiet (s.putKeyFile path (some (.current info (writeAt entries i e)))) t)
      (fun _ t => Quiet s t ∧ ¬s.SysOk) s := by
  refine (wp_bind ..).2 ((sysCall_spec _).mono (fun _ t ht => ?_) fun _ _ h => h.2)
  simp only [wp_bind, wp_get, ht.keyFiles, hf, wp_set]
  exact ht.putKeyFile _ _

theorem durableRename_spec :
    wp (durableRename db)
      (fun _ t => Quiet ((s.putKeyFile (.keys db) (s.keyFiles (.keysTmp db))).putKeyFile
        (.keysTmp db) none) t)
      (fun _ t => Quiet s t ∧ ¬s.SysOk) s := by
  refine (wp_bind ..).2 ((sysCall_spec _).mono (fun _ t ht => ?_) fun _ _ h => h.2)
  simp only [wp_bind, wp_get, wp_set, ht.keyFiles]
  exact (ht.putKeyFile _ _).putKeyFile _ _

/-! ### The header -/

theorem getPrincipalKeyInfo_spec :
    wp (getPrincipalKeyInfo db)
      (fun r t => Quiet s t ∧ r = (s.keyFiles (.keys db)).bind KeyFile.info)
      (fun _ t => Quiet s t ∧ ¬s.SysOk) s := by
  refine (wp_bind ..).2 ((sysCall_spec _).mono (fun _ t ht => ?_) fun _ _ h => h.2)
  simp only [wp_bind, wp_get, wp_pure, ht.keyFiles, and_true]
  exact ht

theorem xlogInsert_spec (r : XLogRecord) :
    wp (xlogInsert r) (fun _ t => t = { s with xlog := s.xlog ++ [r] }) (fun _ _ => False) s := by
  simp [xlogInsert]

/-- Nothing, or the record of a header that is signed with the key it names. -/
def AddRecords (w : World) (pk : TDEPrincipalKey) (rs : List XLogRecord) : Prop :=
  rs = [] ∨ ∃ info, rs = [.addPrincipalKey info] ∧ info.data = pk.keyInfo ∧
    verifyPrincipalKeyInfo w info pk.keyData = true

/-- A new header, signed with the key it names, replaces whatever the file was. -/
theorem savePrincipalKey_spec (pk : TDEPrincipalKey) (writeXlog : Bool) :
    wp (savePrincipalKey w pk writeXlog)
      (fun _ t => ∃ info, info.data = pk.keyInfo ∧
        verifyPrincipalKeyInfo w info pk.keyData = true ∧
        Quiet ((s.logged (if writeXlog then [.addPrincipalKey info] else [])).putKeyFile
          (.keys pk.keyInfo.databaseId) (some (.current info []))) t)
      (fun _ t => ¬s.SysOk ∧ ∃ rs, AddRecords w pk rs ∧ (Quiet (s.logged rs) t ∨
        Quiet ((s.logged rs).putKeyFile (.keys pk.keyInfo.databaseId) (some .empty)) t)) s := by
  refine (wp_bind ..).2 ((signPrincipalKeyInfo_spec pk).mono (fun info t ht => ?_) fun _ t h =>
    ⟨h.2, [], .inl rfl, .inl (by simpa using h.1)⟩)
  have hlog : ∀ rs, Quiet (s.logged rs) (t.logged rs) := ht.1.logged
  -- whether the record is written or not, the file is then created in a state of the same shape
  have hopen : ∀ rs, AddRecords w pk rs → wp (openFileWrite (.keys pk.keyInfo.databaseId) (some info) true)
      (fun _ u => Quiet ((s.logged rs).putKeyFile (.keys pk.keyInfo.databaseId)
        (some (.current info []))) u)
      (fun _ u => ¬s.SysOk ∧ ∃ rs, AddRecords w pk rs ∧ (Quiet (s.logged rs) u ∨
        Quiet ((s.logged rs).putKeyFile (.keys pk.keyInfo.databaseId) (some .empty)) u))
      (t.logged rs) := by
    intro rs hrs
    refine (openFileWrite_truncate_spec info).mono (fun _ u hu => ?_) fun _ u hu => ?_
    · exact ((hlog rs).putKeyFile _ _).trans hu
    · refine ⟨fun hs => hu.2 ((hlog rs).sysOk hs), rs, hrs, ?_⟩
      obtain h | h := hu.1
      · exact .inl ((hlog rs).trans h)
      · exact .inr (((hlog rs).putKeyFile _ _).trans h)
  cases writeXlog with
  | true =>
      simp only [if_true, wp_bind, wp_pure]
      refine xlogInsert_spec _ |>.mono (fun _ u hu => ?_) fun _ _ h => h.elim
      subst hu
      have hadd : AddRecords w pk [.addPrincipalKey info] := .inr ⟨info, rfl, ht.2.1, ht.2.2⟩
      exact (hopen _ hadd).mono (fun _ u hu => ⟨info, ht.2.1, ht.2.2, hu⟩) fun _ _ h => h
  | false =>
      simp only [Bool.false_eq_true, if_false, wp_bind, wp_pure]
      have hnil := hopen [] (.inl rfl)
      rw [logged_nil (s := t)] at hnil
      exact hnil.mono (fun _ u hu => ⟨info, ht.2.1, ht.2.2, hu⟩) fun _ _ h => h

theorem deletePrincipalKey_spec :
    wp (deletePrincipalKey db)
      (fun _ t => Quiet ((s.logged [.deletePrincipalKey db]).putKeyFile (.keys db) none) t ∧
        s.keyFiles (.keys db) ≠ none)
      (fun _ t => Quiet (s.logged [.deletePrincipalKey db]) t ∧
        (s.SysOk → s.keyFiles (.keys db) = none)) s := by
  refine (wp_bind ..).2 ((xlogInsert_spec _).mono (fun _ u hu => ?_) fun _ _ h => h.elim)
  subst hu
  refine (wp_bind ..).2 ((sysCall_spec _).mono (fun _ t ht => ?_) fun _ t h =>
    ⟨h.2.1, fun hs => absurd hs h.2.2⟩)
  simp only [wp_bind, wp_get, wp_ite, wp_set, wp_throw, ht.keyFiles]
  refine ⟨fun h => ⟨ht.putKeyFile _ _, fun hnone => ?_⟩, fun h => ⟨ht, fun _ => ?_⟩⟩
  · simp [hnone] at h
  · simpa using h

theorem countEncryptionKeys_spec (spcOid : Oid)
    (hf : ∀ f, s.keyFiles (.keys db) = some f → f.entries ≠ none) :
    wp (countEncryptionKeys db spcOid)
      (fun n t => Quiet s t ∧ n = (((s.keyFiles (.keys db)).bind KeyFile.entries).getD []).countP
        fun e => e.type = .key && (spcOid = 0 || e.spcOid = spcOid))
      (fun _ t => Quiet s t ∧ ¬s.SysOk) s := by
  refine (wp_bind ..).2 ((openFileRead_spec true).mono (fun r t ht => ?_) fun _ t h => ⟨h.1, ?_⟩)
  · obtain ⟨hq, rfl, -⟩ := ht
    cases (s.keyFiles (.keys db)).bind KeyFile.entries with
    | none => exact ⟨hq, rfl⟩
    | some entries => exact ⟨hq, rfl⟩
  · intro hs
    obtain ⟨-, h'⟩ | ⟨f, hf', hnone⟩ := h.2 hs
    · cases h'
    · exact hf f hf' hnone

/-- A lookup of an entry, whatever the file is. -/
theorem findMapEntry_reads (rel : RelFileLocator) :
    wp (findMapEntry rel)
      (fun r t => Quiet s t ∧ r = (((s.keyFiles (.keys rel.dbOid)).bind KeyFile.entries).getD
        []).find? (TDEMapEntry.isKeyOf rel.spcOid rel.relNumber) ∧
        (s.keyFiles (.keys rel.dbOid)).bind KeyFile.entries ≠ none)
      (fun err t => Quiet s t ∧ err ≠ .decryptFailed ∧
        (s.SysOk → (s.keyFiles (.keys rel.dbOid)).bind KeyFile.entries = none ∧
          (s.keyFiles (.keys rel.dbOid) ≠ none → err = .wrongVersion (.keys rel.dbOid)))) s := by
  unfold findMapEntry openFileRead
  simp only [bind_assoc, wp_bind]
  refine (sysCall_spec _).mono (fun _ t ht => ?_) fun err t h =>
    ⟨h.2.1, by rw [h.1]; simp, fun hok => absurd hok h.2.2⟩
  simp only [wp_get]
  rw [ht.keyFiles]
  cases s.keyFiles (.keys rel.dbOid) with
  | none => exact ⟨ht, by simp, fun _ => ⟨rfl, fun h => absurd rfl h⟩⟩
  | some f =>
      cases f <;> first
        | exact ⟨ht, rfl, by simp [KeyFile.entries]⟩
        | exact ⟨ht, by simp, fun _ => ⟨rfl, fun _ => rfl⟩⟩

/-! ### The entries of a file as a table of keys -/

/-- The relation a slot of the file belongs to, as `Lib.SlotArray` wants it. -/
def TDEMapEntry.slotKey (e : TDEMapEntry) : Option (Oid × UInt32) :=
  if e.type = .key then some (e.spcOid, e.relNumber) else none

/-- The live entries, each with the relation it belongs to and what it decrypts to. -/
def keyTable (w : World) (keyData : List UInt8) (entries : List TDEMapEntry) :
    List ((Oid × UInt32) × Option InternalKey) :=
  (entries.filter fun e => e.type = .key).map fun e =>
    ((e.spcOid, e.relNumber), e.unwrap w keyData)

/-- Every live entry decrypts. -/
def Readable (w : World) (keyData : List UInt8) (entries : List TDEMapEntry) : Prop :=
  ∀ e ∈ entries, e.type = .key → (e.unwrap w keyData).isSome = true

variable {keyData : List UInt8} {entries : List TDEMapEntry}

theorem keyTable_cons_key {e : TDEMapEntry} (h : e.type = .key) :
    keyTable w keyData (e :: entries) =
      ((e.spcOid, e.relNumber), e.unwrap w keyData) :: keyTable w keyData entries := by
  simp [keyTable, h]

theorem keyTable_cons_empty {e : TDEMapEntry} (h : e.type = .empty) :
    keyTable w keyData (e :: entries) = keyTable w keyData entries := by
  simp [keyTable, h]

/-- Whether a file is readable shows in its table. -/
theorem readable_iff_keyTable :
    Readable w keyData entries ↔ ∀ p ∈ keyTable w keyData entries, p.2.isSome = true := by
  simp only [Readable, keyTable, List.mem_map, List.mem_filter, decide_eq_true_eq,
    forall_exists_index, and_imp]
  constructor
  · rintro h p e he ht rfl
    exact h e he ht
  · intro h e he ht
    exact h _ e he ht rfl

/-! ### Rotation -/

/-- The loop of the rotation appends to the new file, which has `pos` entries so far, a table that
equals the table of the entries it has gone through. Nothing but the new file changes. -/
theorem rotateEntries_spec (pk newPk : TDEPrincipalKey) (entries : List TDEMapEntry)
    {info : TDESignedPrincipalKeyInfo} {out : List TDEMapEntry}
    (hf : s.keyFiles (.keysTmp pk.keyInfo.databaseId) = some (.current info out)) :
    wp (rotateEntries w pk newPk entries out.length)
      (fun _ t => ∃ new, (∀ e ∈ new, e.type = .key) ∧
        keyTable w newPk.keyData new = keyTable w pk.keyData entries ∧
        Quiet (s.putKeyFile (.keysTmp pk.keyInfo.databaseId)
          (some (.current info (out ++ new)))) t)
      (fun _ t => (s.SysOk → ¬Readable w pk.keyData entries) ∧
        ∃ f, Quiet (s.putKeyFile (.keysTmp pk.keyInfo.databaseId) f) t) s := by
  induction entries generalizing s out with
  | nil =>
      refine ⟨[], by simp, rfl, ?_⟩
      rw [List.append_nil, ← hf, putKeyFile_self]
      exact Quiet.refl s
  | cons e entries ih =>
      by_cases he : e.type = .empty
      · have hr : ¬Readable w pk.keyData entries → ¬Readable w pk.keyData (e :: entries) :=
          fun h h' => h fun e' he' => h' e' (List.mem_cons_of_mem e he')
        rw [rotateEntries, if_pos he, keyTable_cons_empty he]
        exact (ih hf).mono (fun _ _ h => h) fun _ _ h => ⟨fun hs => hr (h.1 hs), h.2⟩
      · have hk : e.type = .key := by cases h : e.type <;> simp_all
        rw [rotateEntries, if_neg he, wp_bind]
        have hsame : ∀ {u}, Quiet s u →
            ∃ f, Quiet (s.putKeyFile (.keysTmp pk.keyInfo.databaseId) f) u := fun hu =>
          ⟨_, by rw [putKeyFile_self]; exact hu⟩
        refine (decryptRelKey_spec pk e).mono (fun k u hu => ?_) fun _ u hu => ⟨fun _ hr => ?_, ?_⟩
        · obtain ⟨rfl, hopen⟩ := hu
          rw [wp_bind]
          refine (initializeMapEntry_spec newPk _ k).mono (fun e' v hv => ?_) fun _ v hv =>
            ⟨fun hs => absurd hs hv.2, hsame hv.1⟩
          obtain ⟨hq, htype, hspc, hrel, hopen'⟩ := hv
          have hfv : v.keyFiles (.keysTmp pk.keyInfo.databaseId) = some (.current info out) := by
            rw [hq.keyFiles, hf]
          rw [wp_bind]
          refine (writeOneMapEntry_spec hfv out.length e').mono (fun _ x hx => ?_) fun _ x hx =>
            ⟨fun hs => absurd (hq.sysOk hs) hx.2, hsame (hq.trans hx.1)⟩
          rw [writeAt_length] at hx
          have hq' : Quiet (u.putKeyFile (.keysTmp pk.keyInfo.databaseId)
              (some (.current info (out ++ [e'])))) x := (hq.putKeyFile _ _).trans hx
          have hfx : x.keyFiles (.keysTmp pk.keyInfo.databaseId) =
              some (.current info (out ++ [e'])) := by
            rw [hx.keyFiles]; simp
          have hlen : out.length + 1 = (out ++ [e']).length := by simp
          rw [hlen]
          refine (ih hfx).mono (fun _ y hy => ?_) fun _ y hy => ?_
          · obtain ⟨new, hnew, htable, hy⟩ := hy
            refine ⟨e' :: new, by simpa [htype] using hnew, ?_, ?_⟩
            · rw [keyTable_cons_key htype, keyTable_cons_key hk, htable, hspc, hrel, hopen', hopen]
            · have := (hq'.putKeyFile _ _).trans hy
              rw [putKeyFile_putKeyFile] at this
              simpa using this
          · refine ⟨fun hs hr => hy.1 (hq'.sysOk hs) fun c hc => hr c ?_, ?_⟩
            · exact List.mem_cons_of_mem e hc
            · obtain ⟨f, hy⟩ := hy.2
              have := (hq'.putKeyFile _ f).trans hy
              rw [putKeyFile_putKeyFile] at this
              exact ⟨f, this⟩
        · have := hr e List.mem_cons_self hk
          rw [hu.2] at this
          cases this
        · exact hsame (by rw [hu.1]; exact Quiet.refl s)

/-- The record a rotation logs. -/
def rotateRecord (newPk : TDEPrincipalKey) : XLogRecord :=
  .rotatePrincipalKey newPk.keyInfo.databaseId newPk.keyInfo.keyringId newPk.keyInfo.name

/-- A rotation that succeeds leaves a file with a header signed by the new key and the table of
the old one. A rotation that fails changes the temporary file only. -/
theorem performRotateKey_spec (pk newPk : TDEPrincipalKey) (writeXlog : Bool)
    (hf : ((s.keyFiles (.keys pk.keyInfo.databaseId)).bind KeyFile.entries).getD [] = entries) :
    wp (performRotateKey w pk newPk writeXlog)
      (fun _ t => ∃ info' new, info'.data = newPk.keyInfo ∧
        verifyPrincipalKeyInfo w info' newPk.keyData = true ∧ (∀ e ∈ new, e.type = .key) ∧
        keyTable w newPk.keyData new = keyTable w pk.keyData entries ∧
        Quiet (((s.logged (if writeXlog then [rotateRecord newPk] else [])).putKeyFile
          (.keys pk.keyInfo.databaseId) (some (.current info' new))).putKeyFile
          (.keysTmp pk.keyInfo.databaseId) none) t)
      (fun _ t => (s.SysOk → (s.keyFiles (.keys pk.keyInfo.databaseId)).bind KeyFile.entries ≠ none →
          ¬Readable w pk.keyData entries) ∧
        ∃ f, Quiet (s.putKeyFile (.keysTmp pk.keyInfo.databaseId) f) t) s := by
  have hsame : ∀ {u}, Quiet s u →
      ∃ f, Quiet (s.putKeyFile (.keysTmp pk.keyInfo.databaseId) f) u := fun hu =>
    ⟨_, by rw [putKeyFile_self]; exact hu⟩
  refine (wp_bind ..).2 ((signPrincipalKeyInfo_spec newPk).mono (fun info' t ht => ?_)
    fun _ t h => ⟨fun hs => absurd hs h.2, hsame h.1⟩)
  obtain ⟨hqt, hdata, hverify⟩ := ht
  refine (wp_bind ..).2 ((openFileRead_spec false).mono (fun r u hu => ?_) fun _ u hu => ?_)
  · obtain ⟨hqu, hr, -⟩ := hu
    have hr' : r.getD [] = entries := by rw [← hr, hqt.keyFiles, hf]
    have hsu : Quiet s u := hqt.trans hqu
    refine (wp_bind ..).2 ((openFileWrite_truncate_spec info').mono (fun _ v hv => ?_)
      fun _ v hv => ⟨fun hs => absurd (hsu.sysOk hs) hv.2, ?_⟩)
    · have hfv : v.keyFiles (.keysTmp pk.keyInfo.databaseId) = some (.current info' []) := by
        rw [hv.keyFiles]; simp
      have hsv : Quiet (s.putKeyFile (.keysTmp pk.keyInfo.databaseId)
          (some (.current info' []))) v := (hsu.putKeyFile _ _).trans hv
      rw [hr']
      refine (wp_bind ..).2 ((rotateEntries_spec pk newPk entries hfv).mono (fun _ x hx => ?_)
        fun _ x hx => ⟨fun hs _ => hx.1 (hsv.sysOk hs), ?_⟩)
      · obtain ⟨new, hnew, htable, hqx⟩ := hx
        have hsx : Quiet (s.putKeyFile (.keysTmp pk.keyInfo.databaseId)
            (some (.current info' new))) x := by
          have := (hsv.putKeyFile (.keysTmp pk.keyInfo.databaseId)
            (some (.current info' new))).trans hqx
          rwa [putKeyFile_putKeyFile] at this
        have hfx : x.keyFiles (.keysTmp pk.keyInfo.databaseId) = some (.current info' new) := by
          rw [hsx.keyFiles]; simp
        refine (wp_bind ..).2 (durableRename_spec.mono (fun _ y hy => ?_) fun _ y hy =>
          ⟨fun hs => absurd (hsx.sysOk hs) hy.2, _, hsx.trans hy.1⟩)
        rw [hfx] at hy
        have hsy : Quiet ((s.putKeyFile (.keys pk.keyInfo.databaseId)
            (some (.current info' new))).putKeyFile (.keysTmp pk.keyInfo.databaseId) none) y := by
          have := ((hsx.putKeyFile (.keys pk.keyInfo.databaseId)
            (some (.current info' new))).putKeyFile (.keysTmp pk.keyInfo.databaseId)
            none).trans hy
          rwa [putKeyFile_comm _ _ _ (by simp), putKeyFile_putKeyFile, putKeyFile_comm _ _ _ (by simp)]
            at this
        cases writeXlog with
        | true => exact ⟨info', new, hdata, hverify, hnew, htable, hsy.logged _⟩
        | false =>
            refine ⟨info', new, hdata, hverify, hnew, htable, ?_⟩
            simpa using hsy
      · obtain ⟨f, hqx⟩ := hx.2
        have := (hsv.putKeyFile (.keysTmp pk.keyInfo.databaseId) f).trans hqx
        rw [putKeyFile_putKeyFile] at this
        exact ⟨f, this⟩
    · obtain h | h := hv.1
      · exact hsame (hsu.trans h)
      · exact ⟨_, (hsu.putKeyFile _ _).trans h⟩
  · refine ⟨fun hs hne => absurd ?_ hne, hsame (hqt.trans hu.1)⟩
    rw [← hqt.keyFiles]
    obtain ⟨h, -⟩ | ⟨f, h, hnone⟩ := hu.2 (hqt.sysOk hs)
    · rw [h, Option.bind_none]
    · rw [h, Option.bind_some, hnone]

end OpenPgTde
