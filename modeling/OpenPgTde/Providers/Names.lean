import OpenPgTde.PrincipalKey.Attempt
import OpenPgTde.Providers.Deletion

/-!
The two lookups of a provider by its name.

A provider is changed and deleted under its exact name, and two names are two names when they are
added. Keys are set through the lookup that ignores case and takes the first record. The two agree in
a file if and only if no two live names differ in their case only.
-/

namespace OpenPgTde

open Lib.Effect

variable {w : World} {s t : Server} {scope dbOid : Oid} {file : List KeyringProviderRecord}
  {files : Oid → List KeyringProviderRecord}

/-- No two live records have names that differ in their case only. -/
def CaseApart (file : List KeyringProviderRecord) : Prop :=
  ∀ r ∈ file, ∀ r' ∈ file, r.live = true → r'.live = true →
    pgStrcaseEq r.providerName r'.providerName = true → r = r'

/-- A key that is set through the name refers to this record. -/
def BindsTo (w : World) (files : Oid → List KeyringProviderRecord) (providerOid : Oid)
    (name : List UInt8) (r : KeyringProviderRecord) : Prop :=
  ∀ s t keyName scope, s.providers = files → OwnScopes s →
    setPrincipalKeyWithKeyring w keyName name providerOid scope s = .ok () t →
    ∃ info, scopeInfo t scope = some info ∧ info.data.keyringId = r.providerId

/-- Where the lookup of the exact name finds a live record, the lookup that ignores case finds the
same one, and it is the one that keys are bound to. -/
def LookupsAgree (w : World) (files : Oid → List KeyringProviderRecord) (dbOid : Oid) : Prop :=
  ∀ name offset r, getKeyringInfoFileRecordByName name (files dbOid) = some (offset, r) →
    getKeyProviderByName files name dbOid = some r ∧ BindsTo w files dbOid name r

/-! ### What a key is bound to -/

theorem pushPrincipalKeyToCache_headers (k : TDEPrincipalKey) :
    wp (pushPrincipalKeyToCache k) (fun _ t => ∀ a, scopeInfo t a = scopeInfo s a)
      (fun _ _ => True) s := by
  unfold pushPrincipalKeyToCache
  simp only [wp_bind, wp_get, wp_ite, wp_set]
  exact ⟨fun _ => (sysCall_spec _).mono (fun _ t ht a => ht.scopeInfo a) fun _ _ _ => trivial,
    fun _ => (sysCall_spec _).mono (fun _ t ht a => ht.scopeInfo a) fun _ _ _ => trivial⟩

/-- A key that has been set refers to the provider that its name led to. -/
theorem setPrincipalKeyWithKeyring_binds (hs : OwnScopes s) (keyName name : List UInt8)
    (providerOid : Oid) :
    wp (setPrincipalKeyWithKeyring w keyName name providerOid scope)
      (fun _ t => ∃ r info, getKeyProviderByName s.providers name providerOid = some r ∧
        scopeInfo t scope = some info ∧ info.data.keyringId = r.providerId) (fun _ _ => True) s := by
  rw [setPrincipalKeyWithKeyring_eq_attempt]
  refine (wp_bind ..).2 ((attemptRotation_spec hs).mono (fun r t ht => ?_) fun _ _ _ => trivial)
  obtain ⟨curr, newPk⟩ := r
  obtain ⟨hcurr, -, hasked, hfile⟩ := ht
  obtain ⟨keyring, k, hr, -, hid, -⟩ := hasked.key
  -- pushing the key changes no header
  have hpush : ∀ {u : Server} {info : TDESignedPrincipalKeyInfo}, scopeInfo u scope = some info →
      info.data = newPk.keyInfo → wp (pushPrincipalKeyToCache newPk)
        (fun _ t => ∃ r info, getKeyProviderByName s.providers name providerOid = some r ∧
          scopeInfo t scope = some info ∧ info.data.keyringId = r.providerId)
        (fun _ _ => True) u := by
    intro u info hi hdata
    refine (pushPrincipalKeyToCache_headers newPk).mono (fun _ v hv => ?_) fun _ _ _ => trivial
    exact ⟨keyring, info, hr, by rw [hv, hi], by rw [hdata, hid]⟩
  cases curr with
  | none =>
      refine (wp_ite ..).2 ⟨fun hg => ?_, fun hg => ?_⟩
      · refine (wp_bind ..).2 ((saveServerKey_spec newPk true).mono (fun _ v hv => ?_)
          fun _ _ _ => trivial)
        obtain ⟨info, hdata, -, hv⟩ := hv
        refine hpush ?_ hdata
        rw [hg, hv.scopeInfo, scopeInfo_putWalKeys_self]
        rfl
      · refine (wp_bind ..).2 ((savePrincipalKey_spec newPk true).mono (fun _ v hv => ?_)
          fun _ _ _ => trivial)
        obtain ⟨info, hdata, -, hv⟩ := hv
        rw [hasked.owner] at hv
        refine hpush ?_ hdata
        rw [hv.scopeInfo, scopeInfo_putKeyFile_self _ _ _ hg]
        rfl
  | some curr =>
      dsimp only [finishRotation, clearPrincipalKeyCache]
      simp only [wp_bind, wp_modify]
      have hi : ∃ info, scopeInfo t scope = some info ∧ info.data = newPk.keyInfo := by
        have hrot := hfile curr rfl
        unfold scopeInfo
        split
        · rename_i hg
          obtain ⟨info, new, hf, hdata, -⟩ := hrot.walFile hg
          exact ⟨info, by rw [hf]; rfl, hdata⟩
        · rename_i hg
          obtain ⟨info, new, hf, hdata, -⟩ := hrot.file hg
          exact ⟨info, by rw [hf]; rfl, hdata⟩
      obtain ⟨info, hi, hdata⟩ := hi
      exact hpush hi hdata

/-! ### The two lookups -/

theorem pgStrcaseEq_comm (a b : List UInt8) : pgStrcaseEq a b = pgStrcaseEq b a := by
  unfold pgStrcaseEq
  exact decide_eq_decide.2 eq_comm

theorem pgStrcaseEq_self (a : List UInt8) : pgStrcaseEq a a = true := by simp [pgStrcaseEq]

/-- Names that differ in their case only have the same answers. -/
theorem answers_congr {a b : List UInt8} (h : pgStrcaseEq a b = true) : Answers a = Answers b := by
  funext r
  have hab : a.map pgTolower = b.map pgTolower := by simpa [pgStrcaseEq] using h
  simp only [Answers, pgStrcaseEq, hab]

theorem CaseApart.getKeyProviderByName (h : CaseApart (files dbOid)) {r : KeyringProviderRecord}
    (hr : r ∈ files dbOid) (hlive : r.live = true) :
    getKeyProviderByName files r.providerName dbOid = some r := by
  rw [getKeyProviderByName_eq]
  have hself : Answers r.providerName r = true := by simp [Answers, hlive, pgStrcaseEq_self]
  obtain ⟨r', hr'⟩ := Option.isSome_iff_exists.1 (List.find?_isSome.2 ⟨r, hr, hself⟩)
  have hans := List.find?_some hr'
  rw [Answers, Bool.and_eq_true] at hans
  obtain rfl := h r' (List.mem_of_find?_eq_some hr') r hr hans.1 hlive hans.2
  exact hr'

/-- In a file in order, a live record is what its exact name leads to. -/
theorem ProviderFileOk.getKeyringInfoFileRecordByName (hf : ProviderFileOk scope file)
    {r : KeyringProviderRecord} (hr : r ∈ file) (hlive : r.live = true) :
    ∃ offset, getKeyringInfoFileRecordByName r.providerName file = some (offset, r) := by
  have hfound : ∃ p, OpenPgTde.getKeyringInfoFileRecordByName r.providerName file = some p := by
    have hsome : (file.findIdx? fun r' => r'.live && r'.providerName = r.providerName).isSome := by
      rw [List.findIdx?_isSome, List.any_eq_true]
      exact ⟨r, hr, by simp [hlive]⟩
    obtain ⟨i, hi⟩ := Option.isSome_iff_exists.1 hsome
    obtain ⟨hlt, -⟩ := List.findIdx?_eq_some_iff_getElem.1 hi
    unfold OpenPgTde.getKeyringInfoFileRecordByName
    rw [hi]
    exact ⟨(i, file[i]), by simp [List.getElem?_eq_getElem hlt]⟩
  obtain ⟨⟨offset, r'⟩, hp⟩ := hfound
  obtain ⟨pre, post, hfile, -, hnamed, -⟩ := getKeyringInfoFileRecordByName_eq_some hp
  obtain ⟨hlive', hname⟩ := named_iff.1 hnamed
  have hmem : r' ∈ file := by simp [hfile]
  have hsame : r' = r := by
    have hnd := hf.names
    unfold liveNames at hnd
    exact List.inj_on_of_nodup_map hnd (List.mem_filter.2 ⟨hmem, hlive'⟩)
      (List.mem_filter.2 ⟨hr, hlive⟩) hname
  exact ⟨offset, by rw [hp, hsame]⟩

theorem LookupsAgree.caseApart (h : LookupsAgree w files dbOid)
    (hf : ProviderFileOk scope (files dbOid)) : CaseApart (files dbOid) := by
  intro r hr r' hr' hlive hlive' hname
  obtain ⟨i, hi⟩ := hf.getKeyringInfoFileRecordByName hr hlive
  obtain ⟨j, hj⟩ := hf.getKeyringInfoFileRecordByName hr' hlive'
  have hfound := (h _ _ _ hi).1
  have hfound' := (h _ _ _ hj).1
  rw [getKeyProviderByName_eq] at hfound hfound'
  rw [answers_congr hname, hfound'] at hfound
  exact (Option.some.inj hfound).symm

theorem CaseApart.lookupsAgree (h : CaseApart (files dbOid)) : LookupsAgree w files dbOid := by
  intro name offset r hr
  obtain ⟨pre, post, hfile, -, hnamed, -⟩ := getKeyringInfoFileRecordByName_eq_some hr
  obtain ⟨hlive, rfl⟩ := named_iff.1 hnamed
  have hfound := h.getKeyProviderByName (by simp [hfile]) hlive
  refine ⟨hfound, fun s t keyName scope hs hown hrun => ?_⟩
  obtain ⟨r', info, hr', hi, hid⟩ :=
    (setPrincipalKeyWithKeyring_binds hown keyName r.providerName dbOid).of_ok hrun
  rw [hs, hfound] at hr'
  cases hr'
  exact ⟨info, hi, hid⟩

/-- In every state of every run of provider operations, the two lookups agree on a file if and only if
no two live names in it differ in their case only. -/
theorem provider_names_agree (w : World) (s : Server) (scope : Oid) (hs : s.providers scope = [])
    (es : List ProviderEvent) :
    LookupsAgree w (providerRun w es s).providers scope ↔
      CaseApart ((providerRun w es s).providers scope) := by
  have hnil : ProviderFileOk scope (s.providers scope) := by
    rw [hs]
    exact ProviderFileOk.nil
  exact ⟨fun h => h.caseApart (providerRun_fileOk es hnil).1, fun h => h.lookupsAgree⟩

theorem provider_names_agree_one_provider :
    LookupsAgree sampleWorld
      (providerRun sampleWorld (sampleProviderEvents.take 1) sampleServer).providers 5 := by
  refine (provider_names_agree sampleWorld sampleServer 5 rfl _).2 fun r hr r' hr' _ _ _ => ?_
  have hone : (providerRun sampleWorld (sampleProviderEvents.take 1) sampleServer).providers 5 =
      [⟨1, [65], [], .file⟩] := by decide +kernel
  rw [hone, List.mem_singleton] at hr hr'
  rw [hr, hr']

/-- The providers `A` and `a`: who looks for `a` exactly finds the second, who sets a key finds the
first. -/
theorem provider_names_disagree : ¬LookupsAgree sampleWorld
    (providerRun sampleWorld (sampleProviderEvents.take 2) sampleServer).providers 5 := by
  intro h
  have hexact : getKeyringInfoFileRecordByName [97]
      ((providerRun sampleWorld (sampleProviderEvents.take 2) sampleServer).providers 5) =
        some (1, ⟨2, [97], [], .file⟩) := by decide +kernel
  have hfound := (h _ _ _ hexact).1
  revert hfound
  decide +kernel

end OpenPgTde
