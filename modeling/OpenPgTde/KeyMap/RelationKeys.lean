import OpenPgTde.PrincipalKey.Programs

/-!
The routines that store, look up and free the key of a relation.

They find the principal key of the database first, and with it a file in the current format; what
they do to the file is then a question about its array of entries. The specifications name the
array after the call, and `RelationStep` says that every such array keeps the invariant of the
scopes.
-/

namespace OpenPgTde

open Lib.Effect Lib.SlotArray

variable {w : World} {s t u : Server} {db : Oid} {info : TDESignedPrincipalKeyInfo}
  {entries new : List TDEMapEntry} {pk : TDEPrincipalKey} {rel : RelFileLocator}

/-! ### The table of a file and its entries -/

theorem isKeyOf_iff {e : TDEMapEntry} {spcOid : Oid} {relNumber : UInt32} :
    e.isKeyOf spcOid relNumber = true ↔
      e.type = .key ∧ e.spcOid = spcOid ∧ e.relNumber = relNumber := by
  simp [TDEMapEntry.isKeyOf, and_assoc]

/-- Looking a relation up in the table is finding its entry and decrypting it. -/
theorem lookup_keyTable (keyData : List UInt8) (entries : List TDEMapEntry) (rel : Oid × UInt32) :
    (keyTable w keyData entries).lookup rel =
      (entries.find? (TDEMapEntry.isKeyOf rel.1 rel.2)).map (TDEMapEntry.unwrap w keyData) := by
  induction entries with
  | nil => rfl
  | cons e entries ih =>
      cases ht : e.type with
      | empty => simpa [keyTable_cons_empty ht, TDEMapEntry.isKeyOf, ht] using ih
      | key =>
          rw [keyTable_cons_key ht, List.lookup_cons, List.find?_cons]
          by_cases heq : rel = (e.spcOid, e.relNumber)
          · subst heq
            simp [TDEMapEntry.isKeyOf, ht]
          · have hne : (rel == (e.spcOid, e.relNumber)) = false := by simpa using heq
            have hno : e.isKeyOf rel.1 rel.2 = false := by
              simp only [TDEMapEntry.isKeyOf, ht, decide_true, Bool.true_and]
              exact Bool.eq_false_iff.2 fun h => heq (by
                simp only [Bool.and_eq_true, decide_eq_true_eq] at h
                exact Prod.ext h.1.symm h.2.symm)
            rw [hne, hno]
            exact ih

/-- The key of a relation, read off the entries of the file. -/
theorem relationKeys_of_current (hf : s.keyFiles (.keys db) = some (.current info entries))
    (hk : principalKeyOf w s db = some pk) (rel : Oid × UInt32) :
    relationKeys w s db rel =
      (entries.find? (TDEMapEntry.isKeyOf rel.1 rel.2)).bind (TDEMapEntry.unwrap w pk.keyData) := by
  rw [relationKeys, relationTable_of_current hf hk, lookup_keyTable]
  cases entries.find? (TDEMapEntry.isKeyOf rel.1 rel.2) with
  | none => rfl
  | some e => simp

theorem relationKeys_of_scopeInfo_none (hi : scopeInfo s db = none) (rel : Oid × UInt32) :
    relationKeys w s db rel = none := by
  rw [relationKeys, relationTable_of_scopeInfo_none hi]
  rfl

/-- An entry that holds the key `k` of the relation. -/
structure EntryFor (w : World) (pk : TDEPrincipalKey) (rel : RelFileLocator) (k : InternalKey)
    (e : TDEMapEntry) : Prop where
  type : e.type = .key
  spcOid : e.spcOid = rel.spcOid
  relNumber : e.relNumber = rel.relNumber
  unwrap : e.unwrap w pk.keyData = some k

/-! ### Steps on the entries of a file -/

/-- Rewriting the entries of a database's file so that they decrypt under its principal key keeps
the invariant. -/
theorem ScopeOk.putEntries (hs : ScopeOk w s db) (hg : db ≠ globalDataTdeOid)
    (hd : db ≠ defaultDataTdeOid) (hf : s.keyFiles (.keys db) = some (.current info entries))
    (hk : principalKeyOf w s db = some pk) (hr : Readable w pk.keyData new) :
    ScopeOk w (s.putKeyFile (.keys db) (some (.current info new))) db := by
  obtain ⟨info', entries', hf', hh, -⟩ := hs.exists_current hg hk
  obtain ⟨rfl, rfl⟩ : info = info' ∧ entries = entries' := by
    rw [hf] at hf'
    simpa using hf'
  have hcache : s.cache db = none ∨ s.cache db = some pk := by
    cases hc : s.cache db with
    | none => exact .inl rfl
    | some k' =>
        have := hs.cached k' hc
        rw [hk] at this
        exact .inr this.symm
  exact ScopeOk.of_current hg (by simp) hh hr (fun h => absurd h hd) hcache

theorem Consistent.putEntries (hs : Consistent w s) (hg : db ≠ globalDataTdeOid)
    (hd : db ≠ defaultDataTdeOid) (hf : s.keyFiles (.keys db) = some (.current info entries))
    (hk : principalKeyOf w s db = some pk) (hr : Readable w pk.keyData new) :
    Consistent w (s.putKeyFile (.keys db) (some (.current info new))) := by
  refine ⟨fun scope => ?_, hs.providers, hs.databases⟩
  by_cases hsc : scope = db
  · subst hsc
    exact (hs.scopes scope).putEntries hg hd hf hk hr
  · exact (hs.scopes scope).frame (fun _ => rfl) (fun _ => by simp [hsc]) (fun _ => rfl) rfl

/-- The header stays what it was, and with it the principal key. -/
theorem principalKeyOf_putEntries (hg : db ≠ globalDataTdeOid)
    (hf : s.keyFiles (.keys db) = some (.current info entries)) :
    principalKeyOf w (s.putKeyFile (.keys db) (some (.current info new))) db =
      principalKeyOf w s db := by
  have hnew : scopeInfo (s.putKeyFile (.keys db) (some (.current info new))) db = some info :=
    scopeInfo_current hg (by simp; rfl)
  rw [principalKeyOf, principalKeyOf, hnew, scopeInfo_current hg hf]
  rfl

/-- Opening a file for writing creates it. -/
theorem Consistent.putEmpty (hs : Consistent w s) (hg : db ≠ globalDataTdeOid)
    (hi : scopeInfo s db = none) :
    Consistent w (s.putKeyFile (.keys db) (some .empty)) := by
  refine ⟨fun scope => ?_, hs.providers, hs.databases⟩
  by_cases hsc : scope = db
  · subst hsc
    exact ScopeOk.of_empty hg (.inr (by simp)) ((hs.scopes scope).cache_none hi)
  · exact (hs.scopes scope).frame (fun _ => rfl) (fun _ => by simp [hsc]) (fun _ => rfl) rfl

theorem Quiet.consistent (h : Quiet s t) (hs : Consistent w s) : Consistent w t :=
  (h.loaded (w := w)).consistent hs

theorem mem_writeAt {e a : TDEMapEntry} {i : ℕ} (h : a ∈ writeAt entries i e) :
    a = e ∨ a ∈ entries := by
  simp only [writeAt, List.mem_append, List.mem_cons] at h
  obtain h | h | h := h
  · exact .inr (List.mem_of_mem_take h)
  · exact .inl h
  · exact .inr (List.mem_of_mem_drop h)

theorem Readable.writeAt {keyData : List UInt8} {e : TDEMapEntry} (h : Readable w keyData entries)
    (he : e.type = .key → (e.unwrap w keyData).isSome = true) (i : ℕ) :
    Readable w keyData (writeAt entries i e) := by
  intro a ha ht
  obtain rfl | ha := mem_writeAt ha
  · exact he ht
  · exact h a ha ht

/-! ### New keys -/

theorem generateInternalKey_spec (cipher : CipherType) :
    wp (generateInternalKey cipher) (fun k t => Quiet s t ∧ k.cipher = cipher)
      (fun _ t => Quiet s t ∧ ¬s.SysOk) s := by
  refine (wp_bind ..).2 ((randBytes_spec _).mono (fun key t ht => ?_) fun _ _ h => h)
  refine (wp_bind ..).2 ((randBytes_spec _).mono (fun iv u hu => ?_)
    fun _ u hu => ⟨ht.2.trans hu.1, fun h => hu.2 (ht.2.sysOk h)⟩)
  rw [dif_pos ht.1]
  exact ⟨ht.2.trans hu.2, rfl⟩

/-! ### Storing a key -/

/-- What a call of `saveSmgrKey` that returns has done: it looked up the principal key, and then
wrote one entry or left the file alone. -/
structure Saved (w : World) (s t : Server) (rel : RelFileLocator) (k : InternalKey)
    (replaceExisting : Bool) (u : Server) (info : TDESignedPrincipalKeyInfo)
    (entries : List TDEMapEntry) (pk : TDEPrincipalKey) : Prop where
  steps : KeySteps w s u
  loaded : scopeInfo s rel.dbOid ≠ none → Loaded w s u
  file : u.keyFiles (.keys rel.dbOid) = some (.current info entries)
  key : principalKeyOf w u rel.dbOid = some pk
  cached : u.cache rel.dbOid = some pk
  kept : (saveSlot rel entries).1 = true → replaceExisting = false → Quiet u t
  written : (saveSlot rel entries).1 = false ∨ replaceExisting = true →
    ∃ e, EntryFor w pk rel k e ∧ Quiet (u.putKeyFile (.keys rel.dbOid)
      (some (.current info (writeAt entries (saveSlot rel entries).2 e)))) t

/-- The part of a save after the principal key is found, on a file that has a header. -/
theorem storeKey_spec (hf : s.keyFiles (.keys rel.dbOid) = some (.current info entries))
    (pk : TDEPrincipalKey) (k : InternalKey) (replaceExisting : Bool) :
    wp (do
        let info ← signPrincipalKeyInfo w pk
        let entries ← openFileWrite (.keys rel.dbOid) (some info) false
        if (saveSlot rel entries).1 = false ∨ replaceExisting = true then
          let e ← initializeMapEntry w pk rel k
          writeOneMapEntry (.keys rel.dbOid) (saveSlot rel entries).2 e)
      (fun _ t => ((saveSlot rel entries).1 = true → replaceExisting = false → Quiet s t) ∧
        ((saveSlot rel entries).1 = false ∨ replaceExisting = true →
          ∃ e, EntryFor w pk rel k e ∧ Quiet (s.putKeyFile (.keys rel.dbOid)
            (some (.current info (writeAt entries (saveSlot rel entries).2 e)))) t))
      (fun _ t => Quiet s t ∧ ¬s.SysOk) s := by
  refine (wp_bind ..).2 ((signPrincipalKeyInfo_spec pk).mono (fun info' v hv => ?_) fun _ _ h => h)
  have hfv : v.keyFiles (.keys rel.dbOid) = some (.current info entries) := by
    rw [hv.1.keyFiles, hf]
  refine (wp_bind ..).2 ((openFileWrite_current_spec hfv (some info')).mono (fun es x hx => ?_)
    fun _ x hx => ⟨hv.1.trans hx.1, fun h => hx.2 (hv.1.sysOk h)⟩)
  obtain ⟨rfl, hx⟩ := hx
  have hsx : Quiet s x := hv.1.trans hx
  simp only [wp_ite, wp_pure]
  refine ⟨fun hc => ?_, fun hc => ⟨fun _ _ => hsx, fun h => absurd h hc⟩⟩
  refine (wp_bind ..).2 ((initializeMapEntry_spec pk rel k).mono (fun e y hy => ?_)
    fun _ y hy => ⟨hsx.trans hy.1, fun h => hy.2 (hsx.sysOk h)⟩)
  obtain ⟨hqy, htype, hspc, hrel, hopen⟩ := hy
  have hsy := hsx.trans hqy
  have hfy : y.keyFiles (.keys rel.dbOid) = some (.current info es) := by rw [hsy.keyFiles, hf]
  refine (writeOneMapEntry_spec hfy _ e).mono (fun _ z hz => ⟨fun h h' => ?_, fun _ => ?_⟩)
    fun _ z hz => ⟨hsy.trans hz.1, fun h => hz.2 (hsy.sysOk h)⟩
  · simp [h, h'] at hc
  · exact ⟨e, ⟨htype, hspc, hrel, hopen⟩, (hsy.putKeyFile _ _).trans hz⟩

theorem saveSmgrKey_spec (hs : Consistent w s) (rel : RelFileLocator)
    (hg : rel.dbOid ≠ globalDataTdeOid) (k : InternalKey) (replaceExisting : Bool) :
    wp (saveSmgrKey w rel k replaceExisting)
      (fun _ t => ∃ u info entries pk, Saved w s t rel k replaceExisting u info entries pk)
      (fun _ t => KeySteps w s t ∧ (scopeInfo s rel.dbOid ≠ none → Loaded w s t ∧
        (s.SysOk → s.cache rel.dbOid = none ∧ ¬Reachable w s rel.dbOid))) s := by
  refine (wp_bind ..).2 ((getPrincipalKey_spec hs).mono (fun r t ht => ?_)
    fun _ _ h => ⟨h.1.steps, h.2⟩)
  obtain ⟨⟨hst, -, -⟩, hr, hcache, hl⟩ := ht
  have hct := hst.consistent hs
  cases r with
  | none =>
      refine ⟨hst, fun hi => absurd ?_ hi⟩
      have hnone := (hct.scopes rel.dbOid).principalKeyOf_none.1 hr.symm
      by_contra hne
      exact hne (by rw [← (hl hne).scopeInfo]; exact hnone)
  | some pk =>
      obtain ⟨info, entries, hf, -⟩ := (hct.scopes rel.dbOid).exists_current hg hr.symm
      refine (storeKey_spec hf pk k replaceExisting).mono (fun _ v hv => ?_)
        fun _ v hv => ⟨hst.tail (.logged (.quiet hv.1)), fun hi => ⟨?_, fun hok => ?_⟩⟩
      · exact ⟨t, info, entries, pk, hst, hl, hf, hr.symm, hcache, hv.1, hv.2⟩
      · exact (hl hi).trans hv.1.loaded
      · exact absurd ((hl hi).sysOk hok) hv.2

/-- Storing a key keeps the invariant. -/
theorem saveSmgrKey_consistent (hs : Consistent w s) (rel : RelFileLocator)
    (hg : rel.dbOid ≠ globalDataTdeOid) (hd : rel.dbOid ≠ defaultDataTdeOid) (k : InternalKey)
    (replaceExisting : Bool) :
    wp (saveSmgrKey w rel k replaceExisting)
      (fun _ t => Consistent w t ∧ t.providers = s.providers)
      (fun _ t => Consistent w t ∧ t.providers = s.providers) s := by
  refine (saveSmgrKey_spec hs rel hg k replaceExisting).mono (fun _ t ht => ?_)
    fun _ t ht => ⟨ht.1.consistent hs, ht.1.providers⟩
  obtain ⟨u, info, entries, pk, h⟩ := ht
  have hcu := h.steps.consistent hs
  by_cases hc : (saveSlot rel entries).1 = false ∨ replaceExisting = true
  · obtain ⟨e, he, hq⟩ := h.written hc
    have hr := (hcu.scopes rel.dbOid).readable hg info entries pk h.file h.key
    have hnew := hr.writeAt (fun _ => by rw [he.unwrap]; rfl) (saveSlot rel entries).2
    exact ⟨hq.consistent (hcu.putEntries hg hd h.file h.key hnew),
      hq.providers.trans h.steps.providers⟩
  · simp only [not_or, Bool.not_eq_false, Bool.not_eq_true] at hc
    have hq := h.kept hc.1 hc.2
    exact ⟨hq.consistent hcu, hq.providers.trans h.steps.providers⟩

/-! ### Freeing a key -/

theorem freeKeyMapEntry_spec (rel : RelFileLocator)
    (hg : rel.dbOid ≠ globalDataTdeOid)
    (hf : ∀ f, s.keyFiles (.keys rel.dbOid) = some f → f.entries ≠ none) :
    wp (freeKeyMapEntry rel)
      (fun _ t => (scopeInfo s rel.dbOid = none ∧
          Quiet (s.putKeyFile (.keys rel.dbOid) (some .empty)) t) ∨
        ∃ info entries, s.keyFiles (.keys rel.dbOid) = some (.current info entries) ∧
          Quiet (s.putKeyFile (.keys rel.dbOid) (some (.current info (overwriteFirst
            (TDEMapEntry.isKeyOf rel.spcOid rel.relNumber) emptyMapEntry entries)))) t)
      (fun _ t => ¬s.SysOk ∧ (Quiet s t ∨ scopeInfo s rel.dbOid = none ∧
        Quiet (s.putKeyFile (.keys rel.dbOid) (some .empty)) t)) s := by
  by_cases hi : scopeInfo s rel.dbOid = none
  · have hempty := file_of_scopeInfo_none hg hi
    refine (wp_bind ..).2 ((openFileWrite_empty_spec hempty none).mono (fun es t ht => ?_)
      fun _ t ht => ⟨ht.2, ht.1.imp_right fun h => ⟨hi, h⟩⟩)
    obtain ⟨rfl, hq⟩ := ht
    exact .inl ⟨hi, hq⟩
  · obtain ⟨info, entries, hcur⟩ : ∃ info entries,
        s.keyFiles (.keys rel.dbOid) = some (.current info entries) := by
      cases hfile : s.keyFiles (.keys rel.dbOid) with
      | none => simp [scopeInfo, hg, hfile] at hi
      | some f =>
          have hfmt := hf f hfile
          cases f with
          | current info entries => exact ⟨info, entries, rfl⟩
          | empty => simp [scopeInfo, hg, hfile, KeyFile.info] at hi
          | v3 => exact absurd rfl hfmt
          | v4 => exact absurd rfl hfmt
          | v5 => exact absurd rfl hfmt
          | other => exact absurd rfl hfmt
    refine (wp_bind ..).2 ((openFileWrite_current_spec hcur none).mono (fun es t ht => ?_)
      fun _ t ht => ⟨ht.2, .inl ht.1⟩)
    obtain ⟨rfl, hq⟩ := ht
    cases hidx : es.findIdx? (TDEMapEntry.isKeyOf rel.spcOid rel.relNumber) with
    | none =>
        refine .inr ⟨info, es, hcur, ?_⟩
        rw [overwriteFirst_of_findIdx?_none hidx, ← hcur, putKeyFile_self]
        exact hq
    | some i =>
        have hft : t.keyFiles (.keys rel.dbOid) = some (.current info es) := by
          rw [hq.keyFiles, hcur]
        refine (writeOneMapEntry_spec hft i emptyMapEntry).mono (fun _ u hu => ?_)
          fun _ u hu => ⟨fun h => hu.2 (hq.sysOk h), .inl (hq.trans hu.1)⟩
        refine .inr ⟨info, es, hcur, ?_⟩
        rw [← writeAt_findIdx? hidx]
        exact (hq.putKeyFile _ _).trans hu

theorem mem_overwriteFirst {isMatch : TDEMapEntry → Bool} {a b : TDEMapEntry}
    (h : a ∈ overwriteFirst isMatch b entries) : a = b ∨ a ∈ entries := by
  induction entries with
  | nil => cases h
  | cons e entries ih =>
      rw [overwriteFirst] at h
      split at h
      · exact (List.mem_cons.1 h).imp_right (List.mem_cons_of_mem e)
      · obtain rfl | h := List.mem_cons.1 h
        · exact .inr List.mem_cons_self
        · exact (ih h).imp_right (List.mem_cons_of_mem e)

theorem Readable.overwriteFirst {keyData : List UInt8} (h : Readable w keyData entries)
    (isMatch : TDEMapEntry → Bool) :
    Readable w keyData (overwriteFirst isMatch emptyMapEntry entries) := by
  intro a ha ht
  obtain rfl | ha := mem_overwriteFirst ha
  · cases ht
  · exact h a ha ht

/-- Freeing a key keeps the invariant. -/
theorem freeKeyMapEntry_consistent (hs : Consistent w s) (rel : RelFileLocator)
    (hg : rel.dbOid ≠ globalDataTdeOid) (hd : rel.dbOid ≠ defaultDataTdeOid) :
    wp (freeKeyMapEntry rel) (fun _ t => Consistent w t ∧ t.providers = s.providers)
      (fun _ t => Consistent w t ∧ t.providers = s.providers) s := by
  refine (freeKeyMapEntry_spec rel hg ((hs.scopes rel.dbOid).format hg)).mono (fun _ t ht => ?_)
    fun _ t ht => ?_
  · obtain ⟨hi, hq⟩ | ⟨info, entries, hf, hq⟩ := ht
    · exact ⟨hq.consistent (hs.putEmpty hg hi), hq.providers⟩
    · obtain ⟨k, hk⟩ := (hs.scopes rel.dbOid).header info (scopeInfo_current hg hf)
      have hpk := principalKeyOf_of_headerFor (scopeInfo_current hg hf) hk
      have hr := (hs.scopes rel.dbOid).readable hg info entries k hf hpk
      exact ⟨hq.consistent (hs.putEntries hg hd hf hpk (hr.overwriteFirst _)), hq.providers⟩
  · obtain ⟨-, hq | ⟨hi, hq⟩⟩ := ht
    · exact ⟨hq.consistent hs, hq.providers⟩
    · exact ⟨hq.consistent (hs.putEmpty hg hi), hq.providers⟩

/-! ### Looking a key up -/

theorem findMapEntry_spec (rel : RelFileLocator) (hf : s.keyFiles (.keys rel.dbOid) ≠ none)
    (hfmt : ∀ f, s.keyFiles (.keys rel.dbOid) = some f → f.entries ≠ none) :
    wp (findMapEntry rel)
      (fun r t => Quiet s t ∧ r = (((s.keyFiles (.keys rel.dbOid)).bind KeyFile.entries).getD
        []).find? (TDEMapEntry.isKeyOf rel.spcOid rel.relNumber))
      (fun _ t => Quiet s t ∧ ¬s.SysOk) s := by
  refine (findMapEntry_reads rel).mono (fun r t ht => ⟨ht.1, ht.2.1⟩) fun _ t ht =>
    ⟨ht.1, fun hok => ?_⟩
  obtain ⟨f, hf⟩ := Option.ne_none_iff_exists'.1 hf
  have hnone := (ht.2.2 hok).1
  rw [hf, Option.bind_some] at hnone
  exact hfmt f hf hnone

theorem hasSmgrKey_spec (hs : Consistent w s) (rel : RelFileLocator)
    (hg : rel.dbOid ≠ globalDataTdeOid) :
    wp (hasSmgrKey rel)
      (fun r t => Quiet s t ∧
        r = (relationKeys w s rel.dbOid (rel.spcOid, rel.relNumber)).isSome)
      (fun _ t => Quiet s t ∧ ¬s.SysOk) s := by
  unfold hasSmgrKey
  simp only [wp_bind, wp_get]
  by_cases hi : scopeInfo s rel.dbOid = none
  · obtain hf | hf := file_of_scopeInfo_none hg hi
    · rw [hf, relationKeys_of_scopeInfo_none hi]
      exact ⟨Quiet.refl s, rfl⟩
    · simp only [hf, wp_bind, wp_pure]
      refine (findMapEntry_spec rel (by simp [hf]) (by simp [hf, KeyFile.entries])).mono
        (fun r t ht => ?_) fun _ _ h => h
      obtain ⟨hq, rfl⟩ := ht
      rw [relationKeys_of_scopeInfo_none hi, hf]
      exact ⟨hq, rfl⟩
  · obtain ⟨k, hk⟩ : ∃ k, principalKeyOf w s rel.dbOid = some k :=
      Option.ne_none_iff_exists'.1 fun h => hi ((hs.scopes rel.dbOid).principalKeyOf_none.1 h)
    obtain ⟨info, entries, hf, -, hr⟩ := (hs.scopes rel.dbOid).exists_current hg hk
    simp only [hf, wp_bind, wp_pure]
    refine (findMapEntry_spec rel (by simp [hf]) (by simp [hf, KeyFile.entries])).mono
      (fun r t ht => ?_) fun _ _ h => h
    obtain ⟨hq, rfl⟩ := ht
    refine ⟨hq, ?_⟩
    rw [relationKeys_of_current hf hk, hf]
    simp only [Option.bind_some, KeyFile.entries, Option.getD_some]
    cases he : entries.find? (TDEMapEntry.isKeyOf rel.spcOid rel.relNumber) with
    | none => rfl
    | some e =>
        have hkey : e.type = .key := (isKeyOf_iff.1 (List.find?_some he)).1
        simpa using (hr e (List.mem_of_find?_eq_some he) hkey).symm

/-- A lookup returns the key of the relation; it can only fail when the principal key cannot be
had. -/
theorem getSmgrKey_spec (hs : Consistent w s) (rel : RelFileLocator)
    (hg : rel.dbOid ≠ globalDataTdeOid) :
    wp (getSmgrKey w rel)
      (fun r t => Loaded w s t ∧ r = relationKeys w s rel.dbOid (rel.spcOid, rel.relNumber))
      (fun _ t => Loaded w s t ∧ (s.SysOk → s.cache rel.dbOid = none ∧
        ¬Reachable w s rel.dbOid)) s := by
  unfold getSmgrKey
  simp only [wp_bind, wp_get]
  have hquiet : ∀ {v}, Quiet s v ∧ ¬s.SysOk → Loaded w s v ∧ (s.SysOk →
      s.cache rel.dbOid = none ∧ ¬Reachable w s rel.dbOid) :=
    fun hv => ⟨hv.1.loaded, fun hok => absurd hok hv.2⟩
  by_cases hi : scopeInfo s rel.dbOid = none
  · obtain hf | hf := file_of_scopeInfo_none hg hi
    · rw [hf, relationKeys_of_scopeInfo_none hi]
      exact ⟨Loaded.refl s, rfl⟩
    · simp only [hf, wp_bind]
      refine (findMapEntry_spec rel (by simp [hf]) (by simp [hf, KeyFile.entries])).mono
        (fun r t ht => ?_) fun _ _ h => hquiet h
      obtain ⟨hq, rfl⟩ := ht
      rw [relationKeys_of_scopeInfo_none hi, hf]
      exact ⟨hq.loaded, rfl⟩
  · obtain ⟨k, hk⟩ : ∃ k, principalKeyOf w s rel.dbOid = some k :=
      Option.ne_none_iff_exists'.1 fun h => hi ((hs.scopes rel.dbOid).principalKeyOf_none.1 h)
    obtain ⟨info, entries, hf, -, hr⟩ := (hs.scopes rel.dbOid).exists_current hg hk
    simp only [hf, wp_bind]
    refine (findMapEntry_spec rel (by simp [hf]) (by simp [hf, KeyFile.entries])).mono
      (fun r t ht => ?_) fun _ _ h => hquiet h
    obtain ⟨hq, rfl⟩ := ht
    have hl : Loaded w s t := hq.loaded
    have hct := hl.consistent hs
    rw [relationKeys_of_current hf hk, hf]
    simp only [Option.bind_some, KeyFile.entries, Option.getD_some]
    cases he : entries.find? (TDEMapEntry.isKeyOf rel.spcOid rel.relNumber) with
    | none => exact ⟨hl, rfl⟩
    | some e =>
        have hkey : e.type = .key := (isKeyOf_iff.1 (List.find?_some he)).1
        obtain ⟨ik, hik⟩ := Option.isSome_iff_exists.1
          (hr e (List.mem_of_find?_eq_some he) hkey)
        have hit : scopeInfo t rel.dbOid ≠ none := by rwa [hl.scopeInfo]
        refine (wp_bind ..).2 ((getPrincipalKey_spec hct).mono (fun r u hu => ?_)
          fun _ u hu => ⟨?_, fun hok => ?_⟩)
        · obtain ⟨-, hr', -, hlu⟩ := hu
          have hlu' : Loaded w t u := hlu hit
          have hpk : r = some k := by rw [hr', hlu'.principalKeyOf, hl.principalKeyOf, hk]
          subst hpk
          refine (wp_bind ..).2 ((decryptRelKey_spec k e).mono (fun ik' v hv => ?_)
            fun _ v hv => ?_)
          · obtain ⟨rfl, hv⟩ := hv
            exact ⟨hl.trans hlu', by simp [hv]⟩
          · rw [hik] at hv
            cases hv.2
        · exact hl.trans (hu.2 hit).1
        · obtain ⟨hc, hreach⟩ := (hu.2 hit).2 (hl.sysOk hok)
          have hct' : t.cache = s.cache := by
            obtain ⟨_, _, _, _, rfl⟩ := hq
            rfl
          refine ⟨by rw [← hct', hc], fun h => hreach fun info' hinfo' => ?_⟩
          rw [hl.providers, hl.kms]
          exact h info' (by rw [← hl.scopeInfo, hinfo'])

end OpenPgTde
