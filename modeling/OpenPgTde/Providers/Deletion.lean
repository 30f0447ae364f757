import OpenPgTde.Providers.Binding

/-!
A provider in use is never deleted.

`open_pg_tde_delete_key_provider_internal` checks whether the provider that the name leads to in any
letters is in use, and then deletes the record of exactly that name. The two may be different
records. It does no harm: the second then stands behind a live record of the same name in other
letters, no key was ever set through it, and no key refers to it. This is the part of `Bound` that
says that a provider with keys is the one its name leads to.
-/

namespace OpenPgTde

open Lib.Effect Lib.SlotArray

variable {w : World} {s t u : Server} {scope dbOid : Oid} {c : ProviderCall}
  {files : Oid → List KeyringProviderRecord}

/-! ### References and writes -/

/-- The records a name leads to, in any letters. -/
def Answers (name : List UInt8) (r : KeyringProviderRecord) : Bool :=
  r.live && pgStrcaseEq r.providerName name

theorem getKeyProviderByName_eq (files : Oid → List KeyringProviderRecord) (name : List UInt8)
    (dbOid : Oid) : getKeyProviderByName files name dbOid = (files dbOid).find? (Answers name) := by
  unfold getKeyProviderByName scanKeyProviderFile
  rw [List.head?_filter]
  rfl

/-- Overwriting an element that is not the one found, by one that is not found either, does not
change what is found. -/
theorem find?_overwrite {p : KeyringProviderRecord → Bool}
    {pre post : List KeyringProviderRecord} {old new r : KeyringProviderRecord}
    (h : (pre ++ old :: post).find? p = some r) (hne : r ≠ old)
    (hnew : p new = true → p old = true) : (pre ++ new :: post).find? p = some r := by
  rw [List.find?_append] at h ⊢
  cases hpre : pre.find? p with
  | some a =>
      rw [hpre] at h
      exact h
  | none =>
      rw [hpre] at h
      rw [Option.none_or, List.find?_cons] at h ⊢
      cases hold : p old with
      | true =>
          rw [hold] at h
          cases h
          exact absurd rfl hne
      | false =>
          rw [hold] at h
          cases hn : p new with
          | true => rw [hnew hn] at hold; cases hold
          | false => exact h

/-- A record that is found stays so when it is overwritten by one that would be found. -/
theorem find?_overwrite_self {p : KeyringProviderRecord → Bool}
    {pre post : List KeyringProviderRecord} {old new : KeyringProviderRecord}
    (h : (pre ++ old :: post).find? p = some old) (hpre : old ∉ pre) (hnew : p new = true) :
    (pre ++ new :: post).find? p = some new := by
  rw [List.find?_append] at h ⊢
  cases hp : pre.find? p with
  | some a =>
      rw [hp] at h
      cases h
      exact absurd (List.mem_of_find?_eq_some hp) hpre
  | none => rw [Option.none_or, List.find?_cons, hnew]

section Write

variable {name : List UInt8} {offset : ℕ} {r : KeyringProviderRecord} {d : TDEPrincipalKeyInfo}

/-- A reference survives every write but the deletion of what it refers to. -/
theorem RefOk.write (h : RefOk files scope d) (hf : ProviderFileOk dbOid (files dbOid))
    (hw : SlotWrite dbOid (files dbOid) name offset r)
    (hused : r.live = false → d.keyringId = r.providerId → providerScope d.keyringId scope ≠ dbOid) :
    RefOk (Function.update files dbOid (writeAt (files dbOid) offset r)) scope d := by
  refine ⟨h.owner, h.shared, ?_⟩
  obtain ⟨r₀, hid, hname⟩ := h.resolves
  by_cases hs : providerScope d.keyringId scope = dbOid
  · have hnew := hw.fileOk hf
    obtain ⟨hmem, hlive, hid₀⟩ := (hf.getKeyProviderByID_iff hs).1 hid
    rw [hs, getKeyProviderByName_eq] at hname
    -- the record the reference leads to after the write
    have key : ∀ r₁, r₁ ∈ writeAt (files dbOid) offset r → r₁.live = true →
        r₁.providerId = d.keyringId →
        (writeAt (files dbOid) offset r).find? (Answers r₁.providerName) = some r₁ →
        ∃ r₁, getKeyProviderByID (Function.update files dbOid (writeAt (files dbOid) offset r))
            d.keyringId scope = some r₁ ∧
          getKeyProviderByName (Function.update files dbOid (writeAt (files dbOid) offset r))
            r₁.providerName (providerScope d.keyringId scope) = some r₁ := by
      intro r₁ hmem₁ hlive₁ hid₁ hname₁
      refine ⟨r₁, ?_, ?_⟩
      · have hself : ProviderFileOk dbOid
            (Function.update files dbOid (writeAt (files dbOid) offset r) dbOid) := by
          rw [Function.update_self]
          exact hnew
        refine (hself.getKeyProviderByID_iff hs).2 ⟨?_, hlive₁, hid₁⟩
        rw [Function.update_self]
        exact hmem₁
      · rw [hs, getKeyProviderByName_eq, Function.update_self]
        exact hname₁
    cases hw with
    | add =>
        rw [writeAt_length] at key ⊢
        refine key r₀ (List.mem_append_left _ hmem) hlive hid₀ ?_
        rw [List.find?_append, hname, Option.some_or]
    | @change pre post old _ hfile hnamed hlr hnr hidr =>
        obtain ⟨-, hnold⟩ := named_iff.1 hnamed
        rw [hfile, writeAt_append] at key ⊢
        rw [hfile] at hmem hname
        by_cases hr₀ : r₀ = old
        · subst hr₀
          have hpre : r₀ ∉ pre := by
            have hnd := hf.ids
            rw [hfile, providerIds_append, providerIds_cons] at hnd
            intro hin
            exact (List.nodup_append.1 hnd).2.2 _ (List.mem_map_of_mem hin) _
              List.mem_cons_self rfl
          refine key r (by simp) hlr (by rw [hidr, hid₀]) (find?_overwrite_self ?_ hpre ?_)
          · rw [hnr, ← hnold]
            exact hname
          · simp [Answers, hlr, pgStrcaseEq]
        · refine key r₀ ?_ hlive hid₀ (find?_overwrite hname hr₀ fun hp => ?_)
          · obtain hin | hin := List.mem_append.1 hmem
            · exact List.mem_append_left _ hin
            · obtain rfl | hin := List.mem_cons.1 hin
              · exact absurd rfl hr₀
              · exact List.mem_append_right _ (List.mem_cons_of_mem _ hin)
          · have hlold := (named_iff.1 hnamed).1
            simpa [Answers, hlr, hlold, hnr, hnold] using hp
    | @erase pre post old hfile hnamed _ =>
        have hr₀ : r₀ ≠ old := by
          rintro rfl
          exact hused rfl hid₀.symm hs
        rw [hfile, writeAt_append] at key ⊢
        rw [hfile] at hmem hname
        refine key r₀ ?_ hlive hid₀ (find?_overwrite hname hr₀ fun hp => ?_)
        · obtain hin | hin := List.mem_append.1 hmem
          · exact List.mem_append_left _ hin
          · obtain rfl | hin := List.mem_cons.1 hin
            · exact absurd rfl hr₀
            · exact List.mem_append_right _ (List.mem_cons_of_mem _ hin)
        · simp [Answers, KeyringProviderRecord.erased, KeyringProviderRecord.live] at hp
  · refine ⟨r₀, ?_, ?_⟩
    · rw [← hid]
      simp [getKeyProviderByID, Function.update_of_ne hs]
    · rw [← hname]
      simp [getKeyProviderByName, Function.update_of_ne hs]

/-- A write that deletes nothing in use. -/
theorem Bound.putProvider (hs : Bound s) (hw : SlotWrite dbOid (s.providers dbOid) name offset r)
    (hused : r.live = false → Unreferenced s dbOid r.providerId) :
    Bound (s.putProvider dbOid offset r) := by
  refine ⟨fun a info hi => ?_, hs.known, hs.cached, fun a => ?_⟩
  · refine (hs.header a info hi).write (hs.files dbOid) hw fun hl hid => ?_
    rw [hid]
    exact hused hl a info hi hid
  · show ProviderFileOk a (Function.update s.providers dbOid _ a)
    by_cases ha : a = dbOid
    · subst ha
      rw [Function.update_self]
      exact hw.fileOk (hs.files a)
    · rw [Function.update_of_ne ha]
      exact hs.files a

end Write

/-! ### The usage check -/

theorem Bound.ne_of_notUsedBy {providerId : ℤ} {info : TDESignedPrincipalKeyInfo} (hs : Bound s)
    (h : NotUsedBy s scope providerId) (hi : scopeInfo s scope = some info) :
    info.data.keyringId ≠ providerId := by
  cases hc : s.cache scope with
  | none => exact absurd (hs.header scope info hi).owner (h.2 hc info hi)
  | some k =>
      obtain ⟨info', hi', hk⟩ := hs.cached scope k hc
      rw [hi] at hi'
      cases hi'
      rw [← hk]
      exact h.1 k hc

theorem isProviderUsed_spec (hs : Bound s) (providerId : ℤ) :
    wp (isProviderUsed w dbOid providerId)
      (fun b t => Cached s t ∧ (b = false → Unreferenced s dbOid providerId))
      (fun _ t => Cached s t) s := by
  have howns : ∀ a info, scopeInfo s a = some info → info.data.databaseId = a :=
    fun a info hi => (hs.header a info hi).owner
  refine (wp_ite ..).2 ⟨fun _ => ?_, fun hlocal => ?_⟩
  · refine (wp_bind ..).2 ((usesProvider_cached providerId).mono (fun b t ht => ?_)
      fun _ _ h => h)
    cases b with
    | true => exact ⟨ht.1, fun h => by cases h⟩
    | false =>
        refine (wp_bind ..).2 ((usesProvider_cached providerId).mono (fun b u hu => ?_)
          fun _ u hu => ht.1.trans hu)
        have hsu := ht.1.trans hu.1
        cases b with
        | true => exact ⟨hsu, fun h => by cases h⟩
        | false =>
            have hownsu : ∀ a info, scopeInfo u a = some info → info.data.databaseId = a :=
              fun a info hi => howns a info (by rw [← hsu.scopeInfo, hi])
            refine (usedByDatabase_cached providerId _ hownsu).mono (fun b v hv => ?_)
              fun _ v hv => hsu.trans hv
            have hsv := hsu.trans hv.1
            refine ⟨hsv, fun hb a info hi hid _ => ?_⟩
            have hiv : scopeInfo v a = some info := by rw [hsv.scopeInfo, hi]
            -- every scope that can have a header was looked at
            have hnot : NotUsedBy v a providerId := by
              obtain rfl | rfl | ⟨db, hdb, rfl⟩ := hs.known a info hi
              · exact (ht.2 rfl).mono (hu.1.trans hv.1) fun a info hi =>
                  howns a info (by rw [← ht.1.scopeInfo, hi])
              · exact (hu.2 rfl).mono hv.1 hownsu
              · exact hv.2 hb db (by rwa [hsu.databases])
            exact (hsv.keeps hs).bound.ne_of_notUsedBy hnot hiv hid
  · refine (usesProvider_cached providerId).mono (fun b t ht => ⟨ht.1, fun hb => ?_⟩)
      fun _ _ h => h
    intro a info hi hid hsc
    have ha : a = dbOid := by
      unfold providerScope at hsc
      split at hsc
      · exact absurd (.inl hsc.symm) hlocal
      · exact hsc
    subst ha
    have hit : scopeInfo t a = some info := by rw [ht.1.scopeInfo, hi]
    exact (ht.1.keeps hs).bound.ne_of_notUsedBy (ht.2 hb) hit hid

/-- A record of exactly the given name is not in use if the provider the name leads to is not: if
they are not the same, no key refers to the record. -/
theorem Bound.unreferenced_of_name {name : List UInt8} {keyring record : KeyringProviderRecord}
    (hs : Bound s) (hk : getKeyProviderByName s.providers name dbOid = some keyring)
    (hmem : record ∈ s.providers dbOid) (hname : record.providerName = name)
    (hused : Unreferenced s dbOid keyring.providerId) :
    Unreferenced s dbOid record.providerId := by
  intro a info hi hid hsc
  obtain ⟨r, hr, hfirst⟩ := (hs.header a info hi).resolves
  rw [hid] at hr hfirst
  obtain ⟨hrmem, -, hrid⟩ := ((hs.files dbOid).getKeyProviderByID_iff hsc).1 hr
  obtain rfl : r = record := List.inj_on_of_nodup_map (hs.files dbOid).ids hrmem hmem hrid
  rw [hsc, hname, hk] at hfirst
  cases hfirst
  exact hused a info hi hid hsc

/-! ### The provider operations -/

theorem WriteFailed.bound {offset : ℕ} {r : KeyringProviderRecord} (h : WriteFailed s dbOid offset r t)
    (hs : Bound s) (hw : Bound (s.putProvider dbOid offset r)) :
    Bound t ∧ t.databases = s.databases := by
  cases h with
  | before hq => exact ⟨(hq.keeps hs).bound, hq.databases⟩
  | logged hq =>
      have hlog : Bound (s.logged [.writeKeyProvider dbOid offset r]) :=
        (Keeps.of_eq (t := s.logged [.writeKeyProvider dbOid offset r]) hs rfl rfl (fun _ => rfl)
          rfl).bound
      exact ⟨(hq.keeps hlog).bound, hq.databases⟩
  | written hq => exact ⟨(hq.keeps hw).bound, hq.databases⟩

/-- Adding and changing delete nothing. -/
theorem ProviderOp.Writes.live {op : ProviderOp} {file : List KeyringProviderRecord} {offset : ℕ}
    {r : KeyringProviderRecord} (h : op.Writes file offset r)
    (hop : ∀ c dbOid, op ≠ .delete c dbOid) : r.live = true := by
  obtain ⟨name, -, hw, hkind⟩ := h
  cases op with
  | delete c dbOid => exact absurd rfl (hop c dbOid)
  | change c dbOid => exact hkind.1
  | add c dbOid =>
      cases hw with
      | add hlive => exact hlive
      | change _ _ hlive => exact hlive
      | erase hfile =>
          rw [hfile, List.length_append, List.length_cons] at hkind
          omega

theorem ProviderOp.exec_bound_of_live (op : ProviderOp) (hop : ∀ c dbOid, op ≠ .delete c dbOid)
    (hs : Bound s) :
    wp (op.exec w) (fun _ t => Bound t ∧ t.databases = s.databases)
      (fun _ t => Bound t ∧ t.databases = s.databases) s := by
  have hwrite : ∀ {u : Server} {offset : ℕ} {r : KeyringProviderRecord}, Cached s u →
      op.Writes (s.providers op.dbOid) offset r → Bound u ∧ u.databases = s.databases ∧
        Bound (u.putProvider op.dbOid offset r) := by
    intro u offset r hu hw
    have hbu := (hu.keeps hs).bound
    have hlive := hw.live hop
    refine ⟨hbu, hu.databases, ?_⟩
    obtain ⟨name, -, hslot, -⟩ := hw
    rw [← hu.providers] at hslot
    refine hbu.putProvider hslot fun hl => ?_
    rw [hlive] at hl
    cases hl
  refine op.exec_spec.mono (fun _ t ht => ?_) fun _ t ht => ?_
  · obtain ⟨u, offset, r, hu, hw, hq⟩ := ht
    obtain ⟨-, hd, hput⟩ := hwrite hu hw
    exact ⟨(hq.keeps hput).bound, hq.databases.trans hd⟩
  · obtain ht | ⟨u, offset, r, hu, hw, hf, -⟩ := ht
    · exact ⟨(ht.keeps hs).bound, ht.databases⟩
    · obtain ⟨hbu, hd, hput⟩ := hwrite hu hw
      obtain ⟨hbt, hdt⟩ := hf.bound hbu hput
      exact ⟨hbt, hdt.trans hd⟩

/-- From `s` to `t` nothing has changed but that live records of this name may be gone from the file
of `dbOid`. -/
structure Erased (s t : Server) (dbOid : Oid) (name : List UInt8) : Prop where
  bound : Bound t
  databases : t.databases = s.databases
  cache : t.cache = s.cache
  headers : ∀ a, scopeInfo t a = scopeInfo s a
  known : ∀ a, ∀ r ∈ t.providers a, r.live = true → r ∈ s.providers a
  kept : ∀ a, ∀ r ∈ s.providers a, (a = dbOid → r.providerName ≠ name) → r ∈ t.providers a

theorem Erased.of_quiet {name : List UInt8} (hs : Bound s) (h : Quiet s t) :
    Erased s t dbOid name where
  bound := (h.keeps hs).bound
  databases := h.databases
  cache := h.cache
  headers := h.scopeInfo
  known a r hr _ := by rwa [h.providers] at hr
  kept a r hr _ := by rwa [h.providers]

theorem deleteKeyProviderInfo_erased {name : List UInt8} (hs : Bound s)
    (hunused : ∀ r ∈ s.providers dbOid, Named name r = true → Unreferenced s dbOid r.providerId) :
    wp (deleteKeyProviderInfo name dbOid) (fun _ t => Erased s t dbOid name)
      (fun _ t => Erased s t dbOid name) s := by
  refine (wp_bind ..).2 ((sysCall_spec _).mono (fun _ u hu => ?_) fun _ _ hu => .of_quiet hs hu.2.1)
  have hbu := (hu.keeps hs).bound
  simp only [wp_bind, wp_get]
  rcases hrec : getKeyringInfoFileRecordByName name (u.providers dbOid) with _ | ⟨offset, record⟩
  · exact .of_quiet hs hu
  obtain ⟨pre, post, hfile, rfl, hnamed, hfirst⟩ := getKeyringInfoFileRecordByName_eq_some hrec
  have hput : Bound (u.putProvider dbOid pre.length record.erased) := by
    refine hbu.putProvider (.erase hfile hnamed hfirst) fun _ => ?_
    have hmem : record ∈ s.providers dbOid := by
      rw [← hu.providers, hfile]
      simp
    exact (hunused record hmem hnamed).congr hu.scopeInfo
  have hwritten : ∀ {v}, Quiet (u.putProvider dbOid pre.length record.erased) v →
      Erased s v dbOid name := by
    intro v hv
    have hfiles : v.providers = Function.update s.providers dbOid (pre ++ record.erased :: post) := by
      rw [hv.providers, ← hu.providers]
      show Function.update u.providers dbOid (writeAt (u.providers dbOid) _ _) = _
      rw [hfile, writeAt_append]
    rw [hu.providers] at hfile
    refine ⟨(hv.keeps hput).bound, hv.databases.trans hu.databases, hv.cache.trans hu.cache,
      fun a => (hv.scopeInfo a).trans (hu.scopeInfo a), fun a r hr hlive => ?_, fun a r hr hne => ?_⟩
    · rw [hfiles] at hr
      by_cases ha : a = dbOid
      · subst ha
        rw [Function.update_self] at hr
        rw [hfile]
        obtain hr | hr := List.mem_append.1 hr
        · exact List.mem_append_left _ hr
        · obtain rfl | hr := List.mem_cons.1 hr
          · simp [KeyringProviderRecord.erased, KeyringProviderRecord.live] at hlive
          · exact List.mem_append_right _ (List.mem_cons_of_mem _ hr)
      · rwa [Function.update_of_ne ha] at hr
    · rw [hfiles]
      by_cases ha : a = dbOid
      · subst ha
        rw [Function.update_self]
        rw [hfile] at hr
        obtain hr | hr := List.mem_append.1 hr
        · exact List.mem_append_left _ hr
        · obtain rfl | hr := List.mem_cons.1 hr
          · exact absurd (named_iff.1 hnamed).2 (hne rfl)
          · exact List.mem_append_right _ (List.mem_cons_of_mem _ hr)
      · rwa [Function.update_of_ne ha]
  refine (writeKeyProviderInfo_spec dbOid pre.length record.erased).mono
    (fun _ v hv => hwritten hv) fun _ v hv => ?_
  cases hv.1 with
  | before hq => exact .of_quiet hs (hu.trans hq)
  | logged hq =>
      have hlog : Keeps u (u.logged [.writeKeyProvider dbOid pre.length record.erased]) :=
        .of_eq hbu rfl rfl (fun _ => rfl) rfl
      have hv := (hq.keeps hlog.bound).bound
      exact ⟨hv, hq.databases.trans hu.databases, hq.cache.trans hu.cache,
        fun a => (hq.scopeInfo a).trans (hu.scopeInfo a),
        fun a r hr _ => by rwa [hq.providers, Server.logged, hu.providers] at hr,
        fun a r hr _ => by rwa [hq.providers, Server.logged, hu.providers]⟩
  | written hq => exact hwritten hq

theorem deleteKeyProvider_bound (hs : Bound s) (c : ProviderCall) (dbOid : Oid) :
    wp (deleteKeyProvider w c dbOid) (fun _ t => Bound t ∧ t.databases = s.databases)
      (fun _ t => Bound t ∧ t.databases = s.databases) s := by
  have hcached : ∀ {t}, Cached s t → Bound t ∧ t.databases = s.databases := fun h =>
    ⟨(h.keeps hs).bound, h.databases⟩
  have hrefl := hcached (Quiet.refl s).cached
  unfold deleteKeyProvider
  refine (wp_ite ..).2 ⟨fun _ => hrefl, fun _ => ?_⟩
  rcases c.providerName with _ | name
  · exact hrefl
  refine (wp_bind ..).2 ((wp_get ..).2 ?_)
  rcases hk : getKeyProviderByName s.providers name dbOid with _ | keyring
  · exact hrefl
  refine (wp_bind ..).2 ((isProviderUsed_spec hs keyring.providerId).mono (fun b t ht => ?_)
    fun _ t ht => hcached ht)
  refine (wp_ite ..).2 ⟨fun _ => hcached ht.1, fun hb => ?_⟩
  have hunused := ht.2 (by simpa using hb)
  have hbt := (ht.1.keeps hs).bound
  refine (deleteKeyProviderInfo_erased hbt fun r hr hnamed => ?_).mono
    (fun _ u hu => ⟨hu.bound, hu.databases.trans ht.1.databases⟩)
    fun _ u hu => ⟨hu.bound, hu.databases.trans ht.1.databases⟩
  rw [ht.1.providers] at hr
  exact (hs.unreferenced_of_name hk hr (named_iff.1 hnamed).2 hunused).congr ht.1.scopeInfo

theorem ProviderOp.exec_bound (op : ProviderOp) (hs : Bound s) :
    wp (op.exec w) (fun _ t => Bound t ∧ t.databases = s.databases)
      (fun _ t => Bound t ∧ t.databases = s.databases) s := by
  cases op with
  | add c dbOid => exact (ProviderOp.add c dbOid).exec_bound_of_live (by simp) hs
  | change c dbOid => exact (ProviderOp.change c dbOid).exec_bound_of_live (by simp) hs
  | delete c dbOid => exact deleteKeyProvider_bound hs c dbOid

/-! ### Runs -/

/-- The operations on providers and on principal keys. The last one stands for the servers behind
the providers, which may answer differently at different times. -/
inductive KeyringOp
  | provider (op : ProviderOp)
  | setKeyUsingDatabaseKeyProvider (db : DatabaseId) (c : SetKeyCall)
  | setKeyUsingGlobalKeyProvider (db : DatabaseId) (c : SetKeyCall)
  | setServerKeyUsingGlobalKeyProvider (c : SetKeyCall)
  | setDefaultKeyUsingGlobalKeyProvider (c : SetKeyCall)
  | deleteKey (db : DatabaseId)
  | deleteDefaultKey (superuser : Bool)
  | getServerKey
  | getDatabaseKey (db : DatabaseId)
  | keyServers (kms : KeyringProviderRecord → List UInt8 → KmsReply)

def KeyringOp.exec (w : World) : KeyringOp → M Unit
  | provider op => op.exec w
  | setKeyUsingDatabaseKeyProvider db c => OpenPgTde.setKeyUsingDatabaseKeyProvider w db c
  | setKeyUsingGlobalKeyProvider db c => OpenPgTde.setKeyUsingGlobalKeyProvider w db c
  | setServerKeyUsingGlobalKeyProvider c => OpenPgTde.setServerKeyUsingGlobalKeyProvider w c
  | setDefaultKeyUsingGlobalKeyProvider c => OpenPgTde.setDefaultKeyUsingGlobalKeyProvider w c
  | deleteKey db => OpenPgTde.deleteKey w db
  | deleteDefaultKey superuser => OpenPgTde.deleteDefaultKey w superuser
  | getServerKey => do let _ ← getPrincipalKey w globalDataTdeOid
  | getDatabaseKey db => do let _ ← getPrincipalKey w db.oid
  | keyServers kms => modify fun s => { s with kms := kms }

/-- The session that makes the call is one of these databases. -/
def KeyringOp.In (dbs : List DatabaseId) : KeyringOp → Prop
  | setKeyUsingDatabaseKeyProvider db _ => db ∈ dbs
  | setKeyUsingGlobalKeyProvider db _ => db ∈ dbs
  | getDatabaseKey db => db ∈ dbs
  | _ => True

/-- A run; an operation that fails leaves what it has done so far. -/
def keyringRun (w : World) (ops : List KeyringOp) (s : Server) : Server :=
  ops.foldl (fun s op => after (op.exec w) s) s

theorem KeyringOp.exec_bound (op : KeyringOp) (hs : Bound s) (hin : op.In s.databases) :
    Bound (after (op.exec w) s) ∧ (after (op.exec w) s).databases = s.databases := by
  have hkeeps : ∀ {α : Type} {m : M α}, wp m (fun _ t => Keeps s t) (fun _ t => Keeps s t) s →
      Bound (after m s) ∧ (after m s).databases = s.databases := fun h =>
    ⟨h.after.bound, h.after.databases⟩
  cases op with
  | provider op =>
      exact wp.after (P := fun t => Bound t ∧ t.databases = s.databases) (op.exec_bound hs)
  | setKeyUsingDatabaseKeyProvider db c =>
      exact hkeeps (setPrincipalKeyInternal_keeps hs (.inr ⟨rfl, db.ne_default, db.ne_global⟩)
        (.inr (.inr ⟨db, hin, rfl⟩)) c)
  | setKeyUsingGlobalKeyProvider db c =>
      exact hkeeps (setPrincipalKeyInternal_keeps hs (.inl rfl) (.inr (.inr ⟨db, hin, rfl⟩)) c)
  | setServerKeyUsingGlobalKeyProvider c =>
      exact hkeeps (setPrincipalKeyInternal_keeps hs (.inl rfl) (.inl rfl) c)
  | setDefaultKeyUsingGlobalKeyProvider c =>
      exact hkeeps (setDefaultKeyUsingGlobalKeyProvider_keeps hs c)
  | deleteKey db => exact hkeeps (deleteKey_keeps hs db)
  | deleteDefaultKey superuser => exact hkeeps (deleteDefaultKey_keeps hs superuser)
  | getServerKey => exact hkeeps ((wp_bind ..).2 (getPrincipalKey_keeps hs (.inl rfl)))
  | getDatabaseKey db =>
      exact hkeeps ((wp_bind ..).2 (getPrincipalKey_keeps hs (.inr (.inr ⟨db, hin, rfl⟩))))
  | keyServers kms =>
      have hk : Keeps s { s with kms := kms } := .of_eq hs rfl rfl (fun _ => rfl) rfl
      exact ⟨hk.bound, hk.databases⟩

theorem keyringRun_bound (ops : List KeyringOp) (hs : Bound s)
    (hin : ∀ op ∈ ops, op.In s.databases) : Bound (keyringRun w ops s) := by
  induction ops generalizing s with
  | nil => exact hs
  | cons op ops ih =>
      obtain ⟨hb, hd⟩ := op.exec_bound (w := w) hs (hin op List.mem_cons_self)
      refine ih hb fun op' hop' => ?_
      rw [hd]
      exact hin op' (List.mem_cons_of_mem op hop')

/-- A server without providers and without keys. -/
structure Server.New (s : Server) : Prop where
  providers : ∀ scope, s.providers scope = []
  keyFiles : ∀ scope, s.keyFiles (.keys scope) = none
  walKeys : s.walKeys .walKeys = none
  cache : ∀ scope, s.cache scope = none

theorem Server.New.bound (h : s.New) : Bound s := by
  have hnone : ∀ a, scopeInfo s a = none := fun a => by
    simp [scopeInfo, h.keyFiles, h.walKeys]
  refine ⟨fun a info hi => ?_, fun a info hi => ?_, fun a k hk => ?_, fun a => ?_⟩
  · rw [hnone] at hi
    cases hi
  · rw [hnone] at hi
    cases hi
  · rw [h.cache] at hk
    cases hk
  · rw [h.providers]
    exact ProviderFileOk.nil

/-- In every state of every run, the header of every scope refers to a live provider. -/
theorem provider_in_use_not_deleted (w : World) (s : Server) (hs : s.New) (ops : List KeyringOp)
    (hin : ∀ op ∈ ops, op.In s.databases) (scope : Oid) (info : TDESignedPrincipalKeyInfo)
    (hi : scopeInfo (keyringRun w ops s) scope = some info) :
    ∃ r, getKeyProviderByID (keyringRun w ops s).providers info.data.keyringId scope = some r ∧
      r.live = true := by
  have hb := keyringRun_bound (w := w) ops hs.bound hin
  obtain ⟨r, hr, -⟩ := (hb.header scope info hi).resolves
  have hl := ((hb.files _).getKeyProviderByID_iff rfl).1 hr
  exact ⟨r, hr, hl.2.1⟩

def newServer : Server := { sampleServer with providers := fun _ => [] }

theorem newServer_new : newServer.New := ⟨fun _ => rfl, fun _ => rfl, rfl, fun _ => rfl⟩

/-- Global providers `A` and `a`, a server key through the name `a`, and an attempt to delete `a`. -/
def sampleKeyringOps : List KeyringOp :=
  [.provider (.add (sampleProviderCall [65]) globalDataTdeOid),
    .provider (.add (sampleProviderCall [97]) globalDataTdeOid),
    .setServerKeyUsingGlobalKeyProvider ⟨true, true, some [83], some [97]⟩,
    .provider (.delete (sampleProviderCall [97]) globalDataTdeOid)]

theorem provider_in_use_not_deleted_letters :
    newServer.New ∧ ∃ info r,
      scopeInfo (keyringRun sampleWorld sampleKeyringOps newServer) globalDataTdeOid = some info ∧
      getKeyProviderByID (keyringRun sampleWorld sampleKeyringOps newServer).providers
        info.data.keyringId globalDataTdeOid = some r ∧ r.live = true := by
  refine ⟨newServer_new, ?_⟩
  have hsome : (scopeInfo (keyringRun sampleWorld sampleKeyringOps newServer)
      globalDataTdeOid).isSome = true := by decide +kernel
  obtain ⟨info, hi⟩ := Option.isSome_iff_exists.1 hsome
  obtain ⟨r, hr⟩ := provider_in_use_not_deleted sampleWorld newServer newServer_new
    sampleKeyringOps (by simp [sampleKeyringOps, KeyringOp.In]) globalDataTdeOid info hi
  exact ⟨info, r, hi, hr⟩

end OpenPgTde
