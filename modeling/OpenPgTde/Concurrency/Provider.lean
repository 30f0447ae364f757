import OpenPgTde.Concurrency.SmgrKey
import OpenPgTde.Providers.Names

/-!
Deleting a provider while other sessions set keys.

The two calls meet under two locks. A deletion looks the provider up under the lock of the provider
files, checks under the lock of the keys that no principal key refers to it, and erases the record
under the lock of the provider files again; it holds neither in between. A call that sets a key holds
the lock of the keys from the lookup of the key there is to the end, and takes the lock of the
provider files in between to look up the provider. So a provider may be looked up for a new key after
the check and before the record is erased.

What else a call that sets a key does, for the default key, is done in sections of their own before
and after it. They are actions that may happen at any time the lock of the keys is free.
-/

namespace OpenPgTde

open Lib.Effect Lib.SlotArray Lib.Schedule

variable {w : World} {s t u : Server} {scope dbOid : Oid}

/-! ### The sections of the calls -/

/-- The sections of `open_pg_tde_delete_key_provider_internal`. -/
theorem deleteKeyProvider_eq (c : ProviderCall) (dbOid : Oid) : deleteKeyProvider w c dbOid = (do
    if c.superuser = false then throw .mustBeSuperuser
    match c.providerName with
    | none => throw .providerArgumentNull
    | some name =>
      let keyring ← findKeyProvider name dbOid
      if ← isProviderUsed w dbOid keyring.providerId then throw .providerInUse
      deleteKeyProviderInfo name dbOid) := by
  unfold deleteKeyProvider findKeyProvider
  refine congrArg (ite _ _) ?_
  cases c.providerName with
  | none => rfl
  | some name =>
      dsimp only
      rw [bind_assoc]
      refine get_bind_congr fun s => ?_
      cases getKeyProviderByName s.providers name dbOid <;> rfl

/-- A scope and where its key may come from. -/
structure KeyTarget where
  providerOid : Oid
  scope : Oid
  allowed : ProviderScopeOk providerOid scope

/-- How far a session is in deleting a provider: the section that is next, with what it needs. -/
inductive DeleteStage
  | idle
  | checking (dbOid : Oid) (name : List UInt8) (providerId : ℤ)
  | deleting (dbOid : Oid) (name : List UInt8)
  deriving DecidableEq

/-- A call that sets a key and holds the lock of the keys; before the lookup of the provider there is
no keyring. -/
structure SetStage where
  target : KeyTarget
  keyName : List UInt8
  providerName : List UInt8
  curr : Option TDEPrincipalKey
  keyring : Option KeyringProviderRecord

/-- The server, the sessions that delete providers, and the call that holds the lock of the keys. -/
structure ProviderSessions where
  server : Server
  deletes : ℕ → DeleteStage
  setter : Option SetStage

inductive ProviderAct
  /-- The lookup at the start of a deletion. -/
  | find (p : ℕ) (c : ProviderCall) (dbOid : Oid)
  | check (p : ℕ)
  | erase (p : ℕ)
  /-- The start of a call that sets a key, with the lookup of the key there is. -/
  | lockKeys (target : KeyTarget) (keyName providerName : List UInt8)
  | findProvider
  | writeKey
  | lookUpKey (scope : Oid)
  | carryDefaultKey (oldKey : TDEPrincipalKey)

instance (s : Server) (scope : Oid) : Decidable (s.HasScope scope) := by
  unfold Server.HasScope
  infer_instance

def providerStep (w : World) (x : ProviderSessions) : ProviderAct → ProviderSessions
  | .find p c dbOid =>
    match x.deletes p, c.superuser, c.providerName with
    | .idle, true, some name =>
      match findKeyProvider name dbOid x.server with
      | .ok keyring t =>
        ⟨t, Function.update x.deletes p (.checking dbOid name keyring.providerId), x.setter⟩
      | .error _ t => ⟨t, x.deletes, x.setter⟩
    | _, _, _ => x
  | .check p =>
    match x.deletes p, x.setter with
    | .checking dbOid name providerId, none =>
      match isProviderUsed w dbOid providerId x.server with
      | .ok used t =>
        ⟨t, Function.update x.deletes p (if used then .idle else .deleting dbOid name), none⟩
      | .error _ t => ⟨t, Function.update x.deletes p .idle, none⟩
    | _, _ => x
  | .erase p =>
    match x.deletes p with
    | .deleting dbOid name =>
      ⟨after (deleteKeyProviderInfo name dbOid) x.server, Function.update x.deletes p .idle, x.setter⟩
    | _ => x
  | .lockKeys target keyName providerName =>
    if x.setter.isNone ∧ x.server.HasScope target.scope then
      match getPrincipalKeyNoDefault w target.scope x.server with
      | .ok curr t => ⟨t, x.deletes, some ⟨target, keyName, providerName, curr, none⟩⟩
      | .error _ t => ⟨t, x.deletes, none⟩
    else x
  | .findProvider =>
    match x.setter with
    | some ⟨target, keyName, providerName, curr, none⟩ =>
      match findKeyProvider providerName target.providerOid x.server with
      | .ok keyring t => ⟨t, x.deletes, some ⟨target, keyName, providerName, curr, some keyring⟩⟩
      | .error _ t => ⟨t, x.deletes, none⟩
    | _ => x
  | .writeKey =>
    match x.setter with
    | some ⟨target, keyName, _, curr, some keyring⟩ =>
      ⟨after (writePrincipalKey w keyName target.scope curr keyring) x.server, x.deletes, none⟩
    | _ => x
  | .lookUpKey scope =>
    if x.setter.isNone then
      { x with server := after (getPrincipalKeyNoDefault w scope) x.server }
    else x
  | .carryDefaultKey oldKey =>
    if x.setter.isNone then
      { x with server := after (OpenPgTde.carryDefaultKey w oldKey) x.server }
    else x

/-- No call is under way. -/
def Server.noCalls (s : Server) : ProviderSessions := ⟨s, fun _ => .idle, none⟩

/-- Where a call that sets a key looks up its provider, it does not find one that a deletion has
found unused and not erased yet. -/
def ProviderSpared (x : ProviderSessions) : ProviderAct → Prop
  | .findProvider => ∀ c ∈ x.setter, c.keyring = none → ∀ r, getKeyProviderByName x.server.providers
      c.providerName c.target.providerOid = some r →
    ∀ p, x.deletes p ≠ .deleting c.target.providerOid r.providerName
  | _ => True

/-- The names of the live providers of each file are distinct even where case is ignored. -/
def NamesApart (files : Oid → List KeyringProviderRecord) : Prop :=
  ∀ a, ∀ r ∈ files a, ∀ r' ∈ files a, r.live = true → r'.live = true →
    pgStrcaseEq r.providerName r'.providerName = true → r = r'

/-! ### The invariant -/

/-- Like `Keeps`, where no provider has come to be referred to. -/
structure KeepsUnused (s t : Server) : Prop where
  keeps : Keeps s t
  unused : ∀ dbOid providerId, Unreferenced s dbOid providerId → Unreferenced t dbOid providerId

theorem Cached.keepsUnused (h : Cached s t) (hs : Bound s) : KeepsUnused s t :=
  ⟨h.keeps hs, fun _ _ hun => hun.congr h.scopeInfo⟩

theorem KeepsUnused.trans (h : KeepsUnused s t) (h' : KeepsUnused t u) : KeepsUnused s u :=
  ⟨h.keeps.trans h'.keeps, fun a id hun => h'.unused a id (h.unused a id hun)⟩

/-- Carrying the default key over brings no new reference: the default scope has it already. -/
theorem carryDefaultKey_keepsUnused (hs : Bound s) (oldKey : TDEPrincipalKey) :
    wp (carryDefaultKey w oldKey) (fun _ t => KeepsUnused s t) (fun _ t => KeepsUnused s t) s := by
  refine (wp_bind ..).2 ((getPrincipalKeyNoDefault_lookedUp hs).mono (fun r t ht => ?_)
    fun _ t ht => ht.keepsUnused hs)
  have hst : KeepsUnused s t := ⟨ht.keeps, fun _ _ hun => hun.congr ht.headers⟩
  cases r with
  | none => exact hst
  | some newKey =>
      have hbt := hst.keeps.bound
      obtain ⟨info, hi, hinfo⟩ := hbt.cached defaultDataTdeOid newKey ht.result.symm
      have href : ¬Unreferenced t (newKey.keyInfo.ref defaultDataTdeOid).1
          (newKey.keyInfo.ref defaultDataTdeOid).2 := by
        intro hun
        refine hun defaultDataTdeOid info hi ?_ rfl
        rw [← hinfo]
        rfl
      have hrest : ∀ {v}, Rebinds (newKey.keyInfo.ref defaultDataTdeOid) t v → KeepsUnused s v :=
        fun hv => hst.trans ⟨hv.keeps, fun _ _ hun => hv.unreferenced href hun⟩
      exact (wp_bind ..).2 ((updateDefaultPrincipalKeyEverywhere_rebinds hbt ht.refOk).mono
        (fun _ v hv => hrest hv) fun _ v hv => hrest hv)

variable {x : ProviderSessions} {files : Oid → List KeyringProviderRecord}

/-- A live record is the one its name leads to. -/
theorem NamesApart.getKeyProviderByName (h : NamesApart files) {r : KeyringProviderRecord}
    (hr : r ∈ files dbOid) (hlive : r.live = true) :
    getKeyProviderByName files r.providerName dbOid = some r :=
  CaseApart.getKeyProviderByName (h dbOid) hr hlive

theorem NamesApart.erased {name : List UInt8} (h : NamesApart s.providers)
    (he : Erased s t dbOid name) : NamesApart t.providers :=
  fun a r hr r' hr' hl hl' => h a r (he.known a r hr hl) r' (he.known a r' hr' hl') hl hl'

/-- What a deletion that is under way has found out. -/
def DeleteOk (s : Server) : DeleteStage → Prop
  | .idle => True
  | .checking dbOid name providerId =>
    ∀ r ∈ s.providers dbOid, Named name r = true → r.providerId = providerId
  | .deleting dbOid name =>
    ∀ r ∈ s.providers dbOid, Named name r = true → Unreferenced s dbOid r.providerId

/-- What a call that holds the lock of the keys has found out: the key of the scope, and then a live
provider that no deletion is about to erase. -/
structure SetOk (x : ProviderSessions) (c : SetStage) : Prop where
  known : x.server.HasScope c.target.scope
  curr : x.server.cache c.target.scope = c.curr
  missing : c.curr = none → scopeInfo x.server c.target.scope = none
  live : ∀ r, c.keyring = some r →
    r ∈ x.server.providers c.target.providerOid ∧ r.live = true
  spared : ∀ r, c.keyring = some r →
    ∀ p, x.deletes p ≠ .deleting c.target.providerOid r.providerName

structure ProviderSessionsOk (x : ProviderSessions) : Prop where
  bound : Bound x.server
  apart : NamesApart x.server.providers
  deletes : ∀ p, DeleteOk x.server (x.deletes p)
  setter : ∀ c, x.setter = some c → SetOk x c

theorem DeleteOk.unused {stage : DeleteStage} (h : DeleteOk s stage) (hk : KeepsUnused s t) :
    DeleteOk t stage := by
  cases stage with
  | idle => trivial
  | checking a name id =>
      intro r hr
      rw [hk.keeps.providers] at hr
      exact h r hr
  | deleting a name =>
      intro r hr hnamed
      rw [hk.keeps.providers] at hr
      exact hk.unused a r.providerId (h r hr hnamed)

theorem DeleteOk.erased {stage : DeleteStage} {name : List UInt8} (h : DeleteOk s stage)
    (he : Erased s t dbOid name) : DeleteOk t stage := by
  cases stage with
  | idle => trivial
  | checking a name' id =>
      exact fun r hr hnamed => h r (he.known a r hr (named_iff.1 hnamed).1) hnamed
  | deleting a name' =>
      exact fun r hr hnamed => (h r (he.known a r hr (named_iff.1 hnamed).1) hnamed).congr he.headers

/-- A section of a call that needs the lock of the keys, while it is free. -/
theorem ProviderSessionsOk.section (h : ProviderSessionsOk x) (hk : KeepsUnused x.server t) :
    ProviderSessionsOk ⟨t, x.deletes, none⟩ := by
  refine ⟨hk.keeps.bound, ?_, fun p => (h.deletes p).unused hk, fun c hc => by cases hc⟩
  show NamesApart t.providers
  rw [hk.keeps.providers]
  exact h.apart

/-- A deletion goes on to its next section. -/
theorem ProviderSessionsOk.put (h : ProviderSessionsOk x) {p : ℕ} {stage : DeleteStage}
    (hstage : DeleteOk x.server stage)
    (hspared : ∀ c r, x.setter = some c → c.keyring = some r →
      stage ≠ .deleting c.target.providerOid r.providerName) :
    ProviderSessionsOk ⟨x.server, Function.update x.deletes p stage, x.setter⟩ := by
  refine ⟨h.bound, h.apart, fun q => ?_, fun c hc => ?_⟩
  · by_cases hq : q = p
    · subst hq
      simpa using hstage
    · simpa [hq] using h.deletes q
  · have hok := h.setter c hc
    refine ⟨hok.known, hok.curr, hok.missing, hok.live, fun r hr q => ?_⟩
    by_cases hq : q = p
    · subst hq
      simpa using hspared c r hc hr
    · simpa [hq] using hok.spared r hr q

theorem ProviderSessionsOk.find (h : ProviderSessionsOk x) (p : ℕ) (c : ProviderCall)
    (dbOid : Oid) : ProviderSessionsOk (providerStep w x (.find p c dbOid)) := by
  simp only [providerStep]
  split
  · next name hp hsuper hname =>
      have hspec := findKeyProvider_spec (s := x.server) name dbOid
      cases hrun : findKeyProvider name dbOid x.server with
      | error e t =>
          obtain rfl : t = x.server := (hspec.of_error hrun).1
          exact h
      | ok keyring t =>
          obtain ⟨rfl, hk⟩ := hspec.of_ok hrun
          refine h.put (fun r hr hnamed => ?_) fun _ _ _ _ => by simp
          -- the name leads to no other record than this one
          obtain ⟨hlive, hrname⟩ := named_iff.1 hnamed
          have hself := h.apart.getKeyProviderByName hr hlive
          rw [hrname, hk] at hself
          cases hself
          rfl
  · exact h

theorem ProviderSessionsOk.check (h : ProviderSessionsOk x) (p : ℕ) :
    ProviderSessionsOk (providerStep w x (.check p)) := by
  simp only [providerStep]
  split
  · next dbOid name providerId hp _ =>
      have hspec := @isProviderUsed_spec w x.server dbOid h.bound providerId
      have hput : ∀ {t stage}, Cached x.server t → DeleteOk t stage →
          ProviderSessionsOk ⟨t, Function.update x.deletes p stage, none⟩ := fun hc hstage =>
        (h.section (hc.keepsUnused h.bound)).put hstage fun _ _ hc => by cases hc
      cases hrun : isProviderUsed w dbOid providerId x.server with
      | error e t => exact hput (hspec.of_error hrun) trivial
      | ok used t =>
          obtain ⟨hc, hunused⟩ := hspec.of_ok hrun
          cases used with
          | true => exact hput hc trivial
          | false =>
              refine hput hc fun r hr hnamed => ?_
              have hids := h.deletes p
              rw [hp] at hids
              rw [hc.providers] at hr
              rw [hids r hr hnamed]
              exact (hunused rfl).congr hc.scopeInfo
  · exact h

theorem ProviderSessionsOk.erase (h : ProviderSessionsOk x) (p : ℕ) :
    ProviderSessionsOk (providerStep w x (.erase p)) := by
  simp only [providerStep]
  split
  · next dbOid name hp =>
      have hunused := h.deletes p
      rw [hp] at hunused
      have he : Erased x.server (after (deleteKeyProviderInfo name dbOid) x.server) dbOid name :=
        (deleteKeyProviderInfo_erased h.bound hunused).after
      have hok : ProviderSessionsOk
          ⟨after (deleteKeyProviderInfo name dbOid) x.server, x.deletes, x.setter⟩ := by
        refine ⟨he.bound, h.apart.erased he, fun q => (h.deletes q).erased he, fun c hc => ?_⟩
        have hset := h.setter c hc
        refine ⟨?_, ?_, fun hn => ?_, fun r hr => ⟨?_, (hset.live r hr).2⟩, hset.spared⟩
        · rw [Server.HasScope, he.databases]
          exact hset.known
        · rw [he.cache]
          exact hset.curr
        · rw [he.headers]
          exact hset.missing hn
        · refine he.kept _ r (hset.live r hr).1 fun ha hname => ?_
          apply hset.spared r hr p
          rw [hp, ha, hname]
      exact hok.put trivial fun _ _ _ _ => by simp
  · exact h

theorem ProviderSessionsOk.lockKeys (h : ProviderSessionsOk x) (target : KeyTarget)
    (keyName providerName : List UInt8) :
    ProviderSessionsOk (providerStep w x (.lockKeys target keyName providerName)) := by
  simp only [providerStep]
  split
  · next hcan =>
      have hspec := @getPrincipalKeyNoDefault_lookedUp w x.server target.scope h.bound
      cases hrun : getPrincipalKeyNoDefault w target.scope x.server with
      | error e t => exact h.section ((hspec.of_error hrun).keepsUnused h.bound)
      | ok curr t =>
          have hl := hspec.of_ok hrun
          have hok := h.section ⟨hl.keeps, fun _ _ hun => hun.congr hl.headers⟩
          refine ⟨hok.bound, hok.apart, hok.deletes, fun c hc => ?_⟩
          cases hc
          exact ⟨hl.keeps.hasScope hcan.2, hl.result.symm, hl.missing, (fun r hr => nomatch hr),
            (fun r hr => nomatch hr)⟩
  · exact h

theorem ProviderSessionsOk.findProvider (h : ProviderSessionsOk x)
    (hspared : ProviderSpared x .findProvider) :
    ProviderSessionsOk (providerStep w x .findProvider) := by
  simp only [providerStep]
  split
  · next target keyName providerName curr hset =>
      have hok := h.setter _ hset
      have hspec := findKeyProvider_spec (s := x.server) providerName target.providerOid
      cases hrun : OpenPgTde.findKeyProvider providerName target.providerOid x.server with
      | error e t =>
          obtain rfl : t = x.server := (hspec.of_error hrun).1
          exact ⟨h.bound, h.apart, h.deletes, fun c hc => by cases hc⟩
      | ok keyring t =>
          obtain ⟨rfl, hk⟩ := hspec.of_ok hrun
          refine ⟨h.bound, h.apart, h.deletes, fun c hc => ?_⟩
          cases hc
          refine ⟨hok.known, hok.curr, hok.missing, fun r hr => ?_, fun r hr => ?_⟩
          · cases hr
            have hlive := mem_of_getKeyProviderByName hk
            exact ⟨hlive.1, by simpa [KeyringProviderRecord.live] using hlive.2⟩
          · cases hr
            exact hspared _ hset rfl keyring hk
  · exact h

theorem ProviderSessionsOk.writeKey (h : ProviderSessionsOk x) :
    ProviderSessionsOk (providerStep w x .writeKey) := by
  simp only [providerStep]
  split
  · next target keyName providerName curr keyring hset =>
      have hok := h.setter _ hset
      obtain ⟨hmem, hlive⟩ := hok.live keyring rfl
      have hk := h.apart.getKeyProviderByName hmem hlive
      have hre : Rebinds (providerScope keyring.providerId target.scope, keyring.providerId)
          x.server (after (writePrincipalKey w keyName target.scope curr keyring) x.server) :=
        (writePrincipalKey_rebinds h.bound target.allowed hok.known hok.curr hok.missing hk
          keyName).after
      have hprov := hre.keeps.providers
      refine ⟨hre.keeps.bound, ?_, fun p => ?_, fun c hc => by cases hc⟩
      · show NamesApart (after _ x.server).providers
        rw [hprov]
        exact h.apart
      · have hdel := h.deletes p
        show DeleteOk (after _ x.server) (x.deletes p)
        cases hp : x.deletes p with
        | idle => trivial
        | checking a name id =>
            rw [hp] at hdel
            intro r hr
            rw [hprov] at hr
            exact hdel r hr
        | deleting a name =>
            rw [hp] at hdel
            intro r hr hnamed
            rw [hprov] at hr
            refine hre.refs a r.providerId (hdel r hr hnamed) fun heq => ?_
            have hfile := ((h.bound.files _).providerScope_eq target.allowed hmem).1
            rw [Prod.mk.injEq, hfile] at heq
            obtain ⟨rfl, hid⟩ := heq
            obtain rfl : r = keyring :=
              List.inj_on_of_nodup_map (h.bound.files _).ids hr hmem hid
            apply hok.spared r rfl p
            rw [hp, (named_iff.1 hnamed).2]
  · exact h

theorem ProviderSessionsOk.step (h : ProviderSessionsOk x) (a : ProviderAct)
    (ha : ProviderSpared x a) : ProviderSessionsOk (providerStep w x a) := by
  cases a with
  | find p c dbOid => exact h.find p c dbOid
  | check p => exact h.check p
  | erase p => exact h.erase p
  | lockKeys target keyName providerName => exact h.lockKeys target keyName providerName
  | findProvider => exact h.findProvider ha
  | writeKey => exact h.writeKey
  | lookUpKey scope =>
      simp only [providerStep]
      split
      · next hset =>
          have hk : KeepsUnused x.server (after (getPrincipalKeyNoDefault w scope) x.server) :=
            ((getPrincipalKeyNoDefault_cached (w := w)).mono
              (fun _ t ht => ht.1.keepsUnused h.bound) fun _ t ht => ht.keepsUnused h.bound).after
          have hok := h.section hk
          rwa [← Option.isNone_iff_eq_none.1 hset] at hok
      · exact h
  | carryDefaultKey oldKey =>
      simp only [providerStep]
      split
      · next hset =>
          have hok := h.section (carryDefaultKey_keepsUnused (w := w) h.bound oldKey).after
          rwa [← Option.isNone_iff_eq_none.1 hset] at hok
      · exact h

/-- Every header of a scope refers to a live record of a provider file. -/
def HeadersLive (s : Server) : Prop :=
  ∀ scope info, scopeInfo s scope = some info →
    ∃ r, getKeyProviderByID s.providers info.data.keyringId scope = some r ∧ r.live = true

theorem Bound.headersLive (hs : Bound s) : HeadersLive s := by
  intro scope info hi
  obtain ⟨r, hr, -⟩ := (hs.header scope info hi).resolves
  exact ⟨r, hr, (((hs.files _).getKeyProviderByID_iff rfl).1 hr).2.1⟩

/-- In every interleaving of deletions of providers with calls that set keys, no header comes to
refer to a provider that is gone, as long as no call finds a provider that a deletion is about to
erase. -/
theorem provider_deletion_under_concurrency (w : World) (s : Server) (hs : s.New)
    (ops : List KeyringOp) (hin : ∀ op ∈ ops, op.In s.databases)
    (hapart : NamesApart (keyringRun w ops s).providers) (acts : List ProviderAct)
    (h : Meets (providerStep w) ProviderSpared acts (keyringRun w ops s).noCalls) :
    HeadersLive (run (providerStep w) acts (keyringRun w ops s).noCalls).server := by
  have hstart : ProviderSessionsOk (keyringRun w ops s).noCalls :=
    ⟨keyringRun_bound ops hs.bound hin, hapart, fun _ => trivial, fun c hc => nomatch hc⟩
  have hok : ProviderSessionsOk (run (providerStep w) acts (keyringRun w ops s).noCalls) :=
    run_invariant (fun _ a hx ha => hx.step a ha) acts hstart h
  exact hok.bound.headersLive

/-! ### A provider looked up while it is being deleted -/

theorem ProviderOp.exec_providers_of_ne (op : ProviderOp) {a : Oid} (ha : a ≠ op.dbOid) :
    (after (op.exec w) s).providers a = s.providers a := by
  have hput : ∀ {u v : Server} {offset : ℕ} {r : KeyringProviderRecord}, Cached s u →
      Quiet (u.putProvider op.dbOid offset r) v → v.providers a = s.providers a := by
    intro u v offset r hu hv
    rw [hv.providers, ← hu.providers]
    exact Function.update_of_ne ha _ _
  refine wp.after (P := fun t => t.providers a = s.providers a) (op.exec_spec.mono (fun _ t ht => ?_)
    fun _ t ht => ?_)
  · obtain ⟨u, offset, r, hu, -, hq⟩ := ht
    exact hput hu hq
  · obtain ht | ⟨u, offset, r, hu, -, hf, -⟩ := ht
    · rw [ht.providers]
    · cases hf with
      | before hq => rw [hq.providers, hu.providers]
      | logged hq => rw [hq.providers, Server.logged, hu.providers]
      | written hq => exact hput hu hq

/-- A global provider `A`. -/
def sampleGlobalProvider : List KeyringOp :=
  [.provider (.add (sampleProviderCall [65]) globalDataTdeOid)]

theorem sampleGlobalProvider_apart :
    NamesApart (keyringRun sampleWorld sampleGlobalProvider newServer).providers := by
  intro a r hr r' hr' _ _ _
  by_cases ha : a = globalDataTdeOid
  · subst ha
    have hone : ((keyringRun sampleWorld sampleGlobalProvider newServer).providers
        globalDataTdeOid).length = 1 := by
      decide +kernel
    obtain ⟨r₀, hfile⟩ := List.length_eq_one_iff.1 hone
    rw [hfile, List.mem_singleton] at hr hr'
    rw [hr, hr']
  · have hnone := (ProviderOp.add (sampleProviderCall [65]) globalDataTdeOid).exec_providers_of_ne
      (w := sampleWorld) (s := newServer) ha
    replace hr : r ∈ (after ((ProviderOp.add (sampleProviderCall [65]) globalDataTdeOid).exec
      sampleWorld) newServer).providers a := hr
    rw [hnone] at hr
    cases hr

/-- The server key is set from the provider. -/
def sampleTarget : KeyTarget := ⟨globalDataTdeOid, globalDataTdeOid, .inl rfl⟩

/-- The server key is set, and then the provider is looked up for a deletion. -/
def sampleInTurn : List ProviderAct :=
  [.lockKeys sampleTarget [83] [65], .findProvider, .writeKey,
    .find 0 (sampleProviderCall [65]) globalDataTdeOid, .check 0, .erase 0]

theorem sampleInTurn_spared (hx : ∀ p, x.deletes p = .idle) :
    Meets (providerStep w) ProviderSpared sampleInTurn x := by
  refine ⟨trivial, fun c _ _ r _ p => ?_, trivial, trivial, trivial, trivial, trivial⟩
  have hsame : (providerStep w x (.lockKeys sampleTarget [83] [65])).deletes p = x.deletes p := by
    simp only [providerStep]
    split
    · split <;> rfl
    · rfl
  rw [hsame, hx]
  simp

theorem provider_deletion_under_concurrency_in_turn :
    (scopeInfo (run (providerStep sampleWorld) sampleInTurn
      (keyringRun sampleWorld sampleGlobalProvider newServer).noCalls).server
      globalDataTdeOid).isSome = true ∧
    HeadersLive (run (providerStep sampleWorld) sampleInTurn
      (keyringRun sampleWorld sampleGlobalProvider newServer).noCalls).server :=
  ⟨by decide +kernel, provider_deletion_under_concurrency sampleWorld newServer newServer_new
    sampleGlobalProvider (by simp [sampleGlobalProvider, KeyringOp.In]) sampleGlobalProvider_apart
    sampleInTurn (sampleInTurn_spared fun _ => rfl)⟩

/-- The session that deletes a provider in an action. -/
def ProviderAct.session : ProviderAct → Option ℕ
  | find p _ _ => some p
  | check p => some p
  | erase p => some p
  | _ => none

theorem providerStep_deletes_of_ne {a : ProviderAct} {p : ℕ} (ha : a.session ≠ some p) :
    (providerStep w x a).deletes p = x.deletes p := by
  have hne : ∀ q, a.session = some q → p ≠ q := fun q hq h => ha (by rw [hq, h])
  cases a with
  | find q c dbOid =>
      simp only [providerStep]
      split
      · split
        · exact Function.update_of_ne (hne q rfl) _ _
        · rfl
      · rfl
  | check q =>
      simp only [providerStep]
      split
      · split <;> exact Function.update_of_ne (hne q rfl) _ _
      · rfl
  | erase q =>
      simp only [providerStep]
      split
      · exact Function.update_of_ne (hne q rfl) _ _
      · rfl
  | lockKeys | findProvider | writeKey | lookUpKey | carryDefaultKey =>
      simp only [providerStep]
      repeat' split
      all_goals rfl

/-- The provider is found unused, then it is looked up and the server key set from it, then its
record is erased. -/
def sampleInBetween : List ProviderAct :=
  [.find 0 (sampleProviderCall [65]) globalDataTdeOid, .check 0,
    .lockKeys sampleTarget [83] [65], .findProvider, .writeKey, .erase 0]

theorem provider_deletion_interferes :
    newServer.New ∧ (∀ op ∈ sampleGlobalProvider, op.In newServer.databases) ∧
    NamesApart (keyringRun sampleWorld sampleGlobalProvider newServer).providers ∧
    (run (providerStep sampleWorld) sampleInBetween
      (keyringRun sampleWorld sampleGlobalProvider newServer).noCalls).setter.isNone = true ∧
    (∀ p, (run (providerStep sampleWorld) sampleInBetween
      (keyringRun sampleWorld sampleGlobalProvider newServer).noCalls).deletes p = .idle) ∧
    ¬HeadersLive (run (providerStep sampleWorld) sampleInBetween
      (keyringRun sampleWorld sampleGlobalProvider newServer).noCalls).server := by
  refine ⟨newServer_new, by simp [sampleGlobalProvider, KeyringOp.In], sampleGlobalProvider_apart,
    by decide +kernel, fun p => ?_, fun h => ?_⟩
  · by_cases hp : p = 0
    · subst hp
      decide +kernel
    · refine run_unchanged (fun x : ProviderSessions => x.deletes p) (fun a ha _ =>
        providerStep_deletes_of_ne fun heq => hp ?_) _
      simp only [sampleInBetween, List.mem_cons, List.not_mem_nil, or_false] at ha
      obtain rfl | rfl | rfl | rfl | rfl | rfl := ha <;> simpa [ProviderAct.session] using heq.symm
  · have hgone : ((scopeInfo (run (providerStep sampleWorld) sampleInBetween (keyringRun sampleWorld
        sampleGlobalProvider newServer).noCalls).server globalDataTdeOid).any fun info =>
          (getKeyProviderByID (run (providerStep sampleWorld) sampleInBetween (keyringRun sampleWorld
            sampleGlobalProvider newServer).noCalls).server.providers info.data.keyringId
            globalDataTdeOid).isNone) = true := by
      decide +kernel
    obtain ⟨info, hi, hnone⟩ := (Option.any_eq_true _ _).1 hgone
    obtain ⟨r, hr, -⟩ := h globalDataTdeOid info hi
    rw [hr] at hnone
    cases hnone

end OpenPgTde
