import OpenPgTde.PrincipalKey.Default

/-!
A change of the default key that fails on its way.

The call sets the default key first and then carries the other scopes over one after the other, and
nothing is undone if that fails. The same call, issued again, takes the default key that it finds for
the old one, and that is the new one already: the scopes that were not reached the first time are not
looked for any more. So there is a failure that cannot be completed by a second call whenever there is
a scope to carry over, unless no second call can return.

The world outside is what decides where a call fails: which system calls fail and what the keyrings
answer. To make a call fail behind a certain point the system calls are let succeed up to this point,
so it must be known that a program that returns makes a certain number of them.
-/

namespace OpenPgTde

open Lib.Effect

/-! ### The world outside -/

/-- What a call meets outside of the server. -/
structure Outside where
  kms : KeyringProviderRecord → List UInt8 → KmsReply
  rng : ℕ → UInt8
  clock : ℕ → Timeval
  sys : ℕ → Bool

def Server.outside (s : Server) (o : Outside) : Server :=
  { s with kms := o.kms, rng := o.rng, clock := o.clock, sys := o.sys }

/-- The server with other outcomes of its system calls. -/
def Server.withSys (s : Server) (sys : ℕ → Bool) : Server := { s with sys := sys }

variable {w : World} {s t u : Server} {scope : Oid} {c : SetKeyCall} {α β : Type}

theorem Consistent.outside (hs : Consistent w s) (o : Outside) : Consistent w (s.outside o) where
  scopes scope :=
    ⟨(hs.scopes scope).header, (hs.scopes scope).readable, (hs.scopes scope).cached,
      (hs.scopes scope).bare, (hs.scopes scope).format, (hs.scopes scope).walFormat⟩
  providers := hs.providers
  databases := hs.databases

theorem Consistent.withSys (hs : Consistent w s) (sys : ℕ → Bool) : Consistent w (s.withSys sys) :=
  hs.outside ⟨s.kms, s.rng, s.clock, sys⟩

theorem Consistent.of_withSys {sys : ℕ → Bool} (hs : Consistent w (s.withSys sys)) :
    Consistent w s :=
  hs.withSys s.sys

/-! ### The claim and its condition -/

/-- A call that fails leaves all keys as they were, or the same call, if it returns when it is issued
again, carries over every scope that used the old default key. -/
def CanBeCompleted (w : World) (s : Server) (c : SetKeyCall) : Prop :=
  ∀ o e t, setDefaultKeyUsingGlobalKeyProvider w c (s.outside o) = .error e t →
    SameKeys w s t ∨
      ∀ o' u, setDefaultKeyUsingGlobalKeyProvider w c (t.outside o') = .ok () u →
        ∀ a ∈ defaultScopes s, keyId w s a ≠ none → keyId w s a = keyId w s defaultDataTdeOid →
          keyId w u a = wantedKey w s c

/-- The call asks for no key, or there is no default key or it is this one already, or no other scope
uses it; or the server has the key already and its file of WAL keys cannot be rewritten, so that no
second call returns. -/
def NothingToCarry (w : World) (s : Server) (c : SetKeyCall) : Prop :=
  wantedKey w s c = none ∨ keyId w s defaultDataTdeOid = none ∨
    keyId w s defaultDataTdeOid = wantedKey w s c ∨
    (∀ a ∈ defaultScopes s, keyId w s a ≠ keyId w s defaultDataTdeOid) ∨
    keyId w s globalDataTdeOid = wantedKey w s c ∧ ¬WalFileReadable w s

/-! ### Nothing is lost where there is nothing to carry -/

/-- Whether the file of WAL keys can be rewritten shows in the table of its ranges. -/
theorem walFileReadable_iff (hs : Consistent w s) : WalFileReadable w s ↔
    ∀ x ∈ rangeTable w s, ∃ k, x.2.2 = some k ∧ k.cipher.keyLength ≤ 32 := by
  cases hk : principalKeyOf w s globalDataTdeOid with
  | none =>
      have hnil : rangeTable w s = [] :=
        rangeTable_of_scopeInfo_none ((hs.scopes _).principalKeyOf_none.1 hk)
      refine ⟨fun _ x hx => ?_, fun _ info entries k _ hk' => ?_⟩
      · rw [hnil] at hx
        cases hx
      · rw [hk] at hk'
        cases hk'
  | some k =>
      obtain ⟨info, entries, hf, -⟩ := (hs.scopes globalDataTdeOid).exists_wal_current hk
      rw [rangeTable_of_current hf hk]
      refine ⟨fun h x hx => ?_, fun h info' entries' k' hf' hk' e he => ?_⟩
      · obtain ⟨e, he, rfl⟩ := List.mem_map.1 hx
        exact h info entries k hf hk e he
      · rw [hf] at hf'
        rw [hk] at hk'
        cases hf'
        cases hk'
        exact h _ (List.mem_map_of_mem he)

theorem DefaultMoved.walFileReadable {kp : List UInt8 × ℤ} (hs : Consistent w s)
    (h : DefaultMoved w kp s t) : WalFileReadable w t ↔ WalFileReadable w s := by
  rw [walFileReadable_iff hs, walFileReadable_iff (h.steps.keySteps.consistent hs),
    LoggedSteps.rangeTable_eq h.steps]

theorem NothingToCarry.canBeCompleted (hs : Consistent w s) (h : NothingToCarry w s c) :
    CanBeCompleted w s c := by
  intro o e t hrun
  have hspec := setDefaultKeyUsingGlobalKeyProvider_keys (c := c) (hs.outside o)
  obtain ⟨-, hsame⟩ | ⟨kp, hwant, hmoved⟩ := (hspec.of_error hrun).1
  · exact .inl hsame
  · refine .inr fun o' u hretry a ha hne heq => ?_
    obtain ⟨kp', hwant', hagain, -, -, hread⟩ :=
      (setDefaultKeyUsingGlobalKeyProvider_keys (c := c)
        ((hmoved.steps.keySteps.consistent (hs.outside o)).outside o')).of_ok hretry
    have hkp : wantedKey w s c = some kp := hwant
    obtain rfl : kp = kp' := by
      have : wantedKey w (t.outside o') c = wantedKey w s c :=
        wantedKey_congr hmoved.steps.keySteps.providers
      rw [this, hkp, Option.some.injEq] at hwant'
      exact hwant'
    rw [hkp]
    obtain hnone | hnone | hsame | hno | ⟨hserver, hbad⟩ := h
    · rw [hkp] at hnone
      cases hnone
    · rw [heq] at hne
      exact absurd hnone hne
    · rw [heq, hsame, hkp] at hne
      have ht : keyId w t a = some kp :=
        hmoved.keyId_eq (ne_default_of_mem ha) (heq.trans (hsame.trans hkp))
      exact hagain.keyId_eq (ne_default_of_mem ha) ht
    · exact absurd heq (hno a ha)
    · -- the second call would have to rewrite the file of WAL keys
      have ht : keyId w t globalDataTdeOid = some kp :=
        hmoved.keyId_eq (by decide) (hserver.trans hkp)
      have hreadt : WalFileReadable w t := hread (ht.trans hmoved.default.symm)
      exact absurd ((hmoved.walFileReadable (hs.outside o)).1 hreadt) hbad

/-! ### Programs that make a certain number of system calls -/

/-- From `s` the program returns `a` in the state `t` as soon as the first few system calls do not
fail, and it makes no others. -/
def Prompt (m : M α) (s : Server) (a : α) (t : Server) : Prop :=
  ∃ n, ∀ sys : ℕ → Bool, (∀ i < n, sys i = true) →
    m (s.withSys sys) = .ok a (t.withSys fun i => sys (i + n))

theorem Prompt.bind {m : M α} {f : α → M β} {a : α} {b : β} (h : Prompt m s a t)
    (h' : Prompt (f a) t b u) : Prompt (m >>= f) s b u := by
  obtain ⟨n, hn⟩ := h
  obtain ⟨n', hn'⟩ := h'
  refine ⟨n + n', fun sys hsys => ?_⟩
  have hm := hn sys fun i hi => hsys i (by omega)
  have hf := hn' (fun i => sys (i + n)) fun i hi => hsys (i + n) (by omega)
  show EStateM.bind m f _ = _
  rw [EStateM.bind, hm]
  simp only
  rw [hf]
  simp only [Nat.add_assoc, Nat.add_comm n']

/-- The program returns if enough system calls do not fail. -/
def Finishes (m : M α) (s : Server) : Prop := ∃ a t, Prompt m s a t

theorem Finishes.bind {m : M α} {f : α → M β} (h : Finishes m s)
    (h' : ∀ a t, Prompt m s a t → Finishes (f a) t) : Finishes (m >>= f) s := by
  obtain ⟨a, t, hm⟩ := h
  obtain ⟨b, u, hf⟩ := h' a t hm
  exact ⟨b, u, hm.bind hf⟩

theorem prompt_pure (a : α) (s : Server) : Prompt (pure a) s a s := ⟨0, fun _ _ => rfl⟩

/-- A program that does not look at the system calls makes none. -/
theorem prompt_of_forall {m : M α} {a : α}
    (h : ∀ sys, m (s.withSys sys) = .ok a (t.withSys sys)) : Prompt m s a t :=
  ⟨0, fun sys _ => h sys⟩

/-- A program that goes on like another one. -/
theorem Prompt.congr {m m' : M α} {a : α} (h : Prompt m' u a t)
    (hm : ∀ sys, m (s.withSys sys) = m' (u.withSys sys)) : Prompt m s a t := by
  obtain ⟨n, hn⟩ := h
  exact ⟨n, fun sys hsys => (hm sys).trans (hn sys hsys)⟩

theorem prompt_sysCall (e : TdeError) (s : Server) : Prompt (sysCall e) s () s := by
  refine ⟨1, fun sys hsys => ?_⟩
  have h0 := hsys 0 (by omega)
  rw [sysCall, get_bind_apply, set_bind_apply]
  simp only [Server.withSys, h0, if_true]
  rfl

/-- What the specification says of a run without failures. -/
theorem Prompt.spec {m : M α} {a : α} {Q : α → Server → Prop} {E : TdeError → Server → Prop}
    (h : Prompt m s a t) (hspec : wp m Q E (s.withSys fun _ => true)) :
    Q a (t.withSys fun _ => true) := by
  obtain ⟨n, hn⟩ := h
  exact hspec.of_ok (hn (fun _ => true) fun _ _ => rfl)

/-! ### Setting the default key -/

theorem prompt_randBytes (n : ℕ) (s : Server) :
    Prompt (randBytes n) s (List.ofFn fun i : Fin n => s.rng i)
      { s with rng := fun i => s.rng (i + n) } :=
  (prompt_sysCall _ s).bind (prompt_of_forall fun _ => rfl)

theorem prompt_signPrincipalKeyInfo (k : TDEPrincipalKey) (s : Server) :
    ∃ info rng, Prompt (signPrincipalKeyInfo w k) s info { s with rng := rng } :=
  ⟨_, _, (prompt_randBytes ivLen s).bind (prompt_pure _ _)⟩

theorem prompt_openFileRead {path : KeyFilePath} {info : TDESignedPrincipalKeyInfo}
    {entries : List TDEMapEntry} (hf : s.keyFiles path = some (.current info entries)) :
    Prompt (openFileRead path false) s (some entries) s := by
  refine (prompt_sysCall _ s).bind (prompt_of_forall fun sys => ?_)
  simp only [get_bind_apply, Server.withSys, hf]
  rfl

theorem prompt_openFileWrite (path : KeyFilePath) (info : TDESignedPrincipalKeyInfo) (s : Server) :
    ∃ t, Prompt (openFileWrite path (some info) true) s [] t := by
  refine ⟨s.putKeyFile path (some (.current info [])), (prompt_sysCall _ s).bind ?_⟩
  have hheader : Prompt (do
      sysCall (.couldNotWrite path)
      modify fun s => s.putKeyFile path (some (.current info []))
      pure ([] : List TDEMapEntry)) (s.putKeyFile path (some .empty)) []
      (s.putKeyFile path (some (.current info []))) := by
    refine (prompt_sysCall _ _).bind (prompt_of_forall fun sys => ?_)
    show EStateM.Result.ok [] _ = _
    congr 1
    simp [Server.putKeyFile, Server.withSys]
  exact hheader.congr fun _ => rfl

theorem prompt_durableRename (dbOid : Oid) (s : Server) :
    ∃ t, Prompt (durableRename dbOid) s () t :=
  ⟨_, (prompt_sysCall _ s).bind (prompt_of_forall (t := (s.putKeyFile (.keys dbOid)
    (s.keyFiles (.keysTmp dbOid))).putKeyFile (.keysTmp dbOid) none) fun _ => rfl)⟩

/-- Without live entries there is nothing to rewrite. -/
theorem prompt_rotateEntries {pk newPk : TDEPrincipalKey} {entries : List TDEMapEntry} {pos : ℕ}
    (h : ∀ e ∈ entries, e.type ≠ .key) (s : Server) :
    Prompt (rotateEntries w pk newPk entries pos) s () s := by
  induction entries with
  | nil => exact prompt_pure () s
  | cons e entries ih =>
      have he : e.type = .empty := by
        have := h e List.mem_cons_self
        cases ht : e.type <;> simp_all
      rw [rotateEntries, if_pos he]
      exact ih fun e' he' => h e' (List.mem_cons_of_mem e he')

theorem finishes_pushPrincipalKeyToCache (k : TDEPrincipalKey) (s : Server) :
    Finishes (pushPrincipalKeyToCache k) s := by
  cases hc : s.cache k.keyInfo.databaseId with
  | none =>
      refine ⟨(), s.putCache k.keyInfo.databaseId (some k), (prompt_sysCall .mlockFailed _).congr
        fun sys => ?_⟩
      show (if (s.cache k.keyInfo.databaseId).isNone then _ else _ : M Unit) _ = _
      rw [hc]
      rfl
  | some k' =>
      refine ⟨(), s, (prompt_sysCall .mlockFailed _).congr fun sys => ?_⟩
      show (if (s.cache k.keyInfo.databaseId).isNone then _ else _ : M Unit) _ = _
      rw [hc]
      rfl

theorem finishes_performRotateKey {pk newPk : TDEPrincipalKey} {info : TDESignedPrincipalKeyInfo}
    {entries : List TDEMapEntry}
    (hf : s.keyFiles (.keys pk.keyInfo.databaseId) = some (.current info entries))
    (h : ∀ e ∈ entries, e.type ≠ .key) : Finishes (performRotateKey w pk newPk true) s := by
  obtain ⟨info', rng, hsign⟩ := prompt_signPrincipalKeyInfo (w := w) newPk s
  obtain ⟨t, hwrite⟩ := prompt_openFileWrite (.keysTmp pk.keyInfo.databaseId) info'
    { s with rng := rng }
  obtain ⟨u, hrename⟩ := prompt_durableRename pk.keyInfo.databaseId t
  exact ⟨_, _, hsign.bind ((prompt_openFileRead (s := { s with rng := rng }) hf).bind
    (hwrite.bind ((prompt_rotateEntries h t).bind (hrename.bind
      (prompt_of_forall (t := u.logged [rotateRecord newPk]) fun _ => rfl)))))⟩

theorem finishes_rotatePrincipalKey (w : World) (s : Server) {pk : TDEPrincipalKey}
    (newPk : TDEPrincipalKey)
    {info : TDESignedPrincipalKeyInfo} {entries : List TDEMapEntry}
    (hpk : pk.keyInfo.databaseId = scope) (hg : scope ≠ globalDataTdeOid)
    (hf : s.keyFiles (.keys scope) = some (.current info entries))
    (h : ∀ e ∈ entries, e.type ≠ .key) : Finishes (rotatePrincipalKey w scope pk newPk true) s := by
  rw [rotatePrincipalKey, if_neg hg]
  refine (finishes_performRotateKey (by rwa [hpk]) h).bind fun _ t _ => ?_
  exact Finishes.bind ⟨(), t.putCache pk.keyInfo.databaseId none, prompt_of_forall fun _ => rfl⟩
    fun _ u _ => finishes_pushPrincipalKeyToCache newPk u

theorem finishes_getPrincipalKeyFromKeyring (hs : ScopeOk w s scope)
    (hg : scope ≠ globalDataTdeOid) (hkms : s.KeyringsAnswer) :
    Finishes (getPrincipalKeyFromKeyring w scope) s := by
  have hinfo : Prompt (getPrincipalKeyInfo scope) s (scopeInfo s scope) s := by
    refine (prompt_sysCall _ s).bind (prompt_of_forall fun sys => ?_)
    rw [scopeInfo, if_neg hg]
    rfl
  rw [getPrincipalKeyFromKeyring, if_neg hg]
  cases hi : scopeInfo s scope with
  | none =>
      rw [hi] at hinfo
      exact ⟨none, s, hinfo.bind (prompt_pure _ _)⟩
  | some info =>
      rw [hi] at hinfo
      obtain ⟨r, k, hr, hk, hver⟩ := hs.reachable hkms info hi
      refine ⟨some ⟨info.data, k.data⟩, s, hinfo.bind (prompt_of_forall fun sys => ?_)⟩
      simp only [get_bind_apply, Server.withSys, hr, hk, hver, if_true]
      rfl

theorem finishes_getPrincipalKeyNoDefault (hs : ScopeOk w s scope) (hg : scope ≠ globalDataTdeOid)
    (hkms : s.KeyringsAnswer) : Finishes (getPrincipalKeyNoDefault w scope) s := by
  have hrest : Finishes (getPrincipalKeyFromKeyring w scope >>= fun r => r.elim (pure none) fun k => do
      pushPrincipalKeyToCache k
      let s ← get
      pure (s.cache scope)) s := by
    refine (finishes_getPrincipalKeyFromKeyring hs hg hkms).bind fun r t _ => ?_
    cases r with
    | none => exact ⟨_, _, prompt_pure _ _⟩
    | some k =>
        refine (finishes_pushPrincipalKeyToCache k t).bind fun _ u _ => ?_
        exact ⟨u.cache scope, u, prompt_of_forall fun _ => rfl⟩
  cases hc : s.cache scope with
  | some k =>
      refine ⟨some k, s, prompt_of_forall fun sys => ?_⟩
      simp only [getPrincipalKeyNoDefault, get_bind_apply, Server.withSys, hc]
      rfl
  | none =>
      obtain ⟨a, t, h⟩ := hrest
      refine ⟨a, t, h.congr fun sys => ?_⟩
      rw [getPrincipalKeyNoDefault, get_bind_apply]
      generalize hcache : (s.withSys sys).cache scope = c
      obtain rfl : c = none := hcache.symm.trans hc
      refine congrFun (congrArg (getPrincipalKeyFromKeyring w scope >>= ·) (funext fun r => ?_)) _
      cases r with
      | none => rfl
      | some k => rfl

/-- Where a key can be set, all system calls that this takes may succeed. -/
theorem finishes_setPrincipalKeyWithKeyring (keyName providerName : List UInt8)
    (hs : Consistent w s) (hkms : s.KeyringsAnswer)
    (hold : keyId w s defaultDataTdeOid ≠ none)
    (hwant : keyAt w s globalDataTdeOid providerName keyName ≠ none) :
    Finishes (setPrincipalKeyWithKeyring w keyName providerName globalDataTdeOid defaultDataTdeOid)
      s := by
  refine (finishes_getPrincipalKeyNoDefault (hs.scopes _) (by decide) hkms).bind fun r t ht => ?_
  have hspec := ht.spec (getPrincipalKeyNoDefault_spec ((hs.withSys _).scopes defaultDataTdeOid))
  obtain ⟨hl, hr, -⟩ := hspec
  have hproviders : t.providers = s.providers := hl.providers
  have hkmst : t.kms = s.kms := hl.kms
  have hfiles : t.keyFiles = s.keyFiles := hl.keyFiles
  obtain ⟨curr, hcurr⟩ : ∃ curr, principalKeyOf w s defaultDataTdeOid = some curr := by
    cases hk : principalKeyOf w s defaultDataTdeOid with
    | none =>
        rw [keyId, hk] at hold
        exact absurd rfl hold
    | some curr => exact ⟨curr, rfl⟩
  obtain rfl : r = some curr := hr.trans hcurr
  obtain ⟨info, entries, hf, -⟩ := (hs.scopes defaultDataTdeOid).exists_current (by decide) hcurr
  have hbare := (hs.scopes defaultDataTdeOid).bare rfl info entries hf
  have howner := (hs.scopes defaultDataTdeOid).owner hcurr
  rw [← keyAt_congr hproviders] at hwant
  unfold keyAt at hwant
  cases hp : getKeyProviderByName t.providers providerName globalDataTdeOid with
  | none =>
      rw [hp] at hwant
      exact absurd rfl hwant
  | some keyring =>
      rw [hp] at hwant
      obtain ⟨k, hk⟩ := (keyringGetKey_of_answer w keyring keyName
        (hkms.congr hkmst)).2 fun hnone => hwant (by simp only [hnone, Option.map_none])
      have hrest : Finishes (do
          let newPk ← newPrincipalKey defaultDataTdeOid keyring k
          rotatePrincipalKey w defaultDataTdeOid curr newPk true) t := by
        have hclock : Prompt (newPrincipalKey defaultDataTdeOid keyring k) t
            ⟨⟨defaultDataTdeOid, keyring.providerId, t.clock 0, k.name⟩, k.data⟩
            { t with clock := fun i => t.clock (i + 1) } := prompt_of_forall fun _ => rfl
        obtain ⟨a, u, hu⟩ := finishes_rotatePrincipalKey w
          { t with clock := fun i => t.clock (i + 1) } ⟨⟨defaultDataTdeOid,
          keyring.providerId, t.clock 0, k.name⟩, k.data⟩ howner (by decide)
          (by dsimp only; rw [hfiles, hf]) hbare
        exact ⟨a, u, hclock.bind hu⟩
      obtain ⟨a, u, hu⟩ := hrest
      refine ⟨a, u, hu.congr fun sys => ?_⟩
      simp only [get_bind_apply, Server.withSys, hp, hk]

/-! ### Carrying over when all system calls fail -/

theorem wp_sysCall_fails {e : TdeError} {Q : Unit → Server → Prop} {E : TdeError → Server → Prop}
    (h : s.sys 0 = false) (hE : ∀ t, Quiet s t → E e t) : wp (sysCall e) Q E s := by
  simp only [sysCall, wp_bind, wp_get, wp_set, wp_ite, wp_throw, h]
  exact ⟨fun hc => absurd hc Bool.false_ne_true,
    fun _ => hE _ ⟨_, _, _, fun hs i => hs (i + 1), rfl⟩⟩

/-- The first scope that is to be carried over, or whose key is not in the cache, ends the call. -/
theorem updateDefaultPrincipalKey_fails {oldKey newKey : TDEPrincipalKey} (hs : ScopeOk w s scope)
    (h : s.sys 0 = false) :
    wp (updateDefaultPrincipalKey w oldKey newKey scope)
      (fun _ t => t = s ∧ keyId w s scope ≠ some oldKey.id) (fun _ t => Quiet s t) s := by
  unfold updateDefaultPrincipalKey getPrincipalKeyNoDefault
  simp only [wp_bind, wp_get]
  cases hc : s.cache scope with
  | none =>
      simp only [wp_bind, getPrincipalKeyFromKeyring, wp_ite]
      refine ⟨fun _ => ?_, fun _ => ?_⟩
      · exact (wp_bind ..).2 (wp_sysCall_fails h fun _ ht => ht)
      · exact (wp_bind ..).2 (wp_sysCall_fails h fun _ ht => ht)
  | some k =>
      have hk := hs.cached k hc
      have hid : keyId w s scope = some k.id := by rw [keyId, hk, Option.map_some]
      simp only [wp_pure, wp_ite, isSamePrincipalKey_iff, true_and]
      refine ⟨fun _ => ?_, fun hdiff heq => ?_⟩
      · unfold rotateDefaultKeyForDatabase rotatePrincipalKey
        simp only [wp_bind, wp_ite, performRotateServerKey, performRotateKey, signPrincipalKeyInfo,
          randBytes]
        exact ⟨fun _ => wp_sysCall_fails h fun _ ht => ht,
          fun _ => wp_sysCall_fails h fun _ ht => ht⟩
      · rw [hid, Option.some.injEq] at heq
        exact hdiff heq

theorem updateDefaultPrincipalKeyEverywhere_fails {oldKey newKey : TDEPrincipalKey}
    (hs : Consistent w s) (h : s.sys 0 = false) :
    wp (updateDefaultPrincipalKeyEverywhere w oldKey newKey)
      (fun _ _ => ∀ a ∈ defaultScopes s, keyId w s a ≠ some oldKey.id) (fun _ t => Quiet s t) s := by
  refine (wp_bind ..).2 ((updateDefaultPrincipalKey_fails (hs.scopes _) h).mono (fun _ t ht => ?_)
    fun _ _ ht => ht)
  obtain ⟨rfl, hserver⟩ := ht
  simp only [wp_bind, wp_get]
  have hloop : ∀ dbs : List DatabaseId,
      wp (forM dbs fun db => updateDefaultPrincipalKey w oldKey newKey db.oid)
        (fun _ u => u = t ∧ ∀ db ∈ dbs, keyId w t db.oid ≠ some oldKey.id)
        (fun _ u => Quiet t u) t := by
    intro dbs
    induction dbs with
    | nil => exact ⟨rfl, by simp⟩
    | cons db dbs ih =>
        refine (wp_bind ..).2 ((updateDefaultPrincipalKey_fails (hs.scopes _) h).mono
          (fun _ u hu => ?_) fun _ _ hu => hu)
        obtain ⟨rfl, hdb⟩ := hu
        exact ih.mono (fun _ v hv => ⟨hv.1, List.forall_mem_cons.2 ⟨hdb, hv.2⟩⟩) fun _ _ hv => hv
  refine (hloop t.databases).mono (fun _ u hu a ha => ?_) fun _ _ hu => hu
  obtain rfl | ha := List.mem_cons.1 ha
  · exact hserver
  · obtain ⟨db, hdb, rfl⟩ := List.mem_map.1 ha
    exact hu.2 db hdb

/-! ### A failure that cannot be completed -/

/-- The default key is the one that was asked for, and nothing else has changed. -/
structure Stranded (w : World) (s : Server) (c : SetKeyCall) (t : Server) : Prop where
  consistent : Consistent w t
  default : keyId w t defaultDataTdeOid = wantedKey w s c
  others : ∀ a, a ≠ defaultDataTdeOid → principalKeyOf w t a = principalKeyOf w s a
  providers : t.providers = s.providers
  databases : t.databases = s.databases
  walKeys : t.walKeys .walKeys = s.walKeys .walKeys

/-- All system calls succeed until the default key is set, and fail from then on. -/
theorem exists_stranded (hs : Consistent w s) (hwant : wantedKey w s c ≠ none)
    (hold : keyId w s defaultDataTdeOid ≠ none) {a : Oid} (ha : a ∈ defaultScopes s)
    (huses : keyId w s a = keyId w s defaultDataTdeOid) :
    ∃ o e t, setDefaultKeyUsingGlobalKeyProvider w c (s.outside o) = .error e t ∧
      Stranded w s c t := by
  cases hc : checkSetKeyCall globalDataTdeOid c with
  | error e =>
      rw [wantedKey, hc] at hwant
      exact absurd rfl hwant
  | ok names =>
      obtain ⟨keyName, providerName⟩ := names
      have hat : wantedKey w s c = keyAt w s globalDataTdeOid providerName keyName := by
        rw [wantedKey, hc]
      -- the world in which all goes well
      let good : Outside := ⟨fun _ _ => .stored, s.rng, s.clock, fun _ => true⟩
      have hgood := hs.outside good
      obtain ⟨existing, t, ht⟩ := finishes_getPrincipalKeyNoDefault (hgood.scopes defaultDataTdeOid)
        (by decide) fun _ _ => rfl
      obtain ⟨hl, hex, -⟩ := ht.spec (getPrincipalKeyNoDefault_spec (hgood.scopes _))
      have hct : Consistent w t := (hl.consistent hgood).of_withSys
      have hkms : t.KeyringsAnswer := fun r name => congrFun (congrFun hl.kms r) name
      have hpk : ∀ a, principalKeyOf w t a = principalKeyOf w s a := hl.principalKeyOf
      have hprov : t.providers = s.providers := hl.providers
      obtain ⟨_, u, hu⟩ := finishes_setPrincipalKeyWithKeyring keyName providerName hct hkms (by rwa [keyId, hpk])
        (by rwa [keyAt_congr hprov, ← hat])
      obtain ⟨hsteps, honly, k, hk, hcache, hid⟩ := hu.spec (setPrincipalKeyWithKeyring_spec
        (hct.withSys _) (.inl rfl) keyName providerName)
      have hcu : Consistent w u := (hsteps.keySteps.consistent (hct.withSys _)).of_withSys
      have hex' : existing = principalKeyOf w s defaultDataTdeOid := hex
      obtain ⟨oldKey, hold'⟩ : ∃ oldKey, principalKeyOf w s defaultDataTdeOid = some oldKey := by
        rw [keyId, ne_eq, Option.map_eq_none_iff] at hold
        exact Option.ne_none_iff_exists'.1 hold
      have holdId : keyId w s defaultDataTdeOid = some oldKey.id := by
        rw [keyId, hold', Option.map_some]
      have hothers : ∀ a, a ≠ defaultDataTdeOid → principalKeyOf w u a = principalKeyOf w s a :=
        fun a ha => (honly.others a ha).trans (hpk a)
      have hdbs : u.databases = s.databases :=
        (KeySteps.databases hsteps.keySteps).trans hl.databases
      -- the outcomes of the system calls
      obtain ⟨n, hn⟩ := ht
      obtain ⟨n', hn'⟩ := hu
      let sys : ℕ → Bool := fun i => decide (i < n + n')
      have hfirst := hn sys fun i hi => by simp only [sys, decide_eq_true_eq]; omega
      have hsecond := hn' (fun i => sys (i + n)) fun i hi => by
        simp only [sys, decide_eq_true_eq]
        omega
      rw [hex', hold'] at hfirst
      have hfound : getPrincipalKeyNoDefault w defaultDataTdeOid
          (u.withSys fun i => sys (i + n' + n)) =
            .ok (some k) (u.withSys fun i => sys (i + n' + n)) := by
        have hcache : u.cache defaultDataTdeOid = some k := hcache
        simp only [getPrincipalKeyNoDefault, get_bind_apply, Server.withSys, hcache]
        rfl
      have hspec : wp (setDefaultKeyUsingGlobalKeyProvider w c) (fun _ _ => False)
          (fun _ x => Quiet (u.withSys fun i => sys (i + n' + n)) x)
          (s.outside { good with sys := sys }) := by
        refine (wp_bind ..).2 ?_
        unfold setPrincipalKeyInternal
        rw [hc]
        dsimp only
        rw [if_pos rfl]
        refine (wp_bind ..).2 (wp_of_ok hfirst ((wp_bind ..).2 (wp_of_ok hsecond
          ((wp_bind ..).2 (wp_of_ok hfound ?_)))))
        refine (updateDefaultPrincipalKeyEverywhere_fails (hcu.withSys _)
          (by simp [Server.withSys, sys, Nat.add_comm])).mono (fun _ x hx => ?_) fun _ _ hx => hx
        have hne := hx a (by
          show a ∈ globalDataTdeOid :: u.databases.map (·.oid)
          rw [hdbs]
          exact ha)
        have heq : keyId w u a = some oldKey.id := by
          rw [keyId_congr (hothers a (ne_default_of_mem ha)), huses, holdId]
        exact absurd heq hne
      obtain ⟨e, x, hrun, hq⟩ := hspec.exists_error fun _ _ h => h
      have hlx : Loaded w (u.withSys fun i => sys (i + n' + n)) x := hq.loaded
      refine ⟨_, e, x, hrun, hlx.consistent (hcu.withSys _), ?_, fun a ha => ?_, ?_, ?_, ?_⟩
      · have hnew : keyId w u defaultDataTdeOid = some k.id := by
          show (principalKeyOf w u defaultDataTdeOid).map _ = _
          rw [show principalKeyOf w u defaultDataTdeOid = some k from hk, Option.map_some]
        rw [keyId_congr (hlx.principalKeyOf _), hat, ← keyAt_congr hprov]
        exact hnew.trans hid.symm
      · exact (hlx.principalKeyOf a).trans (hothers a ha)
      · exact hlx.providers.trans ((KeySteps.providers hsteps.keySteps).trans hl.providers)
      · exact hlx.databases.trans hdbs
      · exact (congrFun hlx.walKeys _).trans ((honly.walKeys (by decide)).trans
          (congrFun hl.walKeys _))

/-- The second call finds the new key in the place of the old one, and moves nothing. -/
theorem Stranded.retry (h : Stranded w s c t) (hwant : wantedKey w s c ≠ none)
    (hserver : ¬(keyId w s globalDataTdeOid = wantedKey w s c ∧ ¬WalFileReadable w s)) :
    ∃ o u, setDefaultKeyUsingGlobalKeyProvider w c (t.outside o) = .ok () u ∧
      ∀ a ∈ defaultScopes s, keyId w s a ≠ none → keyId w s a ≠ wantedKey w s c →
        keyId w u a = keyId w s a := by
  let good : Outside := ⟨fun _ _ => .stored, t.rng, t.clock, fun _ => true⟩
  have hwant' : wantedKey w (t.outside good) c = wantedKey w s c := wantedKey_congr h.providers
  have hspec := setDefaultKeyUsingGlobalKeyProvider_keys (c := c) (h.consistent.outside good)
  obtain ⟨_, u, hrun, kp, -, hmoved, -⟩ := (hspec.mono (fun _ _ hu => hu) fun _ _ he =>
    he.2 (fun _ => rfl) (fun _ _ => rfl) (by rwa [hwant'])).exists_ok fun _ _ ⟨hkey, hbad⟩ => by
      have hglobal : keyId w t globalDataTdeOid = keyId w t defaultDataTdeOid := hkey
      rw [h.default, keyId_congr (h.others _ (by decide))] at hglobal
      exact hserver ⟨hglobal, fun hread => hbad (hread.congr (h.others _ (by decide)) h.walKeys)⟩
  refine ⟨good, u, hrun, fun a ha hne hdiff => ?_⟩
  have hta : keyId w t a = keyId w s a := keyId_congr (h.others a (ne_default_of_mem ha))
  obtain hsame | ⟨-, ⟨hnone, -⟩ | ⟨-, heq⟩⟩ := hmoved.others a (ne_default_of_mem ha)
  · exact (keyId_congr hsame).trans hta
  · exact absurd (hta.symm.trans hnone) hne
  · have hdef : keyId w t a = keyId w t defaultDataTdeOid := heq
    rw [hta, h.default] at hdef
    exact absurd hdef hdiff

/-- A change of the default key that fails can be completed by the same call, wherever it fails, if
and only if there is nothing to carry over. -/
theorem failed_default_change (w : World) (s : Server) (hs : Consistent w s) (c : SetKeyCall) :
    CanBeCompleted w s c ↔ NothingToCarry w s c := by
  refine ⟨fun h => ?_, fun h => h.canBeCompleted hs⟩
  by_contra hcarry
  unfold NothingToCarry at hcarry
  push Not at hcarry
  obtain ⟨hwant, hold, hdiff, ⟨a, ha, huses⟩, hserver⟩ := hcarry
  obtain ⟨o, e, t, hrun, hstranded⟩ := exists_stranded hs hwant hold ha huses
  obtain hsame | hretry := h o e t hrun
  · refine hdiff ?_
    rw [← hstranded.default, keyId_congr (hsame _)]
  · obtain ⟨o', u, hrun', hkept⟩ := hstranded.retry hwant fun hbad => hbad.2 (hserver hbad.1)
    have hne : keyId w s a ≠ none := by rwa [huses]
    have hnew := hretry o' u hrun' a ha hne huses
    have hdiff' : keyId w s a ≠ wantedKey w s c := by rwa [huses]
    exact hdiff' ((hkept a ha hne hdiff').symm.trans hnew)

theorem failed_default_change_sample :
    Consistent sampleWorld sampleDefaults ∧
      CanBeCompleted sampleWorld sampleDefaults (sampleCall [65]) :=
  ⟨sampleDefaults_consistent, (failed_default_change sampleWorld sampleDefaults
    sampleDefaults_consistent (sampleCall [65])).2 (.inr (.inr (.inl (by decide +kernel))))⟩

/-- The sample server when one system call fails, if any. -/
def sampleOutside (failing : Option ℕ) : Outside :=
  ⟨fun _ _ => .stored, fun i => UInt8.ofNat i, fun _ => ⟨0, 0⟩, fun i => failing ≠ some i⟩

/-- The sample server after a call that was interrupted. -/
def sampleStranded : Server :=
  after (setDefaultKeyUsingGlobalKeyProvider sampleWorld (sampleCall [66]))
    (sampleDefaults.outside (sampleOutside (some 6)))

/-- The seventh system call is the first one behind the change of the default key. The database stays
with the old key, also after the second call. -/
theorem failed_default_change_stranded :
    ¬CanBeCompleted sampleWorld sampleDefaults (sampleCall [66]) := by
  intro h
  obtain ⟨e, hfirst⟩ := error_after_of_not_returns (m := setDefaultKeyUsingGlobalKeyProvider
    sampleWorld (sampleCall [66])) (s := sampleDefaults.outside (sampleOutside (some 6)))
    (by decide +kernel)
  obtain ⟨_, hsecond⟩ := ok_after_of_returns (m := setDefaultKeyUsingGlobalKeyProvider
    sampleWorld (sampleCall [66])) (s := sampleStranded.outside (sampleOutside none))
    (by decide +kernel)
  have hdef : keyId sampleWorld sampleDefaults defaultDataTdeOid = some ([65], -1) := by
    decide +kernel
  have hdb : keyId sampleWorld sampleDefaults 5 = some ([65], -1) := by decide +kernel
  obtain hsame | hretry := h _ e sampleStranded hfirst
  · have hnew : keyId sampleWorld sampleStranded defaultDataTdeOid = some ([66], -1) := by
      decide +kernel
    rw [keyId_congr (hsame _), hdef] at hnew
    cases hnew
  · have hmoved := hretry _ _ hsecond 5 (by decide +kernel) (by simp [hdb]) (by rw [hdb, hdef])
    have hkept : keyId sampleWorld (after (setDefaultKeyUsingGlobalKeyProvider sampleWorld
        (sampleCall [66])) (sampleStranded.outside (sampleOutside none))) 5 ≠
        wantedKey sampleWorld sampleDefaults (sampleCall [66]) := by
      decide +kernel
    exact hkept hmoved

end OpenPgTde
