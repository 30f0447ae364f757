import OpenPgTde.Concurrency.SmgrKey
import OpenPgTde.PrincipalKey.Default

/-!
Changing the default key while other sessions change, delete or hand it out.

`open_pg_tde_set_default_key_using_global_key_provider` remembers the old default key, replaces it,
carries the scopes that use the old one over to the one that is there then, looks for a server key and
sets one if there is none; each of these is a critical section of its own. A deletion of the default
key is one section, and so is the fallback through which a database or the server takes it over. The
model keeps a history besides: the keys that were the default key and were replaced by another one.
-/

namespace OpenPgTde

open Lib.Effect Lib.Schedule

variable {w : World} {s t : Server}

/-! ### The sections of a call -/

/-- For the default scope the routine is a lookup, the setting of the key and the carrying over, in
this order. -/
theorem setDefaultKey_eq (c : SetKeyCall) :
    setPrincipalKeyInternal w globalDataTdeOid defaultDataTdeOid c = (do
      match checkSetKeyCall globalDataTdeOid c with
      | .error e => throw e
      | .ok (keyName, providerName) =>
        let old ← getPrincipalKeyNoDefault w defaultDataTdeOid
        setPrincipalKeyWithKeyring w keyName providerName globalDataTdeOid defaultDataTdeOid
        match old with
        | none => pure ()
        | some old =>
          let _ ← carryDefaultKey w old) := by
  unfold setPrincipalKeyInternal
  cases checkSetKeyCall globalDataTdeOid c with
  | error e => rfl
  | ok names =>
      simp only [if_true]
      refine bind_congr fun old => bind_congr fun _ => ?_
      cases old with
      | none => rfl
      | some old =>
          simp only [carryDefaultKey, bind_assoc]
          refine bind_congr fun r => ?_
          cases r with
          | none => rfl
          | some newKey => simp only [bind_assoc, pure_bind, bind_pure_unit]

/-- How far a session is in a call that sets the default key: the section that is next, with what it
needs. -/
inductive DefaultStage
  | idle
  | remembering (keyName providerName : List UInt8)
  | replacing (keyName providerName : List UInt8) (old : Option TDEPrincipalKey)
  | carrying (keyName providerName : List UInt8) (old : TDEPrincipalKey)
  | lookingForServerKey (keyName providerName : List UInt8)
  | settingServerKey (keyName providerName : List UInt8)
  /-- The call raised an error after it had replaced the default key. -/
  | interrupted (old : Option TDEPrincipalKey)
  deriving DecidableEq

/-- The next section of a call. A call that raises an error is over; if it has replaced the default
key by then it is not complete. -/
def nextSection (w : World) (s : Server) : DefaultStage → DefaultStage × Server
  | .idle => (.idle, s)
  | .remembering keyName providerName =>
    match getPrincipalKeyNoDefault w defaultDataTdeOid s with
    | .ok old t => (.replacing keyName providerName old, t)
    | .error _ t => (.idle, t)
  | .replacing keyName providerName old =>
    match setPrincipalKeyWithKeyring w keyName providerName globalDataTdeOid defaultDataTdeOid s with
    | .ok _ t =>
      match old with
      | none => (.lookingForServerKey keyName providerName, t)
      | some old => (.carrying keyName providerName old, t)
    | .error _ t =>
      if keyId w t defaultDataTdeOid = keyId w s defaultDataTdeOid then (.idle, t)
      else (.interrupted old, t)
  | .carrying keyName providerName old =>
    match carryDefaultKey w old s with
    | .ok true t => (.lookingForServerKey keyName providerName, t)
    | .ok false t => (.interrupted (some old), t)
    | .error _ t => (.interrupted (some old), t)
  | .lookingForServerKey keyName providerName =>
    match getPrincipalKeyNoDefault w globalDataTdeOid s with
    | .ok none t => (.settingServerKey keyName providerName, t)
    | .ok (some _) t => (.idle, t)
    | .error _ t => (.idle, t)
  | .settingServerKey keyName providerName =>
    (.idle, after (setPrincipalKeyWithKeyring w keyName providerName globalDataTdeOid
      globalDataTdeOid) s)
  | .interrupted old => (.interrupted old, s)

/-! ### Sessions -/

/-- The server, the sessions, and the default keys that others have replaced so far. -/
structure DefaultSessions where
  server : Server
  stage : ℕ → DefaultStage
  replaced : List (List UInt8 × ℤ)

inductive DefaultAct
  | call (p : ℕ) (c : SetKeyCall)
  | next (p : ℕ)
  | deleteDefaultKey (superuser : Bool)
  | getPrincipalKey (scope : Oid)

/-- The default key that `t` has not any more because it has another one. -/
def replacedDefault (w : World) (s t : Server) : List (List UInt8 × ℤ) :=
  match keyId w s defaultDataTdeOid, keyId w t defaultDataTdeOid with
  | some x, some y => if x = y then [] else [x]
  | _, _ => []

def defaultStep (w : World) (x : DefaultSessions) : DefaultAct → DefaultSessions
  | .call p c =>
    match x.stage p, checkSetKeyCall globalDataTdeOid c with
    | .idle, .ok (keyName, providerName) =>
      { x with stage := Function.update x.stage p (.remembering keyName providerName) }
    | _, _ => x
  | .next p =>
    let r := nextSection w x.server (x.stage p)
    ⟨r.2, Function.update x.stage p r.1, replacedDefault w x.server r.2 ++ x.replaced⟩
  | .deleteDefaultKey superuser =>
    { x with server := after (OpenPgTde.deleteDefaultKey w superuser) x.server }
  | .getPrincipalKey scope =>
    { x with server := after (OpenPgTde.getPrincipalKey w scope) x.server }

/-- No session is in a call, and nothing has been replaced yet. -/
def Server.defaults (s : Server) : DefaultSessions := ⟨s, fun _ => .idle, []⟩

/-- What a section needs to find: a call replaces the default key that it remembers, if there still
is one, and sets the key of the server to what is the default key. -/
def SectionKept (w : World) (s : Server) : DefaultStage → Prop
  | .replacing _ _ old => keyId w s defaultDataTdeOid = none ∨
    keyId w s defaultDataTdeOid = old.map TDEPrincipalKey.id
  | .settingServerKey keyName providerName =>
    keyAt w s globalDataTdeOid providerName keyName = keyId w s defaultDataTdeOid
  | _ => True

/-- The calls do not get in each other's way: each section finds the default key that its call has
seen or set, and none is deleted between its setting and the carrying over. -/
def DefaultKept (w : World) (x : DefaultSessions) : DefaultAct → Prop
  | .next p => SectionKept w x.server (x.stage p)
  | .deleteDefaultKey _ => ∀ p keyName providerName old,
    x.stage p ≠ .carrying keyName providerName old
  | _ => True

/-! ### The invariant -/

/-- The call still has to carry the scopes over that use this key. -/
def DefaultStage.Carries (id : List UInt8 × ℤ) : DefaultStage → Prop
  | .carrying _ _ old => old.id = id
  | .interrupted (some old) => old.id = id
  | _ => False

/-- A scope that uses a replaced default key uses the one there is now, or a call has still to carry
it over. -/
def Covered (w : World) (s : Server) (stage : ℕ → DefaultStage) (replaced : List (List UInt8 × ℤ)) :
    Prop :=
  ∀ a ∈ defaultScopes s, ∀ id ∈ replaced, keyId w s a = some id →
    keyId w s defaultDataTdeOid = some id ∨ ∃ p, (stage p).Carries id

/-- From `s` to `t` no scope comes to use anything but the default key, and the default key is not
taken away from a scope that uses it. -/
def KeepsUse (w : World) (s t : Server) : Prop :=
  ∀ a ∈ defaultScopes s, ∀ id, keyId w t a = some id → keyId w t defaultDataTdeOid = some id ∨
    keyId w s a = some id ∧ keyId w s defaultDataTdeOid ≠ some id

variable {x : DefaultSessions} {stage : ℕ → DefaultStage} {replaced : List (List UInt8 × ℤ)} {p : ℕ}

theorem ne_default_of_mem_defaultScopes {a : Oid} (ha : a ∈ defaultScopes s) :
    a ≠ defaultDataTdeOid := by
  obtain rfl | ha := List.mem_cons.1 ha
  · decide
  · obtain ⟨db, -, rfl⟩ := List.mem_map.1 ha
    exact db.ne_default

theorem defaultScopes_congr (h : t.databases = s.databases) : defaultScopes t = defaultScopes s := by
  rw [defaultScopes, defaultScopes, h]

/-- Where the default key stays, the scopes may stay as they are or take it over. -/
theorem KeepsUse.of_default (hd : keyId w t defaultDataTdeOid = keyId w s defaultDataTdeOid)
    (h : ∀ a ∈ defaultScopes s, keyId w t a = keyId w s a ∨
      keyId w t a = keyId w s defaultDataTdeOid) : KeepsUse w s t := by
  intro a ha id hid
  rw [hd]
  obtain hsame | hdefault := h a ha
  · by_cases hdid : keyId w s defaultDataTdeOid = some id
    · exact .inl hdid
    · exact .inr ⟨by rw [← hsame, hid], hdid⟩
  · exact .inl (by rw [← hdefault, hid])

theorem Loaded.keepsUse (h : Loaded w s t) : KeepsUse w s t :=
  .of_default (keyId_congr (h.principalKeyOf _)) fun a _ => .inl (keyId_congr (h.principalKeyOf a))

theorem DefaultDropped.keepsUse (h : DefaultDropped w s t) : KeepsUse w s t := by
  obtain ⟨l, hdrop, -, hall⟩ := h
  intro a ha id hid
  have hal : a ∉ l := by
    intro hmem
    rw [keyId, hdrop.lost a hmem] at hid
    cases hid
  rw [keyId_congr (hdrop.others a hal)] at hid
  by_cases hd : keyId w s defaultDataTdeOid = some id
  · by_cases hdl : defaultDataTdeOid ∈ l
    · exact absurd (hall hdl a ha (by rw [hid, hd])) hal
    · exact .inl (by rw [keyId_congr (hdrop.others _ hdl), hd])
  · exact .inr ⟨hid, hd⟩

theorem FellBack.default {scope : Oid} (h : FellBack w scope s t) :
    keyId w t defaultDataTdeOid = keyId w s defaultDataTdeOid := by
  by_cases hd : scope = defaultDataTdeOid
  · subst hd
    obtain hown | ⟨-, hown⟩ := h.own <;> exact hown
  · exact keyId_congr (h.others _ (Ne.symm hd))

theorem FellBack.keepsUse {scope : Oid} (h : FellBack w scope s t) : KeepsUse w s t := by
  refine .of_default h.default fun a _ => ?_
  by_cases ha : a = scope
  · subst ha
    exact h.own.imp id And.right
  · exact .inl (keyId_congr (h.others a ha))

theorem Covered.keepsUse (h : Covered w s stage replaced) (hk : KeepsUse w s t)
    (hscopes : defaultScopes t = defaultScopes s) : Covered w t stage replaced := by
  intro a ha id hid hkey
  rw [hscopes] at ha
  obtain hd | ⟨hkey, hd⟩ := hk a ha id hkey
  · exact .inl hd
  · exact .inr ((h a ha id hid hkey).resolve_left hd)

theorem Covered.put (h : Covered w s stage replaced) {new : DefaultStage}
    (hnew : ∀ id, (stage p).Carries id → new.Carries id) :
    Covered w s (Function.update stage p new) replaced := by
  intro a ha id hid hkey
  refine (h a ha id hid hkey).imp_right fun ⟨q, hq⟩ => ?_
  by_cases hqp : q = p
  · subst hqp
    exact ⟨q, by rw [Function.update_self]; exact hnew id hq⟩
  · exact ⟨q, by rwa [Function.update_of_ne hqp]⟩

/-- The scopes keep up with the default key, and where a call is about to carry them over there is
a default key. -/
structure DefaultsOk (w : World) (x : DefaultSessions) : Prop where
  consistent : Consistent w x.server
  covered : Covered w x.server x.stage x.replaced
  present : ∀ p keyName providerName old, x.stage p = .carrying keyName providerName old →
    keyId w x.server defaultDataTdeOid ≠ none

theorem defaultsOk_start (hs : Consistent w s) : DefaultsOk w s.defaults where
  consistent := hs
  covered _ _ _ h := absurd h List.not_mem_nil
  present _ _ _ _ h := DefaultStage.noConfusion h

theorem replacedDefault_eq_nil
    (h : keyId w t defaultDataTdeOid = keyId w s defaultDataTdeOid) : replacedDefault w s t = [] := by
  unfold replacedDefault
  rw [h]
  cases keyId w s defaultDataTdeOid with
  | none => rfl
  | some x => simp

/-- The outcome of a section that leaves the default key what it is. -/
theorem DefaultsOk.next_of_default (h : DefaultsOk w x) {new : DefaultStage}
    (hsteps : KeySteps w x.server t)
    (hd : keyId w t defaultDataTdeOid = keyId w x.server defaultDataTdeOid)
    (hcov : Covered w t (Function.update x.stage p new) x.replaced)
    (hnew : ∀ keyName providerName old, new ≠ .carrying keyName providerName old) :
    DefaultsOk w ⟨t, Function.update x.stage p new,
      replacedDefault w x.server t ++ x.replaced⟩ := by
  refine ⟨hsteps.consistent h.consistent, ?_, fun q keyName providerName old hq => ?_⟩
  · rw [replacedDefault_eq_nil hd]
    exact hcov
  · show keyId w t defaultDataTdeOid ≠ none
    rw [hd]
    by_cases hqp : q = p
    · subst hqp
      exact absurd (by simpa using hq) (hnew keyName providerName old)
    · exact h.present q keyName providerName old (by simpa [hqp] using hq)

theorem DefaultsOk.next_of_keepsUse (h : DefaultsOk w x) {new : DefaultStage}
    (hsteps : KeySteps w x.server t)
    (hd : keyId w t defaultDataTdeOid = keyId w x.server defaultDataTdeOid)
    (hkeeps : KeepsUse w x.server t) (hp : ∀ id, (x.stage p).Carries id → new.Carries id)
    (hnew : ∀ keyName providerName old, new ≠ .carrying keyName providerName old) :
    DefaultsOk w ⟨t, Function.update x.stage p new,
      replacedDefault w x.server t ++ x.replaced⟩ :=
  h.next_of_default hsteps hd
    ((h.covered.keepsUse hkeeps (defaultScopes_congr hsteps.databases)).put hp) hnew

/-- Replacing the default key: the call that does it remembers the key that the scopes use. -/
theorem Covered.replace (h : Covered w s stage replaced) (honly : OnlyScope w defaultDataTdeOid s t)
    (hscopes : defaultScopes t = defaultScopes s) {old : Option TDEPrincipalKey}
    {new : DefaultStage} (hp : ∀ id, ¬(stage p).Carries id)
    (hold : keyId w s defaultDataTdeOid = none ∨
      keyId w s defaultDataTdeOid = old.map TDEPrincipalKey.id)
    (hnew : ∀ k, old = some k → new.Carries k.id) :
    Covered w t (Function.update stage p new) (replacedDefault w s t ++ replaced) := by
  intro a ha id hid hkey
  rw [hscopes] at ha
  rw [keyId_congr (honly.others a (ne_default_of_mem_defaultScopes ha))] at hkey
  by_cases hd : keyId w s defaultDataTdeOid = some id
  · -- it was the default key until now, so the call has it in mind
    refine .inr ⟨p, ?_⟩
    rw [Function.update_self]
    obtain hold | hold := hold
    · rw [hold] at hd
      cases hd
    · rw [hd] at hold
      obtain ⟨k, rfl, rfl⟩ := Option.map_eq_some_iff.1 hold.symm
      exact hnew k rfl
  · have hid' : id ∈ replaced := by
      refine (List.mem_append.1 hid).resolve_left fun hmem => hd ?_
      unfold replacedDefault at hmem
      split at hmem
      · next x y hx hy =>
          split at hmem
          · cases hmem
          · rw [List.mem_singleton.1 hmem, hx]
      · cases hmem
    obtain hd' | ⟨q, hq⟩ := h a ha id hid' hkey
    · exact absurd hd' hd
    · refine .inr ⟨q, ?_⟩
      have hqp : q ≠ p := by
        rintro rfl
        exact hp id hq
      rwa [Function.update_of_ne hqp]

theorem DefaultsOk.next_of_replace (h : DefaultsOk w x) {old : Option TDEPrincipalKey}
    {new : DefaultStage} (hsteps : KeySteps w x.server t)
    (honly : OnlyScope w defaultDataTdeOid x.server t) (hp : ∀ id, ¬(x.stage p).Carries id)
    (hold : keyId w x.server defaultDataTdeOid = none ∨
      keyId w x.server defaultDataTdeOid = old.map TDEPrincipalKey.id)
    (hnew : ∀ k, old = some k → new.Carries k.id) (hd : keyId w t defaultDataTdeOid ≠ none) :
    DefaultsOk w ⟨t, Function.update x.stage p new,
      replacedDefault w x.server t ++ x.replaced⟩ :=
  ⟨hsteps.consistent h.consistent,
    h.covered.replace honly (defaultScopes_congr hsteps.databases) hp hold hnew,
    fun _ _ _ _ _ => hd⟩

/-- Carrying over moves every scope that uses the old key. -/
theorem Covered.carry (h : Covered w s stage replaced) {old : TDEPrincipalKey}
    {id : List UInt8 × ℤ} {new : DefaultStage} (hd : keyId w s defaultDataTdeOid = some id)
    (hc : Carried w old.id id s t)
    (hall : ∀ a ∈ defaultScopes s, keyId w s a = some old.id → keyId w t a = some id)
    (hp : ∀ id', (stage p).Carries id' → id' = old.id) :
    Covered w t (Function.update stage p new) replaced := by
  intro a ha id' hid' hkey
  rw [defaultScopes_congr hc.steps.keySteps.databases] at ha
  rw [keyId_congr hc.default, hd]
  obtain hsame | ⟨-, hmoved⟩ := hc.carried a (ne_default_of_mem_defaultScopes ha)
  · rw [keyId_congr hsame] at hkey
    obtain hd' | ⟨q, hq⟩ := h a ha id' hid' hkey
    · exact .inl (by rw [← hd, hd'])
    · by_cases hqp : q = p
      · subst hqp
        obtain rfl := hp id' hq
        left
        rw [← hall a ha hkey, keyId_congr hsame, hkey]
      · exact .inr ⟨q, by rwa [Function.update_of_ne hqp]⟩
  · exact .inl (by rw [← hmoved, hkey])

theorem Carried.keepsUse {oldId id : List UInt8 × ℤ}
    (hd : keyId w s defaultDataTdeOid = some id) (h : Carried w oldId id s t) : KeepsUse w s t := by
  refine .of_default (keyId_congr h.default) fun a ha => ?_
  obtain hsame | ⟨-, hmoved⟩ := h.carried a (ne_default_of_mem_defaultScopes ha)
  · exact .inl (keyId_congr hsame)
  · exact .inr (by rw [hmoved, hd])

theorem DefaultsOk.next (h : DefaultsOk w x) (hk : SectionKept w x.server (x.stage p)) :
    DefaultsOk w (defaultStep w x (.next p)) := by
  have hloaded : ∀ {t new}, Loaded w x.server t → (∀ id, (x.stage p).Carries id → new.Carries id) →
      (∀ keyName providerName old, new ≠ .carrying keyName providerName old) →
      DefaultsOk w ⟨t, Function.update x.stage p new,
        replacedDefault w x.server t ++ x.replaced⟩ := fun hl hp hnew =>
    h.next_of_keepsUse hl.steps.keySteps (keyId_congr (hl.principalKeyOf _)) hl.keepsUse hp hnew
  have hcons := h.consistent
  simp only [defaultStep]
  cases hp : x.stage p with
  | idle =>
      exact hloaded (Loaded.refl _) (fun id hid => by simp [hp, DefaultStage.Carries] at hid)
        (by simp [nextSection])
  | interrupted old =>
      exact hloaded (Loaded.refl _) (fun id hid => by rwa [hp] at hid) (by simp [nextSection])
  | remembering keyName providerName =>
      have hspec := getPrincipalKeyNoDefault_spec (hcons.scopes defaultDataTdeOid)
      have hno : ∀ {new id}, (x.stage p).Carries id → DefaultStage.Carries id new := fun hid => by
        simp [hp, DefaultStage.Carries] at hid
      simp only [nextSection]
      cases hrun : getPrincipalKeyNoDefault w defaultDataTdeOid x.server with
      | ok old t => exact hloaded (hspec.of_ok hrun).1 (fun _ => hno) (by simp)
      | error err t => exact hloaded (hspec.of_error hrun).1 (fun _ => hno) (by simp)
  | lookingForServerKey keyName providerName =>
      have hspec := getPrincipalKeyNoDefault_spec (hcons.scopes globalDataTdeOid)
      have hno : ∀ {new id}, (x.stage p).Carries id → DefaultStage.Carries id new := fun hid => by
        simp [hp, DefaultStage.Carries] at hid
      simp only [nextSection]
      cases hrun : getPrincipalKeyNoDefault w globalDataTdeOid x.server with
      | ok serverKey t =>
          have hl := (hspec.of_ok hrun).1
          cases serverKey with
          | none => exact hloaded hl (fun _ => hno) (by simp)
          | some k => exact hloaded hl (fun _ => hno) (by simp)
      | error err t => exact hloaded (hspec.of_error hrun).1 (fun _ => hno) (by simp)
  | settingServerKey keyName providerName =>
      rw [hp] at hk
      replace hk : keyAt w x.server globalDataTdeOid providerName keyName =
        keyId w x.server defaultDataTdeOid := hk
      have hset : ∀ {t}, LoggedSteps w x.server t → OnlyScope w globalDataTdeOid x.server t →
          (principalKeyOf w t globalDataTdeOid = principalKeyOf w x.server globalDataTdeOid ∨
            ∃ k, principalKeyOf w t globalDataTdeOid = some k ∧
              keyAt w x.server globalDataTdeOid providerName keyName = some k.id) →
          DefaultsOk w ⟨t, Function.update x.stage p .idle,
            replacedDefault w x.server t ++ x.replaced⟩ := by
        intro t hsteps honly hkey
        have hd := keyId_congr (honly.others defaultDataTdeOid (by decide))
        refine h.next_of_keepsUse hsteps.keySteps hd (.of_default hd fun a _ => ?_)
          (fun id hid => by simp [hp, DefaultStage.Carries] at hid) (by simp)
        by_cases ha : a = globalDataTdeOid
        · subst ha
          obtain hsame | ⟨k, hkey, hat⟩ := hkey
          · exact .inl (keyId_congr hsame)
          · exact .inr (by rw [← hk, hat, keyId, hkey, Option.map_some])
        · exact .inl (keyId_congr (honly.others a ha))
      have hspec := setPrincipalKeyWithKeyring_spec hcons (.inl rfl : ProviderScopeOk
        globalDataTdeOid globalDataTdeOid) keyName providerName
      exact (hspec.mono (fun _ t ht => hset ht.1 ht.2.1 (.inr
        (ht.2.2.imp fun k hk => ⟨hk.1, hk.2.2⟩))) fun _ t ht => hset ht.1 ht.2.1 ht.2.2.1).after
  | replacing keyName providerName old =>
      rw [hp] at hk
      have hno : ∀ id, ¬(x.stage p).Carries id := fun id hid => by
        simp [hp, DefaultStage.Carries] at hid
      have hspec := setPrincipalKeyWithKeyring_spec hcons (.inl rfl : ProviderScopeOk
        globalDataTdeOid defaultDataTdeOid) keyName providerName
      simp only [nextSection]
      cases hrun : setPrincipalKeyWithKeyring w keyName providerName globalDataTdeOid
          defaultDataTdeOid x.server with
      | ok r t =>
          obtain ⟨hsteps, honly, k, hkey, -⟩ := hspec.of_ok hrun
          have hd : keyId w t defaultDataTdeOid ≠ none := by simp [keyId, hkey]
          cases old with
          | none => exact h.next_of_replace hsteps.keySteps honly hno hk (fun k hk => by cases hk) hd
          | some old =>
              exact h.next_of_replace hsteps.keySteps honly hno hk
                (fun k hk => congrArg _ (Option.some.inj hk)) hd
      | error err t =>
          obtain ⟨hsteps, honly, hkey, -⟩ := hspec.of_error hrun
          dsimp only
          split
          · next hsame =>
              refine h.next_of_keepsUse hsteps.keySteps hsame (.of_default hsame fun a ha => ?_)
                (fun id hid => absurd hid (hno id)) (by simp)
              exact .inl (keyId_congr (honly.others a (ne_default_of_mem_defaultScopes ha)))
          · next hdiff =>
              have hd : keyId w t defaultDataTdeOid ≠ none := by
                obtain hsame | ⟨k, hkey, -⟩ := hkey
                · exact absurd (keyId_congr hsame) hdiff
                · simp [keyId, hkey]
              refine h.next_of_replace hsteps.keySteps honly hno hk (fun k hk => ?_) hd
              rw [hk]
              rfl
  | carrying keyName providerName old =>
      have hspec := carryDefaultKey_spec hcons old
      have hcarries : ∀ id, (x.stage p).Carries id ↔ old.id = id := fun id => by
        rw [hp]
        rfl
      have hinterrupted : ∀ id, (x.stage p).Carries id →
          (DefaultStage.interrupted (some old)).Carries id := fun id => (hcarries id).1
      simp only [nextSection]
      cases hrun : carryDefaultKey w old x.server with
      | ok r t =>
          obtain ⟨rfl, hnone, -⟩ | ⟨rfl, id, hd, hc, hall⟩ := hspec.of_ok hrun
          · exact absurd hnone (h.present p keyName providerName old hp)
          · exact h.next_of_default hc.steps.keySteps (keyId_congr hc.default)
              (h.covered.carry hd hc hall fun id' hid' => ((hcarries id').1 hid').symm) (by simp)
      | error err t =>
          obtain hl | ⟨id, hd, hc⟩ := hspec.of_error hrun
          · exact hloaded hl hinterrupted (by simp)
          · exact h.next_of_keepsUse hc.steps.keySteps (keyId_congr hc.default) (hc.keepsUse hd)
              hinterrupted (by simp)

theorem DefaultsOk.step (h : DefaultsOk w x) (a : DefaultAct) (ha : DefaultKept w x a) :
    DefaultsOk w (defaultStep w x a) := by
  cases a with
  | next p => exact h.next ha
  | call p c =>
      simp only [defaultStep]
      split
      · next keyName providerName hp hc =>
          refine ⟨h.consistent, h.covered.put fun id hid => ?_, fun q _ _ _ hq => ?_⟩
          · rw [hp] at hid
            exact hid.elim
          · by_cases hqp : q = p
            · subst hqp
              simp at hq
            · exact h.present q _ _ _ (by simpa [hqp] using hq)
      · exact h
  | deleteDefaultKey superuser =>
      have hspec := (deleteDefaultKey_spec h.consistent superuser (x := false)
        (fun h => by cases h)).after
      have hsteps := hspec.1.1
      exact ⟨hsteps.consistent h.consistent,
        h.covered.keepsUse hspec.2.keepsUse (defaultScopes_congr hsteps.databases),
        fun q keyName providerName old hq => absurd hq (ha q keyName providerName old)⟩
  | getPrincipalKey scope =>
      have hfell : FellBack w scope x.server (after (OpenPgTde.getPrincipalKey w scope) x.server) :=
        ((getPrincipalKey_spec h.consistent).mono (fun _ _ ht => ht.1) fun _ _ ht => ht.1).after
      refine ⟨hfell.steps.consistent h.consistent, h.covered.keepsUse hfell.keepsUse
        (defaultScopes_congr hfell.steps.databases), fun q keyName providerName old hq => ?_⟩
      show keyId w (after (OpenPgTde.getPrincipalKey w scope) x.server) defaultDataTdeOid ≠ none
      rw [hfell.default]
      exact h.present q keyName providerName old hq

/-- A call that is about to carry the scopes over finds a default key, and once no call is under way
the server and no database uses a default key that another one has replaced. -/
structure NoStaleDefault (w : World) (x : DefaultSessions) : Prop where
  present : ∀ p keyName providerName old, x.stage p = .carrying keyName providerName old →
    keyId w x.server defaultDataTdeOid ≠ none
  current : (∀ p, x.stage p = .idle) → ∀ a ∈ defaultScopes x.server, ∀ id ∈ x.replaced,
    keyId w x.server a = some id → keyId w x.server defaultDataTdeOid = some id

/-- Changing the default key is safe under concurrency as long as the calls keep out of each other's
way, in every interleaving of such calls with deletions and with fallbacks. -/
theorem default_key_under_concurrency (w : World) (s : Server) (hs : Consistent w s)
    (acts : List DefaultAct) (h : Meets (defaultStep w) (DefaultKept w) acts s.defaults) :
    NoStaleDefault w (run (defaultStep w) acts s.defaults) := by
  have hok : DefaultsOk w (run (defaultStep w) acts s.defaults) :=
    run_invariant (fun _ a hx ha => hx.step a ha) acts (defaultsOk_start hs) h
  refine ⟨hok.present, fun hidle a ha id hid hkey => ?_⟩
  refine (hok.covered a ha id hid hkey).resolve_right fun ⟨p, hp⟩ => ?_
  rw [hidle p] at hp
  exact hp

instance (w : World) (s : Server) (stage : DefaultStage) : Decidable (SectionKept w s stage) :=
  match stage with
  | .replacing _ _ old => inferInstanceAs (Decidable (keyId w s defaultDataTdeOid = none ∨
      keyId w s defaultDataTdeOid = old.map TDEPrincipalKey.id))
  | .settingServerKey keyName providerName => inferInstanceAs (Decidable (keyAt w s
      globalDataTdeOid providerName keyName = keyId w s defaultDataTdeOid))
  | .idle | .remembering .. | .carrying .. | .lookingForServerKey .. | .interrupted _ =>
      .isTrue trivial

/-- A session changes the default key of the sample server, and a database asks for its key on the
way. -/
def sampleDefaultActs : List DefaultAct :=
  [.call 0 (sampleCall [66]), .next 0, .next 0, .getPrincipalKey 5, .next 0, .next 0]

theorem sampleDefaultActs_kept (h : ∀ n < 6, SectionKept w
      (run (defaultStep w) (sampleDefaultActs.take n) x).server
      ((run (defaultStep w) (sampleDefaultActs.take n) x).stage 0)) :
    Meets (defaultStep w) (DefaultKept w) sampleDefaultActs x :=
  ⟨trivial, h 1 (by decide), h 2 (by decide), trivial, h 4 (by decide), h 5 (by decide), trivial⟩

theorem default_key_under_concurrency_sample :
    (run (defaultStep sampleWorld) sampleDefaultActs sampleDefaults.defaults).replaced =
      [([65], -1)] ∧
    keyId sampleWorld (run (defaultStep sampleWorld) sampleDefaultActs
      sampleDefaults.defaults).server 5 = some ([66], -1) ∧
    NoStaleDefault sampleWorld (run (defaultStep sampleWorld) sampleDefaultActs
      sampleDefaults.defaults) := by
  refine ⟨by decide +kernel, by decide +kernel, default_key_under_concurrency sampleWorld
    sampleDefaults sampleDefaults_consistent sampleDefaultActs (sampleDefaultActs_kept ?_)⟩
  decide +kernel

/-! ### Calls that get in each other's way -/

/-- The session that an action belongs to. -/
def DefaultAct.session : DefaultAct → Option ℕ
  | call p _ => some p
  | next p => some p
  | _ => none

theorem defaultStep_stage_of_ne {a : DefaultAct} (ha : a.session ≠ some p) :
    (defaultStep w x a).stage p = x.stage p := by
  have hne : ∀ q, a.session = some q → p ≠ q := fun q hq h => ha (by rw [hq, h])
  cases a with
  | call q c =>
      simp only [defaultStep]
      split
      · exact Function.update_of_ne (hne q rfl) _ _
      · rfl
  | next q => exact Function.update_of_ne (hne q rfl) _ _
  | deleteDefaultKey | getPrincipalKey => rfl

/-- Two sessions remember the same default key before the first of them replaces it. -/
def sampleTwoCalls : List DefaultAct :=
  [.call 0 (sampleCall [66]), .call 1 (sampleCall [67]), .next 0, .next 1, .next 0, .next 0, .next 0,
    .next 1, .next 1, .next 1]

/-- The default key is deleted after a session has set it and before it carries the scopes over. -/
def sampleDeleted : List DefaultAct :=
  [.call 0 (sampleCall [66]), .next 0, .next 0, .deleteDefaultKey true]

/-- In the first run both calls return and the database is left with a key that has been replaced, in
the second one the call finds no default key in its last section. -/
theorem default_key_calls_interfere :
    Consistent sampleWorld sampleDefaults ∧
    ¬NoStaleDefault sampleWorld
      (run (defaultStep sampleWorld) sampleTwoCalls sampleDefaults.defaults) ∧
    ¬NoStaleDefault sampleWorld
      (run (defaultStep sampleWorld) sampleDeleted sampleDefaults.defaults) := by
  refine ⟨sampleDefaults_consistent, fun h => ?_, fun h => ?_⟩
  · have hidle : ∀ p, (run (defaultStep sampleWorld) sampleTwoCalls
        sampleDefaults.defaults).stage p = .idle := by
      intro p
      by_cases hp : p < 2
      · have hboth : ∀ p < 2, (run (defaultStep sampleWorld) sampleTwoCalls
            sampleDefaults.defaults).stage p = .idle := by
          decide +kernel
        exact hboth p hp
      · refine run_unchanged (fun x : DefaultSessions => x.stage p) (fun a ha _ =>
          defaultStep_stage_of_ne fun heq => hp ?_) _
        have hsession : ∀ a ∈ sampleTwoCalls, ∀ q ∈ a.session, q < 2 := by decide
        exact hsession a ha p heq
    have hstale := h.current hidle 5 (by decide +kernel) ([66], -1) (by decide +kernel)
      (by decide +kernel)
    revert hstale
    decide +kernel
  · have hstage : ∃ old, (run (defaultStep sampleWorld) sampleDeleted
        sampleDefaults.defaults).stage 0 = .carrying [66] [112] old :=
      ⟨⟨⟨defaultDataTdeOid, -1, ⟨0, 0⟩, [65]⟩, List.replicate 16 65⟩, by decide +kernel⟩
    obtain ⟨old, hold⟩ := hstage
    exact h.present 0 [66] [112] old hold (by decide +kernel)

end OpenPgTde
