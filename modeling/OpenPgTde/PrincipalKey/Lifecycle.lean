import OpenPgTde.KeyMap.RelationKeys

/-!
The life of principal keys on a primary.

The sessions of a primary set, rotate and delete principal keys, look them up, and create and remove
relation keys, one operation at a time. A run is any sequence of such operations, each of which may
also fail half way. In every state of every run the three copies of each principal key agree, and
the operations on principal keys leave the relation keys of every database what they were.
-/

namespace OpenPgTde

open Lib.Effect Lib.SlotArray

variable {w : World} {s t : Server}

/-! ### Operations and runs -/

/-- The operations of a primary on keys. The last one stands for what happens around them: keys
appear in the keyrings, the servers behind these answer or not, settings change, databases are
created and dropped. -/
inductive LifecycleOp
  | setKeyUsingDatabaseKeyProvider (db : DatabaseId) (c : SetKeyCall)
  | setKeyUsingGlobalKeyProvider (db : DatabaseId) (c : SetKeyCall)
  | setServerKeyUsingGlobalKeyProvider (c : SetKeyCall)
  | setDefaultKeyUsingGlobalKeyProvider (c : SetKeyCall)
  | deleteKey (db : DatabaseId)
  | deleteDefaultKey (superuser : Bool)
  | getPrincipalKey (scope : Oid)
  | getPrincipalKeyNoDefault (scope : Oid)
  | createRelationKey (db : DatabaseId) (spcOid : Oid) (relNumber : UInt32)
  | removeRelationKey (db : DatabaseId) (spcOid : Oid) (relNumber : UInt32)
  | removeLeftoverKey (db : DatabaseId) (spcOid : Oid) (relNumber : UInt32)
  | environment (kms : KeyringProviderRecord → List UInt8 → KmsReply) (cipher : CipherType)
      (dataCipher : Option CipherType) (databases : { l : List DatabaseId // l.Nodup })

/-- The operations whose purpose is to change the key of a relation. -/
def LifecycleOp.onRelation : LifecycleOp → Bool
  | createRelationKey .. => true
  | removeRelationKey .. => true
  | removeLeftoverKey .. => true
  | _ => false

def LifecycleOp.exec (w : World) : LifecycleOp → M Unit
  | setKeyUsingDatabaseKeyProvider db c => OpenPgTde.setKeyUsingDatabaseKeyProvider w db c
  | setKeyUsingGlobalKeyProvider db c => OpenPgTde.setKeyUsingGlobalKeyProvider w db c
  | setServerKeyUsingGlobalKeyProvider c => OpenPgTde.setServerKeyUsingGlobalKeyProvider w c
  | setDefaultKeyUsingGlobalKeyProvider c => OpenPgTde.setDefaultKeyUsingGlobalKeyProvider w c
  | deleteKey db => OpenPgTde.deleteKey w db
  | deleteDefaultKey superuser => OpenPgTde.deleteDefaultKey w superuser
  | getPrincipalKey scope => do let _ ← OpenPgTde.getPrincipalKey w scope
  | getPrincipalKeyNoDefault scope => do let _ ← OpenPgTde.getPrincipalKeyNoDefault w scope
  | createRelationKey db spcOid relNumber => do
    let _ ← smgrCreateKey w ⟨spcOid, db.oid, relNumber⟩
  | removeRelationKey db spcOid relNumber => smgrDeleteKey ⟨spcOid, db.oid, relNumber⟩
  | removeLeftoverKey db spcOid relNumber => smgrDeleteLeftoverKey ⟨spcOid, db.oid, relNumber⟩
  | environment kms cipher dataCipher databases => modify fun s =>
    { s with kms := kms, cipher := cipher, dataCipher := dataCipher, databases := databases.1 }

/-- A run: an operation that fails leaves what it has done so far. -/
def lifecycle (w : World) (ops : List LifecycleOp) (s : Server) : Server :=
  ops.foldl (fun s op => after (op.exec w) s) s

/-- A server on which no key has been set yet. -/
structure Server.Fresh (s : Server) : Prop where
  keyFiles : ∀ scope, s.keyFiles (.keys scope) = none
  walKeys : s.walKeys .walKeys = none
  cache : ∀ scope, s.cache scope = none
  providers : ProvidersOk s.providers
  databases : s.databases.Nodup

theorem Server.Fresh.consistent (h : s.Fresh) : Consistent w s := by
  refine ⟨fun scope => ?_, h.providers, h.databases⟩
  by_cases hg : scope = globalDataTdeOid
  · subst hg
    exact ScopeOk.of_wal_empty (.inl h.walKeys) (h.cache _)
  · exact ScopeOk.of_empty hg (.inl (h.keyFiles scope)) (h.cache scope)

/-! ### One operation -/

theorem smgrCreateKey_consistent (hs : Consistent w s) (rel : RelFileLocator)
    (hg : rel.dbOid ≠ globalDataTdeOid) (hd : rel.dbOid ≠ defaultDataTdeOid) :
    wp (smgrCreateKey w rel) (fun _ t => Consistent w t) (fun _ t => Consistent w t) s := by
  unfold smgrCreateKey
  simp only [wp_bind, wp_get]
  refine (generateInternalKey_spec _).mono (fun k t ht => ?_) fun _ t ht => ht.1.consistent hs
  refine (saveSmgrKey_consistent (ht.1.consistent hs) rel hg hd k true).mono (fun _ u hu => ?_)
    fun _ _ h => h.1
  obtain ⟨hu, -⟩ := hu
  refine (xlogInsert_spec _).mono (fun _ v hv => ?_) fun _ _ h => h.elim
  subst hv
  exact ⟨fun scope => (hu.scopes scope).frame (fun _ => rfl) (fun _ => rfl) (fun _ => rfl) rfl,
    hu.providers, hu.databases⟩

/-- An operation that is not on a relation is a sequence of steps, up to the surroundings. -/
theorem LifecycleOp.exec_steps (op : LifecycleOp) (hop : op.onRelation = false)
    (hs : Consistent w s) :
    KeySteps w s (after (op.exec w) s) ∨
      Consistent w (after (op.exec w) s) ∧
        (after (op.exec w) s).keyFiles = s.keyFiles ∧
        (after (op.exec w) s).providers = s.providers ∧
        (after (op.exec w) s).xlog = s.xlog := by
  have hlogged : ∀ {m : M Unit}, wp m (fun _ t => LoggedSteps w s t)
      (fun _ t => LoggedSteps w s t) s → KeySteps w s (after m s) := fun h => h.after.keySteps
  cases op with
  | setKeyUsingDatabaseKeyProvider db c =>
      exact .inl (hlogged (setPrincipalKeyInternal_spec hs
        (.inr ⟨rfl, db.ne_default, db.ne_global⟩) c))
  | setKeyUsingGlobalKeyProvider db c =>
      exact .inl (hlogged (setPrincipalKeyInternal_spec hs (.inl rfl) c))
  | setServerKeyUsingGlobalKeyProvider c =>
      exact .inl (hlogged (setPrincipalKeyInternal_spec hs (.inl rfl) c))
  | setDefaultKeyUsingGlobalKeyProvider c =>
      exact .inl (hlogged (setDefaultKeyUsingGlobalKeyProvider_spec hs c))
  | deleteKey db =>
      exact .inl (hlogged ((deleteKey_spec hs db).mono (fun _ _ h => h.1) fun _ _ h => h.1))
  | deleteDefaultKey superuser =>
      have h := (deleteDefaultKey_spec hs superuser (x := false) (fun h => by cases h)).after
      exact .inl h.1.1
  | getPrincipalKey scope =>
      refine .inl (wp.after ((wp_bind ..).2 ((getPrincipalKey_spec hs).mono (fun _ t ht => ?_)
        fun _ t ht => ?_)))
      · exact ht.1.steps
      · exact ht.1.steps
  | getPrincipalKeyNoDefault scope =>
      refine .inl (wp.after ((wp_bind ..).2 ((getPrincipalKeyNoDefault_spec
        (hs.scopes scope)).mono (fun _ t ht => ?_) fun _ t ht => ?_)))
      · exact ht.1.steps.keySteps
      · exact ht.1.steps.keySteps
  | environment kms cipher dataCipher databases =>
      refine .inr ⟨⟨fun scope => ?_, hs.providers, databases.2⟩, rfl, rfl, rfl⟩
      exact (hs.scopes scope).frame (fun _ => rfl) (fun _ => rfl) (fun _ => rfl) rfl
  | createRelationKey db spcOid relNumber => cases hop
  | removeRelationKey db spcOid relNumber => cases hop
  | removeLeftoverKey db spcOid relNumber => cases hop

theorem LifecycleOp.exec_consistent (op : LifecycleOp) (hs : Consistent w s) :
    Consistent w (after (op.exec w) s) := by
  cases hop : op.onRelation with
  | false =>
      obtain h | ⟨h, -⟩ := op.exec_steps hop hs
      · exact h.consistent hs
      · exact h
  | true =>
      cases op with
      | createRelationKey db spcOid relNumber =>
          refine wp.after ((wp_bind ..).2 ((smgrCreateKey_consistent hs _ db.ne_global
            db.ne_default).mono (fun _ t ht => ?_) fun _ t ht => ht))
          exact ht
      | removeRelationKey db spcOid relNumber =>
          exact ((freeKeyMapEntry_consistent hs _ db.ne_global db.ne_default).mono
            (fun _ _ h => h.1) fun _ _ h => h.1).after
      | removeLeftoverKey db spcOid relNumber =>
          refine wp.after ((wp_bind ..).2 ((freeKeyMapEntry_consistent hs
            ⟨spcOid, db.oid, relNumber⟩ db.ne_global db.ne_default).mono (fun _ t ht => ?_)
            fun _ _ h => h.1))
          obtain ⟨ht, -⟩ := ht
          refine (xlogInsert_spec _).mono (fun _ u hu => ?_) fun _ _ h => h.elim
          subst hu
          exact ⟨fun scope => (ht.scopes scope).frame (fun _ => rfl) (fun _ => rfl)
            (fun _ => rfl) rfl, ht.providers, ht.databases⟩
      | _ => cases hop

theorem LifecycleOp.exec_relationTable (op : LifecycleOp) (hop : op.onRelation = false)
    (hs : Consistent w s) (db : DatabaseId) :
    relationTable w (after (op.exec w) s) db.oid = relationTable w s db.oid := by
  obtain h | ⟨-, hk, hp, -⟩ := op.exec_steps hop hs
  · exact h.relationTable_eq db.ne_global
  · exact relationTable_congr (fun _ => by rw [hp]) (fun _ => by rw [hk])
      (fun hg => absurd hg db.ne_global) db.ne_global

/-- Every live entry in the key file of a scope decrypts under the key that the header of the file
names. -/
def FileDecrypts (w : World) (s : Server) (scope : Oid) : Prop :=
  ∀ f, s.keyFiles (.keys scope) = some f → f = .empty ∨
    ∃ info entries k, f = .current info entries ∧ namedKey w s.providers scope info = some k ∧
      ∀ e ∈ entries, e.type = .key → ∃ ik, e.unwrap w k.keyData = some ik

theorem Consistent.fileDecrypts {scope : Oid} (hs : Consistent w s)
    (hg : scope ≠ globalDataTdeOid) : FileDecrypts w s scope := by
  intro f hf
  cases hi : scopeInfo s scope with
  | none =>
      obtain h | h := file_of_scopeInfo_none hg hi
      · rw [hf] at h; cases h
      · rw [hf] at h
        exact .inl (Option.some.inj h)
  | some info =>
      obtain ⟨k, hk⟩ := (hs.scopes scope).header info hi
      have hpk := principalKeyOf_of_headerFor hi hk
      obtain ⟨info', entries, hf', hh, hr⟩ := (hs.scopes scope).exists_current hg hpk
      rw [hf] at hf'
      refine .inr ⟨info', entries, k, Option.some.inj hf', hh.named, fun e he ht => ?_⟩
      exact Option.isSome_iff_exists.1 (hr e he ht)

/-! ### Runs -/

theorem lifecycle_consistent (ops : List LifecycleOp) (hs : Consistent w s) :
    Consistent w (lifecycle w ops s) := by
  induction ops generalizing s with
  | nil => exact hs
  | cons op ops ih => exact ih (op.exec_consistent hs)

theorem sampleServer_fresh : sampleServer.Fresh where
  keyFiles _ := rfl
  walKeys := rfl
  cache _ := rfl
  providers := by
    refine ⟨fun oid => ?_, fun r hr => ?_, fun oid hne r hr => ?_⟩
    · by_cases h : oid = globalDataTdeOid <;> simp [sampleServer, h]
    · have : r = sampleProvider := by simpa [sampleServer] using hr
      subst this
      decide
    · simp [sampleServer, hne] at hr
  databases := by decide

/-- In every state of every run: an operation on principal keys changes no relation key; every
file is empty or its header names a key that exists and verifies, and every live entry decrypts
under this key; and what the cache holds for a scope is the key named by its header. -/
theorem principal_key_lifecycle (w : World) (s : Server) (hs : s.Fresh) (ops : List LifecycleOp) :
    (∀ op : LifecycleOp, op.onRelation = false → ∀ db : DatabaseId,
      relationKeys w (after (op.exec w) (lifecycle w ops s)) db.oid =
        relationKeys w (lifecycle w ops s) db.oid) ∧
    (∀ scope, scope ≠ globalDataTdeOid → ∀ f,
      (lifecycle w ops s).keyFiles (.keys scope) = some f → f = .empty ∨
        ∃ info entries k, f = .current info entries ∧
          namedKey w (lifecycle w ops s).providers scope info = some k ∧
          ∀ e ∈ entries, e.type = .key → ∃ ik, e.unwrap w k.keyData = some ik) ∧
    (∀ scope k, (lifecycle w ops s).cache scope = some k →
      ∃ info, scopeInfo (lifecycle w ops s) scope = some info ∧
        namedKey w (lifecycle w ops s).providers scope info = some k) := by
  have hc : Consistent w (lifecycle w ops s) := lifecycle_consistent ops hs.consistent
  refine ⟨fun op hop db => ?_, fun scope hg => hc.fileDecrypts hg, fun scope k hk => ?_⟩
  · funext rel
    rw [relationKeys, relationKeys, op.exec_relationTable hop hc db]
  · exact principalKeyOf_eq_some.1 ((hc.scopes scope).cached k hk)

/-- A default key, a relation key in a database that falls back on it, and a new default key. -/
def sampleLifecycle : List LifecycleOp :=
  [.setDefaultKeyUsingGlobalKeyProvider (sampleCall [65]),
    .createRelationKey sampleDatabase 1663 16384,
    .setDefaultKeyUsingGlobalKeyProvider (sampleCall [66])]

theorem principal_key_lifecycle_sample :
    sampleServer.Fresh ∧
    ∃ info, scopeInfo (lifecycle sampleWorld sampleLifecycle sampleServer) 5 = some info ∧
      namedKey sampleWorld (lifecycle sampleWorld sampleLifecycle sampleServer).providers 5 info =
        some ⟨⟨5, -1, ⟨0, 0⟩, [66]⟩, List.replicate 16 66⟩ :=
  ⟨sampleServer_fresh, (principal_key_lifecycle sampleWorld sampleServer sampleServer_fresh
    sampleLifecycle).2.2 5 _ (by decide +kernel)⟩

end OpenPgTde
