import Mathlib.Data.Int.Notation
import Mathlib.Data.List.Nodup
import OpenPgTde.Encryption
import OpenPgTde.Lib.Aead

/-!
Key providers and the keys they hold (`catalog/tde_keyring.c`, `keyring/keyring_api.c`).

A provider record says where principal keys are kept: a file, a KMIP server or an OpenBao server.
Each database has a file of such records and there is one more file for the global providers; the
sign of a provider's id tells which of the two a reference to it means. What stands behind a record
is outside the program. `World` fixes it: the authenticated cipher, and for every record and name
the key that is kept there. Keys in a keyring are never overwritten, so this is one function for a
whole run; whether a key is there yet, and whether the server answers, varies and is part of the
state of the server (`KmsReply`).
-/

namespace OpenPgTde

abbrev Oid := UInt32

/-- `GLOBAL_DATA_TDE_OID`: the scope of the server key, which protects the WAL keys. -/
def globalDataTdeOid : Oid := 1664

/-- `DEFAULT_DATA_TDE_OID`: the scope of the default key. -/
def defaultDataTdeOid : Oid := 1663

/-- The oid of a real database. The two magical oids are tablespace oids and no database has
them (`catalog/tde_global_space.h`). -/
@[ext] structure DatabaseId where
  oid : Oid
  ne_global : oid ≠ globalDataTdeOid
  ne_default : oid ≠ defaultDataTdeOid
  deriving DecidableEq

inductive ProviderType
  | unknown
  | file
  | kmip
  | openbao
  deriving DecidableEq, Repr

/-- A record of a provider file; the same data makes a `GenericKeyring` once it is loaded. A
deleted record stays in the file with the type `unknown`. -/
structure KeyringProviderRecord where
  providerId : ℤ
  providerName : List UInt8
  options : List UInt8
  providerType : ProviderType
  deriving DecidableEq, Repr

/-- A key as a keyring returns it. -/
structure KeyInfo where
  name : List UInt8
  data : List UInt8
  deriving DecidableEq, Repr

inductive KeyringReturnCode
  | invalidProvider
  | resourceNotAvailable
  | invalidResponse
  | invalidKey
  | dataCorrupted
  deriving DecidableEq, Repr

/-- What the server behind a record says about a name at some moment. -/
inductive KmsReply
  | stored
  | missing
  | failure (code : KeyringReturnCode)
  deriving DecidableEq, Repr

/-- What the program does not decide: the cipher that wraps keys and the keys kept outside. A key
may come back under another spelling of its name than it was asked for (`get_key_by_name` of the
file keyring ignores case), but then it is also found under that spelling. -/
structure World where
  aead : Lib.Aead
  vault : KeyringProviderRecord → List UInt8 → Option KeyInfo
  vault_name : ∀ {record name k}, vault record name = some k → vault record k.name = some k

/-! ### Looking up a provider -/

/-- `pg_tolower` on the ASCII letters. -/
def pgTolower (c : UInt8) : UInt8 := if 65 ≤ c ∧ c ≤ 90 then c + 32 else c

/-- `pg_strcasecmp(a, b) == 0`. -/
def pgStrcaseEq (a b : List UInt8) : Bool := a.map pgTolower = b.map pgTolower

/-- `scan_key_provider_file`: the live records that match, in file order. -/
def scanKeyProviderFile (isMatch : KeyringProviderRecord → Bool)
    (file : List KeyringProviderRecord) : List KeyringProviderRecord :=
  file.filter fun r => r.providerType ≠ .unknown && isMatch r

/-- The file `GetKeyProviderByID` reads: a negative id is that of a global provider. -/
def providerScope (providerId : ℤ) (dbOid : Oid) : Oid :=
  if providerId < 0 then globalDataTdeOid else dbOid

/-- `GetKeyProviderByID`. -/
def getKeyProviderByID (files : Oid → List KeyringProviderRecord) (providerId : ℤ) (dbOid : Oid) :
    Option KeyringProviderRecord :=
  (scanKeyProviderFile (fun r => r.providerId = providerId)
    (files (providerScope providerId dbOid))).head?

/-- The lookup of `GetKeyProviderByName`. -/
def getKeyProviderByName (files : Oid → List KeyringProviderRecord) (providerName : List UInt8)
    (dbOid : Oid) : Option KeyringProviderRecord :=
  (scanKeyProviderFile (fun r => pgStrcaseEq r.providerName providerName) (files dbOid)).head?

/-! ### Fetching a key -/

/-- `ValidateKey`, without the check against the configured cipher, which only warns. -/
def validateKey (k : KeyInfo) : Bool :=
  k.name ≠ [] && (k.data.length = 16 || k.data.length = 32)

/-- `KeyringGetKey`: an error code, or the key if there is one. -/
def keyringGetKey (w : World) (kms : KeyringProviderRecord → List UInt8 → KmsReply)
    (keyring : KeyringProviderRecord) (keyName : List UInt8) :
    Except KeyringReturnCode (Option KeyInfo) :=
  match kms keyring keyName with
  | .failure code => .error code
  | .missing => .ok none
  | .stored =>
    match w.vault keyring keyName with
    | none => .ok none
    | some k => if validateKey k then .ok (some k) else .error .invalidKey

/-! ### Facts about the lookups -/

section Facts

variable {w : World} {kms : KeyringProviderRecord → List UInt8 → KmsReply}
  {files : Oid → List KeyringProviderRecord} {r : KeyringProviderRecord} {k : KeyInfo}
  {id : ℤ} {db : Oid} {name : List UInt8}

/-- A key that is returned is the one that is kept, and it passed the validation. -/
theorem keyringGetKey_eq_some (h : keyringGetKey w kms r name = .ok (some k)) :
    w.vault r name = some k ∧ validateKey k = true := by
  unfold keyringGetKey at h
  split at h
  · cases h
  · cases h
  · split at h
    · cases h
    · next k' hk =>
        split at h
        · next hv =>
            cases h
            exact ⟨hk, hv⟩
        · cases h

theorem keyringGetKey_of_stored (hkms : kms r name = .stored) (hvault : w.vault r name = some k)
    (hvalid : validateKey k = true) : keyringGetKey w kms r name = .ok (some k) := by
  simp [keyringGetKey, hkms, hvault, hvalid]

theorem mem_of_getKeyProviderByName (h : getKeyProviderByName files name db = some r) :
    r ∈ files db ∧ r.providerType ≠ .unknown := by
  have hmem := List.mem_of_mem_head? (Option.mem_def.2 h)
  simp only [scanKeyProviderFile, List.mem_filter] at hmem
  exact ⟨hmem.1, by simpa using (Bool.and_eq_true_iff.1 hmem.2).1⟩

theorem getKeyProviderByID_id (h : getKeyProviderByID files id db = some r) :
    r.providerId = id := by
  have hmem := List.mem_of_mem_head? (Option.mem_def.2 h)
  simp only [scanKeyProviderFile, List.mem_filter, Bool.and_eq_true, decide_eq_true_eq] at hmem
  exact hmem.2.2

/-- In a file whose ids are pairwise distinct, looking up the id of a live record finds it. -/
theorem getKeyProviderByID_of_mem (hids : ((files (providerScope id db)).map (·.providerId)).Nodup)
    (hmem : r ∈ files (providerScope id db)) (hid : r.providerId = id)
    (htype : r.providerType ≠ .unknown) : getKeyProviderByID files id db = some r := by
  have huniq : ∀ r' ∈ scanKeyProviderFile (fun r => r.providerId = id)
      (files (providerScope id db)), r' = r := by
    intro r' hr'
    simp only [scanKeyProviderFile, List.mem_filter, Bool.and_eq_true, decide_eq_true_eq] at hr'
    exact List.inj_on_of_nodup_map hids hr'.1 hmem (hr'.2.2.trans hid.symm)
  have hin : r ∈ scanKeyProviderFile (fun r => r.providerId = id)
      (files (providerScope id db)) := by
    simp [scanKeyProviderFile, hmem, htype, hid]
  unfold getKeyProviderByID
  cases hl : scanKeyProviderFile (fun r => r.providerId = id) (files (providerScope id db)) with
  | nil => rw [hl] at hin; cases hin
  | cons a l => rw [List.head?_cons, huniq a (by rw [hl]; exact List.mem_cons_self)]

end Facts

end OpenPgTde
