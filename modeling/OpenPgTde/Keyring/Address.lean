import OpenPgTde.Keyring.OpenBao
import OpenPgTde.PrincipalKey.Operations

/-!
Where the keys of an external keyring are (`keyring/keyring_kmip_impl.c`, `keyring/keyring_openbao.c`).

A key is stored and found by its name. In KMIP the name is an attribute of the object, of at most 250
bytes. In OpenBao it is the end of a URL that has to fit into a buffer with the address of the server
and the mount path in front of it. A longer name loses its end in both, and neither the checks of a
name nor the validation of a provider look for that.
-/

namespace OpenPgTde

/-! ### Requests -/

structure KmipKeyring where
  kmipHost : List UInt8
  kmipPort : List UInt8
  kmipCaPath : List UInt8
  kmipCertPath : List UInt8
  kmipKeyPath : List UInt8

inductive KmipAttribute
  | cryptographicAlgorithm
  | cryptographicLength (bits : ℕ)
  | cryptographicUsageMask
  | objectType
  | name (text : List UInt8)
  deriving DecidableEq, Repr

/-- What is outside: whether a KMIP server can be connected to, the string length of its library, and
what is outside of OpenBao. -/
structure Services where
  kmipSslConnect : KmipKeyring → Bool
  kmipStrnlenS : List UInt8 → ℕ → ℕ
  openbao : OpenBao.Outside

/-- The library takes the length of a string as far as it is told. -/
def Services.LengthOk (services : Services) : Prop :=
  ∀ s max, services.kmipStrnlenS s max = min s.length max

/-- The name attribute of both requests. -/
def kmipName (services : Services) (keyName : List UInt8) : List UInt8 :=
  keyName.take (services.kmipStrnlenS keyName 250)

def openPgTdeKmipSetByName (services : Services) (keyName key : List UInt8) : List KmipAttribute :=
  [.cryptographicAlgorithm, .cryptographicLength (key.length * 8), .cryptographicUsageMask,
    .name (kmipName services keyName)]

def openPgTdeKmipLocateKey (services : Services) (keyName : List UInt8) : List KmipAttribute :=
  [.objectType, .name (kmipName services keyName)]

inductive ExternalKeyring
  | kmip (keyring : KmipKeyring)
  | openbao (keyring : OpenBao.OpenBaoKeyring)

/-- `keyring_validate` raises no error. -/
def ExternalKeyring.Accepted (services : Services) : ExternalKeyring → Prop
  | .kmip keyring => services.kmipSslConnect keyring = true
  | .openbao keyring => OpenBao.validate services.openbao keyring = .ok ()

/-- What a request for the key of this name asks for. -/
def ExternalKeyring.address (services : Services) (keyName : List UInt8) :
    ExternalKeyring → List UInt8
  | .kmip _ => kmipName services keyName
  | .openbao keyring => OpenBao.getKeyringOpenbaoUrl keyring keyName OpenBao.openbaoUrlMaxLen

/-- The checks at the start of `open_pg_tde_create_principal_key_internal`, the same as when a key is
set. -/
def checkCreateKeyCall (providerOid : Oid) (c : SetKeyCall) :
    Except TdeError (List UInt8 × List UInt8) :=
  checkSetKeyCall providerOid c

/-- A key of this name can be created. -/
def KeyNameOk (keyName : List UInt8) : Prop :=
  ∃ providerOid c providerName, checkCreateKeyCall providerOid c = .ok (keyName, providerName)

theorem keyNameOk_iff {keyName : List UInt8} :
    KeyNameOk keyName ↔ 0 < keyName.length ∧ keyName.length < principalKeyNameLen := by
  constructor
  · rintro ⟨providerOid, c, providerName, hcheck⟩
    unfold checkCreateKeyCall checkSetKeyCall at hcheck
    repeat' split at hcheck
    all_goals simp only [reduceCtorEq, Except.ok.injEq, Prod.mk.injEq] at hcheck
    obtain ⟨rfl, -⟩ := hcheck
    omega
  · rintro ⟨hpos, hlt⟩
    refine ⟨0, sampleCall keyName, [112], ?_⟩
    have hne : keyName.length ≠ 0 := by omega
    have hle : ¬ principalKeyNameLen ≤ keyName.length := by omega
    simp only [checkCreateKeyCall, checkSetKeyCall, sampleCall, hne, hle, if_false]
    rfl

/-! ### How much of a name is in an address -/

/-- The bytes of a name there is room for. -/
def ExternalKeyring.addressRoom : ExternalKeyring → ℕ
  | .kmip _ => 250
  | .openbao keyring =>
    OpenBao.openbaoUrlMaxLen - 1 - (keyring.openbaoUrl.length + keyring.openbaoMountPath.length + 10)

theorem take_append_eq_iff {p a b : List UInt8} {n : ℕ} :
    (p ++ a).take n = (p ++ b).take n ↔ a.take (n - p.length) = b.take (n - p.length) := by
  rw [List.take_append, List.take_append, List.append_cancel_left_eq]

theorem take_min_length (a : List UInt8) (n : ℕ) : a.take (min a.length n) = a.take n := by
  obtain hle | hlt := Nat.le_total a.length n
  · rw [Nat.min_eq_left hle, List.take_length, List.take_of_length_le hle]
  · rw [Nat.min_eq_right hlt]

/-- Two names have one address if they agree as far as there is room. -/
theorem address_eq_iff {services : Services} (hlength : services.LengthOk)
    (keyring : ExternalKeyring) (a b : List UInt8) :
    keyring.address services a = keyring.address services b ↔
      a.take keyring.addressRoom = b.take keyring.addressRoom := by
  cases keyring with
  | kmip keyring =>
      simp only [ExternalKeyring.address, kmipName, hlength a, hlength b, take_min_length]
      rfl
  | openbao keyring =>
      have hroom : ∀ keyName, (ExternalKeyring.openbao keyring).address services keyName =
          ((keyring.openbaoUrl ++ ascii "/v1/" ++ keyring.openbaoMountPath ++ ascii "/data/") ++
            keyName).take 511 := fun _ => rfl
      have hlen : (keyring.openbaoUrl ++ ascii "/v1/" ++ keyring.openbaoMountPath ++
          ascii "/data/").length =
          keyring.openbaoUrl.length + keyring.openbaoMountPath.length + 10 := by
        have hv1 : (ascii "/v1/").length = 4 := by decide
        have hdata : (ascii "/data/").length = 6 := by decide
        simp only [List.length_append, hv1, hdata]
        omega
      rw [hroom, hroom, take_append_eq_iff, hlen]
      rfl

theorem length_metadataUrl (keyring : OpenBao.OpenBaoKeyring) :
    (keyring.openbaoUrl ++ ascii "/v1/" ++ keyring.openbaoMountPath ++
      ascii "/metadata/?list=true").length =
      keyring.openbaoUrl.length + keyring.openbaoMountPath.length + 24 := by
  have hv1 : (ascii "/v1/").length = 4 := by decide
  have hdata : (ascii "/metadata/?list=true").length = 20 := by decide
  simp only [List.length_append, hv1, hdata]
  omega

/-- The validation of an OpenBao provider leaves room for some bytes of a name. -/
theorem length_of_validate {o : OpenBao.Outside} {keyring : OpenBao.OpenBaoKeyring}
    (h : OpenBao.validate o keyring = .ok ()) :
    keyring.openbaoUrl.length + keyring.openbaoMountPath.length + 24 < OpenBao.openbaoUrlMaxLen := by
  by_contra hle
  have hlong : OpenBao.openbaoUrlMaxLen ≤ (keyring.openbaoUrl ++ ascii "/v1/" ++
      keyring.openbaoMountPath ++ ascii "/metadata/?list=true").length := by
    rw [length_metadataUrl]
    omega
  have hlisting : OpenBao.validateListing o keyring = .error .metadataUrlTooLong := if_pos hlong
  rw [OpenBao.validate, hlisting] at h
  cases hmount : OpenBao.validateMount o keyring with
  | error e =>
      rw [hmount] at h
      cases h
  | ok =>
      rw [hmount] at h
      cases h

/-- A provider with so short URLs is accepted when its server knows nothing yet. -/
theorem validate_notFound {o : OpenBao.Outside} {keyring : OpenBao.OpenBaoKeyring}
    (hserver : ∀ url, o.curlPerform url none = some ⟨404, []⟩)
    (hlen : keyring.openbaoUrl.length + keyring.openbaoMountPath.length + 24 <
      OpenBao.openbaoUrlMaxLen) : OpenBao.validate o keyring = .ok () := by
  have hshort : ¬ OpenBao.openbaoUrlMaxLen ≤ (keyring.openbaoUrl ++ ascii "/v1/sys/mounts/" ++
      keyring.openbaoMountPath).length := by
    have hmounts : (ascii "/v1/sys/mounts/").length = 15 := by decide
    simp only [List.length_append, hmounts]
    omega
  have hshort' : ¬ OpenBao.openbaoUrlMaxLen ≤ (keyring.openbaoUrl ++ ascii "/v1/" ++
      keyring.openbaoMountPath ++ ascii "/metadata/?list=true").length := by
    rw [length_metadataUrl]
    omega
  have hmount : OpenBao.validateMount o keyring = .ok () := by
    refine (if_neg hshort).trans ?_
    rw [hserver]
    rfl
  have hlisting : OpenBao.validateListing o keyring = .ok () := by
    refine (if_neg hshort').trans ?_
    rw [hserver]
    rfl
  rw [OpenBao.validate, hmount, hlisting]
  rfl

/-- A validated provider has room for some bytes of a name, but not always for all of them. -/
theorem addressRoom_of_accepted {services : Services} {keyring : ExternalKeyring}
    (h : keyring.Accepted services) : 14 ≤ keyring.addressRoom := by
  cases keyring with
  | kmip keyring => simp [ExternalKeyring.addressRoom]
  | openbao keyring =>
      have hlen := length_of_validate h
      simp only [ExternalKeyring.addressRoom, OpenBao.openbaoUrlMaxLen] at hlen ⊢
      omega

/-- A name of the full length with this last byte. -/
def longName (c : UInt8) : List UInt8 := List.replicate 254 97 ++ [c]

theorem length_longName (c : UInt8) : (longName c).length = 255 := by
  rw [longName, List.length_append, List.length_replicate]
  rfl

theorem longName_ok (c : UInt8) : KeyNameOk (longName c) := by
  rw [keyNameOk_iff, length_longName]
  decide

theorem longName_ne {c d : UInt8} (h : c ≠ d) : longName c ≠ longName d := fun heq =>
  h (List.singleton_inj.1 (List.append_cancel_left heq))

/-- Without room for its last byte a name has the address of another. -/
theorem address_longName {services : Services} (hlength : services.LengthOk)
    {keyring : ExternalKeyring} (hroom : keyring.addressRoom < principalKeyNameLen - 1)
    (c d : UInt8) :
    keyring.address services (longName c) = keyring.address services (longName d) := by
  rw [address_eq_iff hlength, longName, longName]
  have hle : keyring.addressRoom ≤ (List.replicate 254 (97 : UInt8)).length := by
    rw [List.length_replicate]
    exact Nat.le_of_lt_succ hroom
  rw [List.take_append_of_le_length hle, List.take_append_of_le_length hle]

/-- With room for a whole name, and only then, all names have addresses of their own. -/
theorem addresses_distinct_iff {services : Services} (hlength : services.LengthOk)
    (keyring : ExternalKeyring) :
    (∀ a b, KeyNameOk a → KeyNameOk b → a ≠ b →
      keyring.address services a ≠ keyring.address services b) ↔
      principalKeyNameLen - 1 ≤ keyring.addressRoom := by
  constructor
  · intro hall
    by_contra hroom
    exact hall _ _ (longName_ok 98) (longName_ok 99) (longName_ne (by decide))
      (address_longName hlength (by omega) 98 99)
  · intro hroom a b ha hb hne heq
    have hwhole : ∀ {a}, KeyNameOk a → a.take keyring.addressRoom = a := by
      intro a ha
      have hlt := (keyNameOk_iff.1 ha).2
      exact List.take_of_length_le (by omega)
    rw [address_eq_iff hlength, hwhole ha, hwhole hb] at heq
    exact hne heq

/-- Two names that pass the checks have different addresses at a validated provider if they differ within
the bytes there is room for, and only then. There is room for at least 14 bytes, and for all names a
provider tells them apart just if there is room for the longest. -/
theorem key_addresses_distinct_iff {services : Services} (hlength : services.LengthOk)
    {keyring : ExternalKeyring} (haccepted : keyring.Accepted services) :
    14 ≤ keyring.addressRoom ∧
    (∀ a b, KeyNameOk a → KeyNameOk b → a ≠ b →
      (keyring.address services a ≠ keyring.address services b ↔
        a.take keyring.addressRoom ≠ b.take keyring.addressRoom)) ∧
    ((∀ a b, KeyNameOk a → KeyNameOk b → a ≠ b →
      keyring.address services a ≠ keyring.address services b) ↔
        principalKeyNameLen - 1 ≤ keyring.addressRoom) :=
  ⟨addressRoom_of_accepted haccepted, fun a b _ _ _ => (address_eq_iff hlength keyring a b).not,
    addresses_distinct_iff hlength keyring⟩

/-- Services where any KMIP server answers and OpenBao knows nothing. -/
def sampleServices : Services where
  kmipSslConnect _ := true
  kmipStrnlenS s max := min s.length max
  openbao := ⟨fun _ _ => some ⟨404, []⟩, fun _ => none, id, some⟩

def sampleOpenbao : OpenBao.OpenBaoKeyring where
  providerName := ascii "bao"
  openbaoUrl := ascii "https://" ++ List.replicate 290 97
  openbaoMountPath := ascii "kv"

theorem length_sampleOpenbao :
    sampleOpenbao.openbaoUrl.length + sampleOpenbao.openbaoMountPath.length = 300 := by
  have hhttps : (ascii "https://").length = 8 := by decide
  have hkv : (ascii "kv").length = 2 := by decide
  simp only [sampleOpenbao, List.length_append, List.length_replicate, hhttps, hkv]

theorem sampleOpenbao_accepted : (ExternalKeyring.openbao sampleOpenbao).Accepted sampleServices :=
  validate_notFound (fun _ => rfl) (by rw [length_sampleOpenbao]; decide)

theorem sampleServices_lengthOk : sampleServices.LengthOk := fun _ _ => rfl

theorem key_addresses_distinct_sample :
    (ExternalKeyring.openbao sampleOpenbao).Accepted sampleServices ∧
    14 ≤ (ExternalKeyring.openbao sampleOpenbao).addressRoom :=
  ⟨sampleOpenbao_accepted,
    (key_addresses_distinct_iff sampleServices_lengthOk sampleOpenbao_accepted).1⟩

def sampleKmip : KmipKeyring := ⟨ascii "localhost", ascii "5696", [], [], []⟩

/-- Names that share an address, at a KMIP server and at an OpenBao server with a long URL. -/
theorem key_addresses_collide :
    KeyNameOk (longName 98) ∧ KeyNameOk (longName 99) ∧ longName 98 ≠ longName 99 ∧
    (ExternalKeyring.kmip sampleKmip).Accepted sampleServices ∧
    (ExternalKeyring.kmip sampleKmip).address sampleServices (longName 98) =
      (ExternalKeyring.kmip sampleKmip).address sampleServices (longName 99) ∧
    (ExternalKeyring.openbao sampleOpenbao).Accepted sampleServices ∧
    (ExternalKeyring.openbao sampleOpenbao).address sampleServices (longName 98) =
      (ExternalKeyring.openbao sampleOpenbao).address sampleServices (longName 99) := by
  have hroom : (ExternalKeyring.openbao sampleOpenbao).addressRoom < principalKeyNameLen - 1 := by
    simp only [ExternalKeyring.addressRoom, length_sampleOpenbao]
    decide
  exact ⟨longName_ok 98, longName_ok 99, longName_ne (by decide), rfl,
    address_longName sampleServices_lengthOk (by decide) 98 99, sampleOpenbao_accepted,
    address_longName sampleServices_lengthOk hroom 98 99⟩

end OpenPgTde
