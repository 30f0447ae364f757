import OpenPgTde.Keyring
import OpenPgTde.Server
import OpenPgTde.Lib.Records

/-!
The file keyring (`keyring/keyring_file.c`).

A keyring file is a sequence of `KeyInfo` structures. A lookup reads one after the other until a name
matches, ignoring case; a read that gets a part of a structure only is reported as corruption. A key
is stored at the end of the file, wherever that is, and the lookup that precedes it is asked for a key
only: whether it met corruption is not looked at.

Nothing in the file is ever changed, so a key that a lookup finds is found for ever. This is what
allows the rest of the development to take the keys behind a provider as one function for a whole run
(`World`).
-/

namespace OpenPgTde

open Lib.Splice Lib.Records

/-! ### Names and records -/

/-- `pg_strncasecmp(a, b, n) == 0`; a text ends with a zero byte. -/
def pgStrncaseEq : ℕ → List UInt8 → List UInt8 → Bool
  | 0, _, _ => true
  | n + 1, a, b =>
    pgTolower (a.headD 0) = pgTolower (b.headD 0) &&
      (a.headD 0 = 0 || pgStrncaseEq n a.tail b.tail)

theorem pgStrncaseEq_self (n : ℕ) (a : List UInt8) : pgStrncaseEq n a a = true := by
  induction n generalizing a with
  | zero => rfl
  | succ n ih => simp [pgStrncaseEq, ih]

/-- `MAX_KEY_DATA_SIZE`. -/
def maxKeyDataSize : ℕ := 32

/-- `sizeof(KeyInfo)`. -/
def keyInfoLen : ℕ := principalKeyNameLen + maxKeyDataSize + 4

/-- A `KeyInfo` as it lies in memory and in the file: the arrays with all their bytes, and how many
bytes of `data` are the key. -/
structure RawKeyInfo where
  name : List UInt8
  data : List UInt8
  len : ℕ
  deriving DecidableEq

namespace RawKeyInfo

/-- The fields have the sizes of the structure's. -/
structure Fits (k : RawKeyInfo) : Prop where
  name : k.name.length = principalKeyNameLen
  data : k.data.length = maxKeyDataSize
  len : k.len < 2 ^ 32

def bytes (k : RawKeyInfo) : List UInt8 := k.name ++ k.data ++ leBytes 4 k.len

def ofBytes (b : List UInt8) : RawKeyInfo where
  name := slice b 0 principalKeyNameLen
  data := slice b principalKeyNameLen maxKeyDataSize
  len := leValue (slice b (principalKeyNameLen + maxKeyDataSize) 4)

variable {k : RawKeyInfo}

theorem Fits.length_bytes (h : k.Fits) : k.bytes.length = keyInfoLen := by
  simp [bytes, h.name, h.data, keyInfoLen, Nat.add_assoc]

theorem Fits.ofBytes_bytes (h : k.Fits) : ofBytes k.bytes = k := by
  have hname : slice k.bytes 0 principalKeyNameLen = k.name := by
    simp [slice, bytes, ← h.name]
  have hdata : slice k.bytes principalKeyNameLen maxKeyDataSize = k.data := by
    simp [slice, bytes, ← h.name, ← h.data]
  have hlen : slice k.bytes (principalKeyNameLen + maxKeyDataSize) 4 = leBytes 4 k.len := by
    simp [slice, bytes, ← h.name, ← h.data, List.take_of_length_le]
  have hvalue : leValue (leBytes 4 k.len) = k.len :=
    (leValue_leBytes 4 k.len).trans (Nat.mod_eq_of_lt h.len)
  rw [ofBytes, hname, hdata, hlen, hvalue]

end RawKeyInfo

/-- `KeyringGenerateNewKey`, for these random bytes. -/
def keyringGenerateNewKey (keyName data : List UInt8) : RawKeyInfo where
  name := padTo principalKeyNameLen (keyName.take (principalKeyNameLen - 1))
  data := padTo maxKeyDataSize data
  len := data.length

theorem keyringGenerateNewKey_fits (keyName : List UInt8) {data : List UInt8}
    (hdata : data.length ≤ maxKeyDataSize) : (keyringGenerateNewKey keyName data).Fits where
  name := by
    refine length_padTo ?_
    rw [List.length_take]
    omega
  data := length_padTo hdata
  len := by
    unfold maxKeyDataSize at hdata
    simp only [keyringGenerateNewKey]
    omega

/-! ### The routines -/

/-- The loop of `get_key_by_name` from `currPos` on, for so many reads. -/
def getKeyLoop (keyName file : List UInt8) :
    ℕ → ℕ → Except KeyringReturnCode (Option RawKeyInfo)
  | 0, _ => .ok none
  | reads + 1, currPos =>
    let key := slice file currPos keyInfoLen
    if key.length = 0 then .ok none
    else if key.length ≠ keyInfoLen then .error .dataCorrupted
    else if pgStrncaseEq principalKeyNameLen (RawKeyInfo.ofBytes key).name keyName then
      .ok (some (RawKeyInfo.ofBytes key))
    else getKeyLoop keyName file reads (currPos + key.length)

/-- `get_key_by_name`, where `none` is a file that is not there. The last read gets less than a whole
structure. -/
def getKeyByName (file : Option (List UInt8)) (keyName : List UInt8) :
    Except KeyringReturnCode (Option RawKeyInfo) :=
  match file with
  | none => .ok none
  | some file => getKeyLoop keyName file (file.length / keyInfoLen + 1) 0

/-- A call of `set_key_by_name`: the key, and after how many bytes of it an error stops the call, if
one does. -/
structure StoreAttempt where
  key : RawKeyInfo
  cut : Option ℕ

/-- `set_key_by_name`: the file, and whether the call reports success. -/
def setKeyByName (file : Option (List UInt8)) (a : StoreAttempt) : Option (List UInt8) × Bool :=
  match getKeyByName file a.key.name with
  | .ok (some _) => (file, false)
  | _ =>
    match a.cut with
    | none => (some (file.getD [] ++ a.key.bytes), true)
    | some n => (some (file.getD [] ++ a.key.bytes.take n), false)

/-- The file after these attempts. -/
def storeAll (file : Option (List UInt8)) (attempts : List StoreAttempt) : Option (List UInt8) :=
  attempts.foldl (fun file a => (setKeyByName file a).1) file

/-! ### Lookups -/

section Lookups

variable {file more keyName : List UInt8} {k : RawKeyInfo}

/-- What the loop finds is the first match among the whole records. -/
theorem getKeyLoop_eq (keyName file : List UInt8) (reads i : ℕ)
    (h : i + reads = file.length / keyInfoLen + 1) (hreads : 0 < reads) :
    getKeyLoop keyName file reads (i * keyInfoLen) =
      match (((records keyInfoLen file).drop i).map RawKeyInfo.ofBytes).find?
        fun k => pgStrncaseEq principalKeyNameLen k.name keyName with
      | some k => .ok (some k)
      | none => if file.length % keyInfoLen = 0 then .ok none else .error .dataCorrupted := by
  have hpos : 0 < keyInfoLen := by decide
  have hsum := Nat.div_add_mod file.length keyInfoLen
  have hmod := Nat.mod_lt file.length hpos
  rw [Nat.mul_comm] at hsum
  induction reads generalizing i with
  | zero => omega
  | succ reads ih =>
      rw [getKeyLoop]
      rcases Nat.lt_or_ge i (file.length / keyInfoLen) with hi | hi
      · have hplace : (i + 1) * keyInfoLen ≤ file.length / keyInfoLen * keyInfoLen :=
          Nat.mul_le_mul_right keyInfoLen hi
        rw [Nat.succ_mul] at hplace
        have hlen : (slice file (i * keyInfoLen) keyInfoLen).length = keyInfoLen := by
          rw [length_slice]
          omega
        have hdrop : (records keyInfoLen file).drop i =
            slice file (i * keyInfoLen) keyInfoLen :: (records keyInfoLen file).drop (i + 1) := by
          rw [List.drop_eq_getElem_cons (by simpa [records] using hi)]
          simp [records]
        have hrest := ih (i + 1) (by omega) (by omega)
        rw [Nat.succ_mul] at hrest
        simp only [hlen, hdrop, List.map_cons, List.find?_cons, hrest]
        rw [if_neg (by omega), if_neg (by simp)]
        split
        · rename_i hmatch
          rw [hmatch]
        · rename_i hmatch
          rw [Bool.not_eq_true] at hmatch
          rw [hmatch]
      · have hend : i = file.length / keyInfoLen := by omega
        have hnone : (records keyInfoLen file).drop i = [] :=
          List.drop_eq_nil_of_le (by simpa [records] using hi)
        have hlen : (slice file (i * keyInfoLen) keyInfoLen).length = file.length % keyInfoLen := by
          rw [length_slice, hend]
          omega
        simp only [hlen, hnone, List.map_nil, List.find?_nil]
        split
        · rfl
        · rw [if_pos (by omega)]

theorem getKeyByName_eq (keyName file : List UInt8) :
    getKeyByName (some file) keyName =
      match ((records keyInfoLen file).map RawKeyInfo.ofBytes).find?
        fun k => pgStrncaseEq principalKeyNameLen k.name keyName with
      | some k => .ok (some k)
      | none => if file.length % keyInfoLen = 0 then .ok none else .error .dataCorrupted := by
  have h := getKeyLoop_eq keyName file (file.length / keyInfoLen + 1) 0
    (Nat.zero_add _) (Nat.succ_pos _)
  rwa [Nat.zero_mul, List.drop_zero] at h

theorem getKeyByName_eq_some : getKeyByName (some file) keyName = .ok (some k) ↔
    ((records keyInfoLen file).map RawKeyInfo.ofBytes).find?
      (fun k => pgStrncaseEq principalKeyNameLen k.name keyName) = some k := by
  rw [getKeyByName_eq]
  split
  · rename_i hfind
    rw [hfind]
    simp
  · rename_i hfind
    rw [hfind]
    split <;> simp

/-- A key that is found is found for ever, whatever is written behind it. -/
theorem getKeyByName_append (h : getKeyByName (some file) keyName = .ok (some k)) :
    getKeyByName (some (file ++ more)) keyName = .ok (some k) := by
  rw [getKeyByName_eq_some] at h ⊢
  obtain ⟨rest, hrest⟩ := records_append (n := keyInfoLen) file more
  rw [hrest, List.map_append, List.find?_append, h, Option.some_or]

/-- A key that is written behind whole records is found unless another one is. -/
theorem getKeyByName_append_bytes (hk : k.Fits) (hfile : keyInfoLen ∣ file.length)
    (hnew : ∀ k', getKeyByName (some file) k.name ≠ .ok (some k')) :
    getKeyByName (some (file ++ k.bytes)) k.name = .ok (some k) := by
  have hnone : ((records keyInfoLen file).map RawKeyInfo.ofBytes).find?
      (fun k' => pgStrncaseEq principalKeyNameLen k'.name k.name) = none := by
    rw [Option.eq_none_iff_forall_ne_some]
    intro k' hk'
    exact hnew k' (getKeyByName_eq_some.2 hk')
  rw [getKeyByName_eq_some, records_append_of_dvd hfile hk.length_bytes (by decide),
    List.map_append, List.find?_append, hnone, Option.none_or, List.map_singleton,
    hk.ofBytes_bytes, List.find?_singleton, pgStrncaseEq_self]
  rfl

end Lookups

/-! ### Attempts -/

section Attempts

variable {file : Option (List UInt8)} {a : StoreAttempt} {keyName : List UInt8} {k : RawKeyInfo}

theorem storeAll_cons (file : Option (List UInt8)) (a : StoreAttempt)
    (attempts : List StoreAttempt) :
    storeAll file (a :: attempts) = storeAll (setKeyByName file a).1 attempts := rfl

theorem storeAll_append (file : Option (List UInt8)) (before after : List StoreAttempt) :
    storeAll file (before ++ after) = storeAll (storeAll file before) after :=
  List.foldl_append

/-- An attempt leaves the file alone or writes behind it. -/
theorem setKeyByName_appends (file : Option (List UInt8)) (a : StoreAttempt) :
    (setKeyByName file a).1 = file ∨ ∃ more, (setKeyByName file a).1 = some (file.getD [] ++ more) := by
  unfold setKeyByName
  split
  · exact .inl rfl
  · split <;> exact .inr ⟨_, rfl⟩

/-- What a success means: no key of that name was found, and all bytes were written. -/
theorem setKeyByName_success (h : (setKeyByName file a).2 = true) :
    a.cut = none ∧ (∀ k, getKeyByName file a.key.name ≠ .ok (some k)) ∧
      (setKeyByName file a).1 = some (file.getD [] ++ a.key.bytes) := by
  unfold setKeyByName at h ⊢
  split at h
  · cases h
  · rename_i hnew
    cases hcut : a.cut with
    | none => exact ⟨rfl, hnew, rfl⟩
    | some n =>
        rw [hcut] at h
        cases h

theorem getKeyByName_setKeyByName (h : getKeyByName file keyName = .ok (some k))
    (a : StoreAttempt) : getKeyByName (setKeyByName file a).1 keyName = .ok (some k) := by
  obtain hsame | ⟨more, hmore⟩ := setKeyByName_appends file a
  · rw [hsame]
    exact h
  · rw [hmore]
    cases file with
    | none => cases h
    | some file => exact getKeyByName_append h

/-- The run lemma: what a lookup finds it finds after any further attempts. -/
theorem getKeyByName_storeAll (h : getKeyByName file keyName = .ok (some k))
    (attempts : List StoreAttempt) :
    getKeyByName (storeAll file attempts) keyName = .ok (some k) := by
  induction attempts generalizing file with
  | nil => exact h
  | cons a attempts ih => exact ih (getKeyByName_setKeyByName h a)

/-- The file is a sequence of whole records, or the key is not going to be stored in it. -/
def StoreAttempt.Sound (file : Option (List UInt8)) (a : StoreAttempt) : Prop :=
  a.cut = none → (∀ k, getKeyByName file a.key.name ≠ .ok (some k)) →
    keyInfoLen ∣ (file.getD []).length

/-- The step lemma. -/
theorem StoreAttempt.Sound.retrievable (hsound : a.Sound file) (ha : a.key.Fits)
    (h : (setKeyByName file a).2 = true) :
    getKeyByName (setKeyByName file a).1 a.key.name = .ok (some a.key) := by
  obtain ⟨hcut, hnew, hfile⟩ := setKeyByName_success h
  rw [hfile]
  have hdvd := hsound hcut hnew
  cases file with
  | none => exact getKeyByName_append_bytes ha (Nat.dvd_zero _) fun k => nofun
  | some file => exact getKeyByName_append_bytes ha hdvd hnew

/-- Whatever a store reported as a success, the lookup returns in every later state. -/
def StoresDurable (file : Option (List UInt8)) (attempts : List StoreAttempt) : Prop :=
  ∀ before a later rest, attempts = before ++ a :: (later ++ rest) →
    (setKeyByName (storeAll file before) a).2 = true →
    getKeyByName (storeAll file (before ++ a :: later)) a.key.name = .ok (some a.key)

/-- In every run in which a key is only written behind whole records, a store that reports success is
durable. -/
theorem stores_durable (file : Option (List UInt8)) (attempts : List StoreAttempt)
    (hfits : ∀ a ∈ attempts, a.key.Fits)
    (hsound : ∀ before a rest, attempts = before ++ a :: rest → a.Sound (storeAll file before)) :
    StoresDurable file attempts := by
  intro before a later rest hrun hok
  have ha : a.key.Fits := hfits a (by simp [hrun])
  rw [storeAll_append, storeAll_cons]
  exact getKeyByName_storeAll ((hsound before a (later ++ rest) hrun).retrievable ha hok) later

end Attempts

/-! ### A key that is reported as stored and cannot be read -/

/-- The first byte of one key is written, then the call stops; the next call stores another key. -/
def sampleStores : List StoreAttempt :=
  [⟨keyringGenerateNewKey [65] (List.replicate 16 1), some 1⟩,
    ⟨keyringGenerateNewKey [66] (List.replicate 16 2), none⟩]

theorem stores_durable_second_only : StoresDurable none (sampleStores.drop 1) :=
  stores_durable none (sampleStores.drop 1)
    (fun a ha => by
      rw [List.mem_singleton.1 ha]
      exact keyringGenerateNewKey_fits [66] (by decide))
    (fun before a rest hrun => by
      have hbefore : before = [] := by
        have hlen := congrArg List.length hrun
        simp [sampleStores] at hlen
        exact List.length_eq_zero_iff.1 (by omega)
      rw [hbefore]
      exact fun _ _ => Nat.dvd_zero _)

theorem stores_not_durable :
    (∀ a ∈ sampleStores, a.key.Fits) ∧ ¬StoresDurable none sampleStores := by
  refine ⟨fun a ha => ?_, fun h => ?_⟩
  · obtain rfl | ha := List.mem_cons.1 ha
    · exact keyringGenerateNewKey_fits [65] (by decide)
    · rw [List.mem_singleton.1 ha]
      exact keyringGenerateNewKey_fits [66] (by decide)
  · have hread := h (sampleStores.take 1) _ [] [] rfl (by decide +kernel)
    revert hread
    decide +kernel

end OpenPgTde
