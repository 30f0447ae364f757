import Mathlib.Data.List.Basic
import Mathlib.Data.UInt

/-!
Ciphers and internal keys (`encryption/enc_tde.c`, `encryption/cipher_provider.c`).

An internal key encrypts the blocks of one relation, or one range of the WAL. It is itself stored
encrypted under a principal key. Its length is decided by its cipher, and `InternalKey` carries
that fact, so that a key of another length cannot be built.
-/

namespace OpenPgTde

/-- The `w` bytes of `n` in the byte order of the machine (little-endian). -/
def leBytes : ℕ → ℕ → List UInt8
  | 0, _ => []
  | w + 1, n => UInt8.ofNat n :: leBytes w (n / 256)

@[simp] theorem length_leBytes (w n : ℕ) : (leBytes w n).length = w := by
  induction w generalizing n with
  | zero => rfl
  | succ w ih => simp [leBytes, ih]

/-- The number that bytes in the byte order of the machine stand for. -/
def leValue (b : List UInt8) : ℕ := b.foldr (fun x n => x.toNat + 256 * n) 0

theorem leValue_leBytes (w n : ℕ) : leValue (leBytes w n) = n % 256 ^ w := by
  induction w generalizing n with
  | zero => simp [leValue, leBytes, Nat.mod_one]
  | succ w ih =>
      have hrest : leValue (leBytes w (n / 256)) = n / 256 % 256 ^ w := ih (n / 256)
      rw [leBytes, leValue, List.foldr_cons, ← leValue, hrest, Nat.pow_succ', Nat.mod_mul]
      simp

inductive CipherType
  | aes128
  | aes256
  | aes128Xts
  | aes256Xts
  deriving DecidableEq, Repr

namespace CipherType

/-- The numbers of the C enumeration, which is how a cipher is recorded on disk. -/
def code : CipherType → ℕ
  | aes128 => 0
  | aes256 => 1
  | aes128Xts => 2
  | aes256Xts => 3

/-- The cipher of a number on disk. -/
def ofCode : ℕ → Option CipherType
  | 0 => some aes128
  | 1 => some aes256
  | 2 => some aes128Xts
  | 3 => some aes256Xts
  | _ => none

@[simp] theorem ofCode_code (c : CipherType) : ofCode c.code = some c := by cases c <;> rfl

theorem code_of_ofCode {n : ℕ} {c : CipherType} (h : ofCode n = some c) : c.code = n := by
  unfold ofCode at h
  split at h <;> cases h <;> rfl

theorem code_lt (c : CipherType) : c.code < 4 := by cases c <;> decide

/-- `open_pg_tde_cipher_key_length`. -/
def keyLength : CipherType → ℕ
  | aes128 => 16
  | aes256 => 32
  | aes128Xts => 32
  | aes256Xts => 64

/-- `TdeCipherByKeyLen`: the first registered cipher of that key length that has a keystream. -/
def byKeyLen (keyLen : ℕ) : Option CipherType :=
  [aes128, aes256].find? fun c => c.keyLength = keyLen

theorem keyLength_of_byKeyLen {n : ℕ} {c : CipherType} (h : byKeyLen n = some c) :
    c.keyLength = n := by
  simpa using List.find?_some h

end CipherType

/-- The length of an initialisation vector, `INTERNAL_KEY_IV_LEN` and `MAP_ENTRY_IV_SIZE`. -/
def ivLen : ℕ := 16

structure InternalKey where
  cipher : CipherType
  baseIv : List UInt8
  key : List UInt8
  length_key : key.length = cipher.keyLength
  deriving DecidableEq

end OpenPgTde
