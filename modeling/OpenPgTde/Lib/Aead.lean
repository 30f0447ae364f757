import Mathlib.Data.List.Basic

/-!
Authenticated encryption with associated data, as an interface.

The cipher itself is not modelled. What a program relies on is that decryption undoes encryption
under the same key, initialisation vector and associated data, and that encryption keeps lengths;
these two are fields of `Aead`, so every development that uses the interface works for every cipher
that has them. Authentication, the other half of the promise, is a property some results need and
others do not: `BindsAad` says that a sealed text does not open under other associated data.
-/

namespace Lib

/-- An authenticated cipher over byte strings. `encrypt` gives the ciphertext and its tag. -/
structure Aead where
  encrypt : (key iv aad input : List UInt8) → List UInt8 × List UInt8
  decrypt : (key iv aad input tag : List UInt8) → Option (List UInt8)
  decrypt_encrypt : ∀ key iv aad input,
    decrypt key iv aad (encrypt key iv aad input).1 (encrypt key iv aad input).2 = some input
  length_encrypt : ∀ key iv aad input, (encrypt key iv aad input).1.length = input.length

namespace Aead

attribute [simp] decrypt_encrypt length_encrypt

/-- A text sealed with some associated data opens under no other. -/
def BindsAad (c : Aead) : Prop :=
  ∀ key iv aad aad' input, aad' ≠ aad →
    c.decrypt key iv aad' (c.encrypt key iv aad input).1 (c.encrypt key iv aad input).2 = none

/-- A cipher for evaluation: the text is left as it is and the tag is everything that went into
it. No secrecy, perfect authentication. -/
def transparent : Aead where
  encrypt key iv aad input := (input, key ++ iv ++ aad ++ input)
  decrypt key iv aad input tag := if tag = key ++ iv ++ aad ++ input then some input else none
  decrypt_encrypt _ _ _ _ := if_pos rfl
  length_encrypt _ _ _ _ := rfl

theorem transparent_bindsAad : transparent.BindsAad := by
  intro key iv aad aad' input hne
  refine if_neg fun h => hne ?_
  change key ++ iv ++ aad ++ input = key ++ iv ++ aad' ++ input at h
  rw [List.append_left_inj, List.append_right_inj] at h
  exact h.symm

end Aead

end Lib
