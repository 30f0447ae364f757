import Mathlib.Data.Int.Notation
import OpenPgTde.Encryption
import OpenPgTde.Lib.Effect
import OpenPgTde.Lib.Splice

/-!
Keyed cipher contexts (`encryption/enc_aes.c`).

A cipher context holds the key schedule that was computed when a key was loaded, and computing it is
expensive. A process therefore keeps four contexts for the pages of all relations, one for each
cipher, and remembers with each the key and the direction that were loaded last. If a page comes with
the same key in the same direction, only the vector is replaced.

What the contexts hold after any sequence of calls depends on all of them; what a call returns does
not. It is what a new context for this one call would have returned.
-/

namespace OpenPgTde

open Lib.Effect Lib.Splice

/-! ### Contexts -/

/-- The cipher contexts of OpenSSL. A call returns nothing when it fails, and leaves a context in any
case. `newCtx` is a context of a cipher without a key and without padding; `initKey` is
`EVP_CipherInit_ex` with a key, a vector and a direction, `initIv` is the same with the vector alone and
-1 for the direction. What is in a context is a cipher, a key schedule, a direction, and what the vector
and the data so far have come to. -/
structure Evp where
  Ctx : Type
  Chain : Type
  newCtx : CipherType → Ctx
  initKey : Ctx → List UInt8 → List UInt8 → Bool → Option Unit × Ctx
  initIv : Ctx → List UInt8 → Option Unit × Ctx
  update : Ctx → List UInt8 → Option (List UInt8) × Ctx
  final : Ctx → Option (List UInt8) × Ctx
  cipher : Ctx → CipherType
  schedule : Ctx → Option (List UInt8)
  encrypts : Ctx → Bool
  chain : Ctx → Chain
  ofIv : List UInt8 → Chain

/-- The same cipher, key schedule and direction. -/
structure Evp.KeyedAlike (evp : Evp) (x y : evp.Ctx) : Prop where
  cipher : evp.cipher y = evp.cipher x
  schedule : evp.schedule y = evp.schedule x
  encrypts : evp.encrypts y = evp.encrypts x

/-- What the code relies on. Loading a key replaces the schedule, the direction and the vector, or
fails and replaces neither schedule nor direction; whether it fails is up to the cipher, the key and
the direction. Without a key only the vector is replaced. What comes out of a context depends on what
is in it, and running data through it changes neither the key nor the direction. -/
structure Evp.Lawful (evp : Evp) : Prop where
  newCtx : ∀ c, evp.cipher (evp.newCtx c) = c
  initKey : ∀ x key iv enc y, evp.initKey x key iv enc = (some (), y) → evp.cipher y = evp.cipher x ∧
    evp.schedule y = some key ∧ evp.encrypts y = enc ∧ evp.chain y = evp.ofIv iv
  initKey_failed : ∀ x key iv enc y, evp.initKey x key iv enc = (none, y) → evp.KeyedAlike x y
  initKey_accepts : ∀ x x' key iv iv' enc, evp.cipher x = evp.cipher x' →
    (evp.initKey x key iv enc).1 = (evp.initKey x' key iv' enc).1
  initIv : ∀ x iv, evp.schedule x ≠ none → ∃ y, evp.initIv x iv = (some (), y) ∧
    evp.KeyedAlike x y ∧ evp.chain y = evp.ofIv iv
  update : ∀ x y input, evp.KeyedAlike x y → evp.chain y = evp.chain x →
    (evp.update y input).1 = (evp.update x input).1 ∧
      evp.chain (evp.update y input).2 = evp.chain (evp.update x input).2
  update_keeps : ∀ x input, evp.KeyedAlike x (evp.update x input).2
  final : ∀ x y, evp.KeyedAlike x y → evp.chain y = evp.chain x →
    (evp.final y).1 = (evp.final x).1
  final_keeps : ∀ x, evp.KeyedAlike x (evp.final x).2

/-- `EVP_MAX_KEY_LENGTH`. -/
def evpMaxKeyLength : ℕ := 64

/-- The errors of the calls. -/
inductive AesError
  | unsupportedKeyLength (keyLen : ℕ)
  | cipherInit
  | cipherUpdate
  | cipherFinal
  deriving DecidableEq, Repr

def AesError.message : AesError → String
  | .unsupportedKeyLength keyLen =>
      "unsupported key length " ++ toString keyLen ++ " for cached cipher context"
  | .cipherInit => "EVP_CipherInit_ex failed. OpenSSL error: %s"
  | .cipherUpdate => "EVP_CipherUpdate failed. OpenSSL error: %s"
  | .cipherFinal => "EVP_CipherFinal_ex failed. OpenSSL error: %s"

/-- `AesCtxCache`. The direction is 1 or 0, or -1 until a key has been loaded. -/
structure AesCtxCache (Ctx : Type) where
  ctx : Ctx
  key : List UInt8
  keyLen : ℕ
  enc : ℤ

/-- The direction as the calls pass it. -/
def encFlag (enc : Bool) : ℤ := if enc then 1 else 0

section Code

variable (evp : Evp)

abbrev CtxM := EStateM AesError (AesCtxCache evp.Ctx)

/-- A call of OpenSSL on the context, with the error it is reported as. -/
def evpCall {evp : Evp} {α : Type} (f : evp.Ctx → Option α × evp.Ctx) (e : AesError) : CtxM evp α := do
  let cc ← get
  set { cc with ctx := (f cc.ctx).2 }
  match (f cc.ctx).1 with
  | none => throw e
  | some a => pure a

/-- `aes_ctx_prepare`. -/
def aesCtxPrepare (enc : Bool) (key iv : List UInt8) : CtxM evp Unit := do
  let cc ← get
  if evpMaxKeyLength < key.length then throw (.unsupportedKeyLength key.length)
  else if cc.keyLen = key.length ∧ cc.enc = encFlag enc ∧ cc.key.take key.length = key then
    evpCall (fun x => evp.initIv x iv) .cipherInit
  else do
    evpCall (fun x => evp.initKey x key iv enc) .cipherInit
    modify fun cc =>
      { cc with key := overwrite cc.key 0 key, keyLen := key.length, enc := encFlag enc }

/-- What `AesRunCbc` and `AesRunXts` do once they have chosen a context. -/
def aesRun (enc : Bool) (key iv input : List UInt8) : CtxM evp (List UInt8) := do
  aesCtxPrepare evp enc key iv
  let out ← evpCall (fun x => evp.update x input) .cipherUpdate
  let outFinal ← evpCall evp.final .cipherFinal
  pure (out ++ outFinal)

/-- The four contexts of a process. -/
structure AesCtxs where
  cbc128 : AesCtxCache evp.Ctx
  cbc256 : AesCtxCache evp.Ctx
  xts128 : AesCtxCache evp.Ctx
  xts256 : AesCtxCache evp.Ctx

/-- `AesInit`. -/
def aesInit : AesCtxs evp :=
  let initCtx (c : CipherType) : AesCtxCache evp.Ctx :=
    ⟨evp.newCtx c, List.replicate evpMaxKeyLength 0, 0, -1⟩
  ⟨initCtx .aes128, initCtx .aes256, initCtx .aes128Xts, initCtx .aes256Xts⟩

abbrev AesM := EStateM AesError (AesCtxs evp)

/-- `AesRunCbc`. -/
def aesRunCbc (enc : Bool) (key iv input : List UInt8) : AesM evp (List UInt8) :=
  if key.length = 32 then
    zoom AesCtxs.cbc256 (fun cc s => { s with cbc256 := cc }) (aesRun evp enc key iv input)
  else zoom AesCtxs.cbc128 (fun cc s => { s with cbc128 := cc }) (aesRun evp enc key iv input)

/-- `AesRunXts`. -/
def aesRunXts (enc : Bool) (key iv input : List UInt8) : AesM evp (List UInt8) :=
  if key.length = 64 then
    zoom AesCtxs.xts256 (fun cc s => { s with xts256 := cc }) (aesRun evp enc key iv input)
  else zoom AesCtxs.xts128 (fun cc s => { s with xts128 := cc }) (aesRun evp enc key iv input)

/-- `AesEncrypt`. -/
def aesEncrypt (key iv input : List UInt8) : AesM evp (List UInt8) := aesRunCbc evp true key iv input

/-- `AesDecrypt`. -/
def aesDecrypt (key iv input : List UInt8) : AesM evp (List UInt8) := aesRunCbc evp false key iv input

/-- `AesXtsEncrypt`. -/
def aesXtsEncrypt (key iv input : List UInt8) : AesM evp (List UInt8) :=
  aesRunXts evp true key iv input

/-- `AesXtsDecrypt`. -/
def aesXtsDecrypt (key iv input : List UInt8) : AesM evp (List UInt8) :=
  aesRunXts evp false key iv input

end Code

/-! ### Calls -/

inductive AesFunction
  | encrypt
  | decrypt
  | xtsEncrypt
  | xtsDecrypt
  deriving DecidableEq, Repr

/-- The ciphers of a function. The length of the key tells them apart. -/
def AesFunction.ciphers : AesFunction → CipherType × CipherType
  | encrypt | decrypt => (.aes128, .aes256)
  | xtsEncrypt | xtsDecrypt => (.aes128Xts, .aes256Xts)

def AesFunction.enc : AesFunction → Bool
  | encrypt | xtsEncrypt => true
  | decrypt | xtsDecrypt => false

/-- A call with a key of a length that the function takes. -/
structure AesCall where
  function : AesFunction
  key : List UInt8
  iv : List UInt8
  input : List UInt8
  length_key : key.length = function.ciphers.1.keyLength ∨
    key.length = function.ciphers.2.keyLength

/-- The cipher for the function and the length of the key. -/
def AesCall.cipher (a : AesCall) : CipherType :=
  if a.key.length = a.function.ciphers.1.keyLength then a.function.ciphers.1
  else a.function.ciphers.2

def AesCall.exec (evp : Evp) (a : AesCall) : AesM evp (List UInt8) :=
  match a.function with
  | .encrypt => aesEncrypt evp a.key a.iv a.input
  | .decrypt => aesDecrypt evp a.key a.iv a.input
  | .xtsEncrypt => aesXtsEncrypt evp a.key a.iv a.input
  | .xtsDecrypt => aesXtsDecrypt evp a.key a.iv a.input

/-- What a new context of the cipher returns for one call. -/
def freshOutcome (evp : Evp) (c : CipherType) (enc : Bool) (key iv input : List UInt8) :
    Except AesError (List UInt8) :=
  match evp.initKey (evp.newCtx c) key iv enc with
  | (none, _) => .error .cipherInit
  | (some _, x) =>
    match evp.update x input with
    | (none, _) => .error .cipherUpdate
    | (some out, y) =>
      match evp.final y with
      | (none, _) => .error .cipherFinal
      | (some outFinal, _) => .ok (out ++ outFinal)

def AesCall.fresh (evp : Evp) (a : AesCall) : Except AesError (List UInt8) :=
  freshOutcome evp a.cipher a.function.enc a.key a.iv a.input

/-- The outcomes of one call after the other. -/
def aesOutcomes (evp : Evp) : List AesCall → AesCtxs evp → List (Except AesError (List UInt8))
  | [], _ => []
  | a :: calls, s => outcome (a.exec evp) s :: aesOutcomes evp calls (after (a.exec evp) s)

/-! ### What a context remembers -/

variable {evp : Evp} {c : CipherType} {cc : AesCtxCache evp.Ctx} {x y z : evp.Ctx}

theorem Evp.KeyedAlike.symm (h : evp.KeyedAlike x y) : evp.KeyedAlike y x :=
  ⟨h.cipher.symm, h.schedule.symm, h.encrypts.symm⟩

theorem Evp.KeyedAlike.trans (h : evp.KeyedAlike x y) (h' : evp.KeyedAlike y z) :
    evp.KeyedAlike x z :=
  ⟨h'.cipher.trans h.cipher, h'.schedule.trans h.schedule, h'.encrypts.trans h.encrypts⟩

/-- The context is one of this cipher. A key and a direction that pass the comparison are loaded, and
they are such as can be loaded. -/
structure CtxOk (evp : Evp) (c : CipherType) (cc : AesCtxCache evp.Ctx) : Prop where
  cipher : evp.cipher cc.ctx = c
  room : cc.key.length = evpMaxKeyLength
  loaded : ∀ key enc, cc.keyLen = key.length → cc.enc = encFlag enc → cc.key.take key.length = key →
    evp.schedule cc.ctx = some key ∧ evp.encrypts cc.ctx = enc ∧
      ∀ iv, (evp.initKey (evp.newCtx c) key iv enc).1 = some ()

theorem encFlag_inj {a b : Bool} (h : encFlag a = encFlag b) : a = b := by
  cases a <;> cases b <;> simp_all [encFlag]

theorem ctxOk_newCtx (h : evp.Lawful) (c : CipherType) :
    CtxOk evp c ⟨evp.newCtx c, List.replicate evpMaxKeyLength 0, 0, -1⟩ := by
  refine ⟨h.newCtx c, List.length_replicate, fun key enc _ henc _ => ?_⟩
  cases enc <;> cases henc

/-- Running data through a context and replacing its vector do not show in the cache. -/
theorem CtxOk.of_alike (h : CtxOk evp c cc) (hx : evp.KeyedAlike cc.ctx x) :
    CtxOk evp c { cc with ctx := x } := by
  refine ⟨hx.cipher.trans h.cipher, h.room, fun key enc hlen henc hkey => ?_⟩
  rw [hx.schedule, hx.encrypts]
  exact h.loaded key enc hlen henc hkey

theorem evpCall_spec {α : Type} (f : evp.Ctx → Option α × evp.Ctx) (e : AesError) :
    wp (evpCall f e) (fun a t => f cc.ctx = (some a, t.ctx) ∧ t = { cc with ctx := t.ctx })
      (fun e' t => e' = e ∧ f cc.ctx = (none, t.ctx) ∧ t = { cc with ctx := t.ctx }) cc := by
  unfold evpCall
  simp only [wp_bind, wp_get, wp_set]
  rcases hf : f cc.ctx with ⟨r, x⟩
  cases r with
  | none => exact ⟨rfl, rfl, rfl⟩
  | some a => exact ⟨rfl, rfl⟩

/-- After the preparation the context holds what a new one would hold after loading the key. -/
theorem aesCtxPrepare_spec (hevp : evp.Lawful) (h : CtxOk evp c cc) (enc : Bool)
    {key : List UInt8} (hkey : key.length ≤ evpMaxKeyLength) (iv : List UInt8) :
    wp (aesCtxPrepare evp enc key iv)
      (fun _ t => CtxOk evp c t ∧ ∃ y, evp.initKey (evp.newCtx c) key iv enc = (some (), y) ∧
        evp.KeyedAlike y t.ctx ∧ evp.chain t.ctx = evp.chain y)
      (fun e t => CtxOk evp c t ∧ e = .cipherInit ∧
        (evp.initKey (evp.newCtx c) key iv enc).1 = none) cc := by
  have haccepts : (evp.initKey cc.ctx key iv enc).1 = (evp.initKey (evp.newCtx c) key iv enc).1 :=
    hevp.initKey_accepts _ _ key iv iv enc (h.cipher.trans (hevp.newCtx c).symm)
  -- a new context that has taken the key
  have hnew : ∀ {x}, (evp.initKey (evp.newCtx c) key iv enc).1 = some () → evp.cipher x = c →
      evp.schedule x = some key → evp.encrypts x = enc → evp.chain x = evp.ofIv iv →
      ∃ y, evp.initKey (evp.newCtx c) key iv enc = (some (), y) ∧ evp.KeyedAlike y x ∧
        evp.chain x = evp.chain y := by
    intro x hok hc hs he hch
    have hy := hevp.initKey _ key iv enc _ (Prod.ext hok rfl)
    refine ⟨_, Prod.ext hok rfl, ⟨?_, hs.trans hy.2.1.symm, he.trans hy.2.2.1.symm⟩,
      hch.trans hy.2.2.2.symm⟩
    rw [hc, hy.1, hevp.newCtx]
  unfold aesCtxPrepare
  simp only [wp_bind, wp_get, wp_ite]
  refine ⟨fun hlong => absurd hkey (by omega), fun _ => ⟨fun hsame => ?_, fun _ => ?_⟩⟩
  · obtain ⟨hlen, henc, hbytes⟩ := hsame
    obtain ⟨hs, he, hok⟩ := h.loaded key enc hlen henc hbytes
    obtain ⟨y, hy, halike, hchain⟩ := hevp.initIv cc.ctx iv
      (by rw [hs]; exact Option.some_ne_none _)
    refine (evpCall_spec _ _).mono (fun _ t ht => ?_) fun e t ht => ?_
    · obtain ⟨hrun, ht⟩ := ht
      rw [hy] at hrun
      obtain rfl : y = t.ctx := (Prod.ext_iff.1 hrun).2
      rw [ht]
      exact ⟨h.of_alike halike, hnew (hok iv) (halike.cipher.trans h.cipher)
        (halike.schedule.trans hs) (halike.encrypts.trans he) hchain⟩
    · rw [hy] at ht
      cases ht.2.1
  · refine (evpCall_spec _ _).mono (fun _ t ht => ?_) fun e t ht => ?_
    · obtain ⟨hrun, ht⟩ := ht
      obtain ⟨hc, hs, he, hch⟩ := hevp.initKey _ key iv enc _ hrun
      have hok : (evp.initKey (evp.newCtx c) key iv enc).1 = some () := by
        rw [← haccepts, hrun]
      rw [wp_modify, ht]
      refine ⟨⟨hc.trans h.cipher, ?_, fun key' enc' hlen' henc' hbytes' => ?_⟩,
        hnew hok (hc.trans h.cipher) hs he hch⟩
      · rw [length_overwrite (Nat.zero_le _), h.room]
        omega
      · obtain rfl := encFlag_inj henc'
        have hlen' : key.length = key'.length := hlen'
        have hloaded : key = key' := by
          rw [← hbytes', ← hlen']
          simp [overwrite]
        subst hloaded
        refine ⟨hs, he, fun iv' => ?_⟩
        rw [← hok]
        exact hevp.initKey_accepts _ _ key iv' iv enc rfl
    · obtain ⟨he, hrun, ht⟩ := ht
      rw [ht]
      refine ⟨h.of_alike (hevp.initKey_failed _ key iv enc _ hrun), he, ?_⟩
      rw [← haccepts, hrun]

/-- One call on a context returns, or fails as, a new context would. -/
theorem aesRun_spec (hevp : evp.Lawful) (h : CtxOk evp c cc) (enc : Bool) {key : List UInt8}
    (hkey : key.length ≤ evpMaxKeyLength) (iv input : List UInt8) :
    wp (aesRun evp enc key iv input)
      (fun out t => CtxOk evp c t ∧ freshOutcome evp c enc key iv input = .ok out)
      (fun e t => CtxOk evp c t ∧ freshOutcome evp c enc key iv input = .error e) cc := by
  unfold freshOutcome
  refine (wp_bind ..).2 ((aesCtxPrepare_spec hevp h enc hkey iv).mono (fun _ t ht => ?_)
    fun e t ht => ⟨ht.1, ?_⟩)
  · obtain ⟨ht, x, hx, halike, hchain⟩ := ht
    rw [hx]
    dsimp only
    obtain ⟨hout, hchain⟩ := hevp.update x t.ctx input halike hchain
    have hkeeps := hevp.update_keeps t.ctx input
    have halike := ((hevp.update_keeps x input).symm.trans halike).trans hkeeps
    rcases hy : evp.update x input with ⟨r, y⟩
    rw [hy] at hout hchain halike
    refine (wp_bind ..).2 ((evpCall_spec _ _).mono (fun out u hu => ?_) fun e u hu => ?_)
    · obtain ⟨hrun, hu⟩ := hu
      rw [hrun] at hout hchain halike hkeeps
      obtain rfl : some out = r := hout
      have hfinal := hevp.final y u.ctx halike hchain
      have hok : CtxOk evp c u := by
        rw [hu]
        exact ht.of_alike hkeeps
      rcases hz : evp.final y with ⟨r, z⟩
      rw [hz] at hfinal
      refine (wp_bind ..).2 ((evpCall_spec _ _).mono (fun rest v hv => ?_) fun e v hv => ?_)
      · obtain ⟨hrun', hv⟩ := hv
        have hkeeps' := hevp.final_keeps u.ctx
        rw [hrun'] at hfinal hkeeps'
        obtain rfl : some rest = r := hfinal
        refine ⟨?_, by simp only [hz]⟩
        rw [hv]
        exact hok.of_alike hkeeps'
      · obtain ⟨rfl, hrun', hv⟩ := hv
        have hkeeps' := hevp.final_keeps u.ctx
        rw [hrun'] at hfinal hkeeps'
        obtain rfl : none = r := hfinal
        refine ⟨?_, by simp only [hz]⟩
        rw [hv]
        exact hok.of_alike hkeeps'
    · obtain ⟨rfl, hrun, hu⟩ := hu
      rw [hrun] at hout hkeeps
      obtain rfl : none = r := hout
      refine ⟨?_, rfl⟩
      rw [hu]
      exact ht.of_alike hkeeps
  · obtain ⟨-, rfl, hno⟩ := ht
    split
    · rfl
    · rename_i heq
      rw [heq] at hno
      cases hno

/-! ### All four contexts -/

variable {s : AesCtxs evp}

structure CtxsOk (s : AesCtxs evp) : Prop where
  cbc128 : CtxOk evp .aes128 s.cbc128
  cbc256 : CtxOk evp .aes256 s.cbc256
  xts128 : CtxOk evp .aes128Xts s.xts128
  xts256 : CtxOk evp .aes256Xts s.xts256

theorem ctxsOk_aesInit (h : evp.Lawful) : CtxsOk (aesInit evp) :=
  ⟨ctxOk_newCtx h _, ctxOk_newCtx h _, ctxOk_newCtx h _, ctxOk_newCtx h _⟩

theorem aesRunCbc_spec (hevp : evp.Lawful) (hs : CtxsOk s) (enc : Bool) {key : List UInt8}
    (hkey : key.length = 16 ∨ key.length = 32) (iv input : List UInt8) :
    wp (aesRunCbc evp enc key iv input)
      (fun out t => CtxsOk t ∧ freshOutcome evp (if key.length = 16 then .aes128 else .aes256) enc key
        iv input = .ok out)
      (fun e t => CtxsOk t ∧ freshOutcome evp (if key.length = 16 then .aes128 else .aes256) enc key
        iv input = .error e) s := by
  have hmax : key.length ≤ evpMaxKeyLength := by
    unfold evpMaxKeyLength
    omega
  unfold aesRunCbc
  split
  · rename_i hlen
    rw [wp_zoom, if_neg (by omega)]
    exact (aesRun_spec hevp hs.cbc256 enc hmax iv input).mono
      (fun _ t ht => ⟨{ hs with cbc256 := ht.1 }, ht.2⟩) fun _ t ht => ⟨{ hs with cbc256 := ht.1 }, ht.2⟩
  · rename_i hlen
    rw [wp_zoom, if_pos (by omega)]
    exact (aesRun_spec hevp hs.cbc128 enc hmax iv input).mono
      (fun _ t ht => ⟨{ hs with cbc128 := ht.1 }, ht.2⟩) fun _ t ht => ⟨{ hs with cbc128 := ht.1 }, ht.2⟩

theorem aesRunXts_spec (hevp : evp.Lawful) (hs : CtxsOk s) (enc : Bool) {key : List UInt8}
    (hkey : key.length = 32 ∨ key.length = 64) (iv input : List UInt8) :
    wp (aesRunXts evp enc key iv input)
      (fun out t => CtxsOk t ∧ freshOutcome evp (if key.length = 32 then .aes128Xts else .aes256Xts)
        enc key iv input = .ok out)
      (fun e t => CtxsOk t ∧ freshOutcome evp (if key.length = 32 then .aes128Xts else .aes256Xts)
        enc key iv input = .error e) s := by
  have hmax : key.length ≤ evpMaxKeyLength := by
    unfold evpMaxKeyLength
    omega
  unfold aesRunXts
  split
  · rename_i hlen
    rw [wp_zoom, if_neg (by omega)]
    exact (aesRun_spec hevp hs.xts256 enc hmax iv input).mono
      (fun _ t ht => ⟨{ hs with xts256 := ht.1 }, ht.2⟩) fun _ t ht => ⟨{ hs with xts256 := ht.1 }, ht.2⟩
  · rename_i hlen
    rw [wp_zoom, if_pos (by omega)]
    exact (aesRun_spec hevp hs.xts128 enc hmax iv input).mono
      (fun _ t ht => ⟨{ hs with xts128 := ht.1 }, ht.2⟩) fun _ t ht => ⟨{ hs with xts128 := ht.1 }, ht.2⟩

theorem AesCall.exec_spec (hevp : evp.Lawful) (hs : CtxsOk s) (a : AesCall) :
    wp (a.exec evp) (fun out t => CtxsOk t ∧ a.fresh evp = .ok out)
      (fun e t => CtxsOk t ∧ a.fresh evp = .error e) s := by
  obtain ⟨function, key, iv, input, hkey⟩ := a
  cases function with
  | encrypt => exact aesRunCbc_spec hevp hs true hkey iv input
  | decrypt => exact aesRunCbc_spec hevp hs false hkey iv input
  | xtsEncrypt => exact aesRunXts_spec hevp hs true hkey iv input
  | xtsDecrypt => exact aesRunXts_spec hevp hs false hkey iv input

theorem aesOutcomes_eq (hevp : evp.Lawful) (hs : CtxsOk s) (calls : List AesCall) :
    aesOutcomes evp calls s = calls.map (AesCall.fresh evp) := by
  induction calls generalizing s with
  | nil => rfl
  | cons a calls ih =>
      have hspec := a.exec_spec hevp hs
      have hout : outcome (a.exec evp) s = a.fresh evp :=
        outcome_eq (hspec.mono (fun _ _ ht => ht.2) fun _ _ ht => ht.2)
      have hok : CtxsOk (after (a.exec evp) s) :=
        (hspec.mono (fun _ _ ht => ht.1) fun _ _ ht => ht.1).after
      rw [aesOutcomes, hout, ih hok, List.map_cons]

/-- Whatever calls are made one after the other, each one returns what a new context for it alone
would have returned, and fails if that would have failed. -/
theorem context_cache_transparent (evp : Evp) (hevp : evp.Lawful) (calls : List AesCall) :
    aesOutcomes evp calls (aesInit evp) = calls.map (AesCall.fresh evp) :=
  aesOutcomes_eq hevp (ctxsOk_aesInit hevp) calls

/-! ### Internal keys -/

/-- The function that the registry of ciphers has for the pages of a key. -/
def CipherType.pageFunction (c : CipherType) (enc : Bool) : AesFunction :=
  match c with
  | aes128 | aes256 => if enc then .encrypt else .decrypt
  | aes128Xts | aes256Xts => if enc then .xtsEncrypt else .xtsDecrypt

/-- The call for a page under an internal key. -/
def InternalKey.pageCall (k : InternalKey) (enc : Bool) (iv input : List UInt8) : AesCall where
  function := k.cipher.pageFunction enc
  key := k.key
  iv := iv
  input := input
  length_key := by
    have hlen := k.length_key
    cases hc : k.cipher <;> cases enc <;> simp_all [CipherType.pageFunction, AesFunction.ciphers,
      CipherType.keyLength]

/-- A page goes through the cipher its key is for. -/
theorem InternalKey.cipher_pageCall (k : InternalKey) (enc : Bool) (iv input : List UInt8) :
    (k.pageCall enc iv input).cipher = k.cipher ∧
      (k.pageCall enc iv input).function.enc = enc := by
  obtain ⟨cipher, baseIv, key, hlen⟩ := k
  cases cipher <;> cases enc <;> simp_all [AesCall.cipher, InternalKey.pageCall,
    CipherType.pageFunction, AesFunction.ciphers, CipherType.keyLength, AesFunction.enc]

/-- For evaluation: data is encrypted by adding key and vector to it. Keys for XTS whose halves are
equal are not taken for encryption, but the vector is set all the same. -/
def sampleEvp : Evp where
  Ctx := CipherType × Option (List UInt8) × Bool × List UInt8
  Chain := List UInt8
  newCtx c := (c, none, true, [])
  initKey x key iv enc :=
    if enc ∧ (x.1 = .aes128Xts ∨ x.1 = .aes256Xts) ∧
        key.take (key.length / 2) = key.drop (key.length / 2) then
      (none, (x.1, x.2.1, x.2.2.1, iv))
    else (some (), (x.1, some key, enc, iv))
  initIv x iv := (some (), (x.1, x.2.1, x.2.2.1, iv))
  update x input :=
    let pad := ((x.2.1.getD []) ++ x.2.2.2).sum
    (some (input.map fun b => if x.2.2.1 then b + pad else b - pad), x)
  final x := (some [], x)
  cipher x := x.1
  schedule x := x.2.1
  encrypts x := x.2.2.1
  chain x := x.2.2.2
  ofIv iv := iv

theorem sampleEvp_lawful : sampleEvp.Lawful where
  newCtx _ := rfl
  initKey x key iv enc y h := by
    simp only [sampleEvp] at h
    split at h
    · cases h
    · cases h
      exact ⟨rfl, rfl, rfl, rfl⟩
  initKey_failed x key iv enc y h := by
    simp only [sampleEvp] at h
    split at h
    · cases h
      exact ⟨rfl, rfl, rfl⟩
    · cases h
  initKey_accepts x x' key iv iv' enc h := by
    simp only [sampleEvp] at h ⊢
    rw [h]
    split <;> rfl
  initIv x iv _ := ⟨_, rfl, ⟨rfl, rfl, rfl⟩, rfl⟩
  update x y input h hch := by
    have hs : y.2.1 = x.2.1 := h.schedule
    have he : y.2.2.1 = x.2.2.1 := h.encrypts
    have hc : y.2.2.2 = x.2.2.2 := hch
    exact ⟨by simp only [sampleEvp, hs, he, hc], hc⟩
  update_keeps _ _ := ⟨rfl, rfl, rfl⟩
  final _ _ _ _ := rfl
  final_keeps _ := ⟨rfl, rfl, rfl⟩

/-- Two relations by turns, a key that is not taken in between, and a change of direction. -/
def sampleAesCalls : List AesCall :=
  let k (b : UInt8) : List UInt8 := List.replicate 16 b ++ List.replicate 16 (b + 1)
  [⟨.xtsEncrypt, k 1, [1], [10, 20], .inl rfl⟩, ⟨.xtsEncrypt, k 1, [2], [10, 20], .inl rfl⟩,
    ⟨.xtsEncrypt, List.replicate 32 7, [3], [10, 20], .inl rfl⟩,
    ⟨.xtsEncrypt, k 1, [4], [10, 20], .inl rfl⟩, ⟨.encrypt, k 1, [5], [10, 20], .inr rfl⟩,
    ⟨.xtsDecrypt, k 1, [6], [10, 20], .inl rfl⟩, ⟨.xtsDecrypt, k 2, [7], [10, 20], .inl rfl⟩]

theorem context_cache_transparent_sample :
    aesOutcomes sampleEvp sampleAesCalls (aesInit sampleEvp) =
      sampleAesCalls.map (AesCall.fresh sampleEvp) :=
  context_cache_transparent sampleEvp sampleEvp_lawful sampleAesCalls

end OpenPgTde
