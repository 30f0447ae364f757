import Mathlib.Algebra.BigOperators.Group.List.Basic
import Mathlib.Algebra.Order.BigOperators.Group.List
import Mathlib.Data.List.Basic
import Mathlib.Data.UInt

/-!
JSON texts and the events a parser reports for them.

A text is a list of bytes. `Lexes` reads it as tokens and `Value.tokens` writes the tokens of a
value, so a text is JSON when it is lexed as the tokens of some value. A parser reports a value in
document order (`Value.events`); where an object or an array ends is not reported, because nobody here
listens to it.

Neither of the two readings leaves a choice: a text has one sequence of tokens (`Lexes.unique`) and
a sequence of tokens belongs to one value (`Value.tokens_inj`).

Escapes only ever shorten what they stand for. `weight` counts the backslashes of a text and its letters
`u`, which are what an escape is made of. Decoding a string never adds to it, and a text that has no
more of it than its tokens have is a text without escapes (`Lexes.weight_le`, `Lexes.clean`).
-/

namespace Lib.Json

/-! ### Strings -/

/-- The byte that `\` and this byte stand for. -/
def escaped (c : UInt8) : Option UInt8 :=
  if c = 34 ∨ c = 92 ∨ c = 47 then some c
  else if c = 98 then some 8
  else if c = 102 then some 12
  else if c = 110 then some 10
  else if c = 114 then some 13
  else if c = 116 then some 9
  else none

def hexDigit (c : UInt8) : Option ℕ :=
  if 48 ≤ c ∧ c ≤ 57 then some (c.toNat - 48)
  else if 65 ≤ c ∧ c ≤ 70 then some (c.toNat - 55)
  else if 97 ≤ c ∧ c ≤ 102 then some (c.toNat - 87)
  else none

/-- The number behind `\u`. -/
def codeUnit (a b c d : UInt8) : Option ℕ := do
  let a ← hexDigit a
  let b ← hexDigit b
  let c ← hexDigit c
  let d ← hexDigit d
  pure (((a * 16 + b) * 16 + c) * 16 + d)

def IsHighSurrogate (n : ℕ) : Prop := 0xD800 ≤ n ∧ n < 0xDC00

def IsLowSurrogate (n : ℕ) : Prop := 0xDC00 ≤ n ∧ n < 0xE000

def surrogatePair (hi lo : ℕ) : ℕ := 0x10000 + (hi - 0xD800) * 0x400 + (lo - 0xDC00)

def utf8 (n : ℕ) : List UInt8 := String.utf8EncodeChar (Char.ofNat n)

/-- What stands between the quotes of a string, and the bytes it means. The control bytes have to be
escaped, and there is no escape for the zero. -/
inductive StringBody : List UInt8 → List UInt8 → Prop
  | nil : StringBody [] []
  | byte {c : UInt8} {raw s : List UInt8} (hc : 32 ≤ c) (hquote : c ≠ 34) (hslash : c ≠ 92)
      (h : StringBody raw s) : StringBody (c :: raw) (c :: s)
  | escape {c e : UInt8} {raw s : List UInt8} (hc : escaped c = some e) (h : StringBody raw s) :
      StringBody (92 :: c :: raw) (e :: s)
  | unit {a b c d : UInt8} {n : ℕ} {raw s : List UInt8} (hn : codeUnit a b c d = some n)
      (hzero : n ≠ 0) (hhi : ¬ IsHighSurrogate n) (hlo : ¬ IsLowSurrogate n) (h : StringBody raw s) :
      StringBody (92 :: 117 :: a :: b :: c :: d :: raw) (utf8 n ++ s)
  | pair {a b c d a' b' c' d' : UInt8} {hi lo : ℕ} {raw s : List UInt8}
      (hhi : codeUnit a b c d = some hi) (hlo : codeUnit a' b' c' d' = some lo)
      (hhigh : IsHighSurrogate hi) (hlow : IsLowSurrogate lo) (h : StringBody raw s) :
      StringBody (92 :: 117 :: a :: b :: c :: d :: 92 :: 117 :: a' :: b' :: c' :: d' :: raw)
        (utf8 (surrogatePair hi lo) ++ s)

/-- No double quote and no backslash. -/
def Clean (s : List UInt8) : Prop := 34 ∉ s ∧ 92 ∉ s

instance (s : List UInt8) : Decidable (Clean s) := inferInstanceAs (Decidable (_ ∧ _))

theorem clean_nil : Clean [] := by simp [Clean]

theorem clean_cons {c : UInt8} {s : List UInt8} :
    Clean (c :: s) ↔ c ≠ 34 ∧ c ≠ 92 ∧ Clean s := by
  simp only [Clean, List.mem_cons, not_or]
  grind

/-- A string that needs no escapes is written as it is. -/
theorem StringBody.of_clean {s : List UInt8} (h : Clean s) (hs : ∀ c ∈ s, 32 ≤ c) :
    StringBody s s := by
  induction s with
  | nil => exact .nil
  | cons c s ih =>
      obtain ⟨hquote, hslash, hclean⟩ := clean_cons.1 h
      exact .byte (hs c (by simp)) hquote hslash (ih hclean fun a ha => hs a (by simp [ha]))

/-- In front of a quote, bytes without quotes and backslashes are the whole string. -/
theorem StringBody.eq_of_clean {raw s : List UInt8} (h : StringBody raw s) {v r r' : List UInt8}
    (hv : Clean v) (heq : v ++ 34 :: r = raw ++ 34 :: r') : s = v ∧ r = r' := by
  induction h generalizing v with
  | nil =>
      cases v with
      | nil => simpa using heq
      | cons c v => exact absurd (List.cons.inj heq).1 (clean_cons.1 hv).1
  | @byte c raw s hc hquote hslash h ih =>
      cases v with
      | nil => exact absurd (List.cons.inj heq).1.symm hquote
      | cons c' v =>
          obtain ⟨hhead, htail⟩ := List.cons.inj heq
          obtain ⟨rfl, hr⟩ := ih (clean_cons.1 hv).2.2 htail
          exact ⟨by rw [hhead], hr⟩
  | _ =>
      cases v with
      | nil => exact absurd (List.cons.inj heq).1 (by decide)
      | cons c v => exact absurd (List.cons.inj heq).1 (clean_cons.1 hv).2.1

theorem escaped_ne {c e : UInt8} (h : escaped c = some e) : c ≠ 117 := by
  rintro rfl
  simp [escaped] at h

/-- Where a string ends and what it means does not depend on how it is read. -/
theorem StringBody.unique {raw s : List UInt8} (h : StringBody raw s) {raw' s' r r' : List UInt8}
    (h' : StringBody raw' s') (heq : raw ++ 34 :: r = raw' ++ 34 :: r') : s = s' ∧ r = r' := by
  induction h generalizing raw' s' with
  | nil => cases h' <;> simp_all
  | byte hc hquote hslash h ih =>
      cases h' with
      | byte hc' hquote' hslash' h' =>
          simp only [List.cons_append, List.cons.injEq] at heq
          obtain ⟨rfl, hr⟩ := ih h' heq.2
          exact ⟨by rw [heq.1], hr⟩
      | _ => simp_all
  | escape hc h ih =>
      cases h' with
      | escape hc' h' =>
          simp only [List.cons_append, List.cons.injEq, true_and] at heq
          obtain ⟨rfl, hr⟩ := ih h' heq.2
          rw [heq.1, hc'] at hc
          exact ⟨by rw [Option.some.inj hc], hr⟩
      | unit | pair =>
          simp only [List.cons_append, List.cons.injEq, true_and] at heq
          exact absurd heq.1 (escaped_ne hc)
      | _ => simp_all
  | unit hn hzero hhi hlo h ih =>
      cases h' with
      | unit hn' hzero' hhi' hlo' h' =>
          simp only [List.cons_append, List.cons.injEq, true_and] at heq
          obtain ⟨rfl, rfl, rfl, rfl, heq⟩ := heq
          obtain ⟨rfl, hr⟩ := ih h' heq
          rw [hn'] at hn
          exact ⟨by rw [Option.some.inj hn], hr⟩
      | escape hc' =>
          simp only [List.cons_append, List.cons.injEq, true_and] at heq
          exact absurd heq.1.symm (escaped_ne hc')
      | _ => simp_all
  | pair hhi hlo hhigh hlow h ih =>
      cases h' with
      | pair hhi' hlo' hhigh' hlow' h' =>
          simp only [List.cons_append, List.cons.injEq, true_and] at heq
          obtain ⟨rfl, rfl, rfl, rfl, rfl, rfl, rfl, rfl, heq⟩ := heq
          obtain ⟨rfl, hr⟩ := ih h' heq
          rw [hhi'] at hhi
          rw [hlo'] at hlo
          exact ⟨by rw [Option.some.inj hhi, Option.some.inj hlo], hr⟩
      | escape hc' =>
          simp only [List.cons_append, List.cons.injEq, true_and] at heq
          exact absurd heq.1.symm (escaped_ne hc')
      | _ => simp_all

/-! ### Tokens -/

inductive Scalar
  | str (s : List UInt8)
  | num (s : List UInt8)
  | bool (b : Bool)
  | null
  deriving DecidableEq

inductive Token
  | leftBrace
  | rightBrace
  | leftBracket
  | rightBracket
  | colon
  | comma
  | scalar (s : Scalar)
  deriving DecidableEq

def isSpace (c : UInt8) : Bool := c = 32 ∨ c = 9 ∨ c = 10 ∨ c = 13

def isDigit (c : UInt8) : Bool := 48 ≤ c ∧ c ≤ 57

/-- The bytes numbers are made of. -/
def isNumberByte (c : UInt8) : Bool := isDigit c ∨ c = 43 ∨ c = 45 ∨ c = 46 ∨ c = 69 ∨ c = 101

def punctuation (c : UInt8) : Option Token :=
  if c = 123 then some .leftBrace
  else if c = 125 then some .rightBrace
  else if c = 91 then some .leftBracket
  else if c = 93 then some .rightBracket
  else if c = 58 then some .colon
  else if c = 44 then some .comma
  else none

/-- `true`, `false` and `null`. -/
def literal (s : List UInt8) : Option Scalar :=
  if s = [116, 114, 117, 101] then some (.bool true)
  else if s = [102, 97, 108, 115, 101] then some (.bool false)
  else if s = [110, 117, 108, 108] then some .null
  else none

def Digits (s : List UInt8) : Prop := s ≠ [] ∧ ∀ c ∈ s, isDigit c

/-- A sign, digits that start with a zero only if there are no more of them, a fraction and an
exponent. -/
def IsNumber (s : List UInt8) : Prop :=
  ∃ sign int frac exp : List UInt8, s = sign ++ int ++ frac ++ exp ∧
    (sign = [] ∨ sign = [45]) ∧
    Digits int ∧ (int.head? = some 48 → int = [48]) ∧
    (frac = [] ∨ ∃ ds, frac = 46 :: ds ∧ Digits ds) ∧
    (exp = [] ∨ ∃ e sgn ds, exp = e :: sgn ++ ds ∧ (e = 69 ∨ e = 101) ∧
      (sgn = [] ∨ sgn = [43] ∨ sgn = [45]) ∧ Digits ds)

/-- The tokens of a text. A number ends where no more of it can follow. -/
inductive Lexes : List UInt8 → List Token → Prop
  | nil : Lexes [] []
  | space {c : UInt8} {r : List UInt8} {ts : List Token} (hc : isSpace c) (h : Lexes r ts) :
      Lexes (c :: r) ts
  | punct {c : UInt8} {t : Token} {r : List UInt8} {ts : List Token} (hc : punctuation c = some t)
      (h : Lexes r ts) : Lexes (c :: r) (t :: ts)
  | str {raw s r : List UInt8} {ts : List Token} (hs : StringBody raw s) (h : Lexes r ts) :
      Lexes (34 :: raw ++ 34 :: r) (.scalar (.str s) :: ts)
  | num {s r : List UInt8} {ts : List Token} (hs : IsNumber s)
      (hend : ∀ c ∈ r.head?, ¬ isNumberByte c) (h : Lexes r ts) :
      Lexes (s ++ r) (.scalar (.num s) :: ts)
  | literal {s : List UInt8} {v : Scalar} {r : List UInt8} {ts : List Token}
      (hs : literal s = some v) (h : Lexes r ts) : Lexes (s ++ r) (.scalar v :: ts)

theorem IsNumber.bytes {s : List UInt8} (h : IsNumber s) : ∀ c ∈ s, isNumberByte c := by
  obtain ⟨sign, int, frac, exp, rfl, hsign, hint, -, hfrac, hexp⟩ := h
  have hdigits : ∀ {ds : List UInt8}, Digits ds → ∀ c ∈ ds, isNumberByte c := by
    intro ds hds c hc
    simp [isNumberByte, hds.2 c hc]
  intro c hc
  simp only [List.mem_append] at hc
  obtain ((hc | hc) | hc) | hc := hc
  · obtain rfl | rfl := hsign <;> simp_all [isNumberByte]
  · exact hdigits hint c hc
  · obtain rfl | ⟨ds, rfl, hds⟩ := hfrac
    · simp at hc
    · obtain rfl | hc := List.mem_cons.1 hc
      · simp [isNumberByte]
      · exact hdigits hds c hc
  · obtain rfl | ⟨e, sgn, ds, rfl, he, hsgn, hds⟩ := hexp
    · simp at hc
    · simp only [List.cons_append, List.mem_cons, List.mem_append] at hc
      obtain rfl | hc | hc := hc
      · obtain rfl | rfl := he <;> simp [isNumberByte]
      · obtain rfl | rfl | rfl := hsgn <;> simp_all [isNumberByte]
      · exact hdigits hds c hc

theorem IsNumber.clean {s : List UInt8} (h : IsNumber s) : Clean s :=
  ⟨fun hc => absurd (h.bytes 34 hc) (by decide), fun hc => absurd (h.bytes 92 hc) (by decide)⟩

theorem IsNumber.exists_cons {s : List UInt8} (h : IsNumber s) :
    ∃ c s', s = c :: s' ∧ isNumberByte c := by
  have hbytes := h.bytes
  obtain ⟨sign, int, frac, exp, rfl, -, ⟨hint, -⟩, -⟩ := h
  rcases hs : sign ++ int ++ frac ++ exp with _ | ⟨c, s'⟩
  · simp_all
  · exact ⟨c, s', rfl, hbytes c (by rw [hs]; simp)⟩

/-! ### A text has one sequence of tokens -/

/-- Which rule reads on is decided by the next byte. -/
inductive Kind
  | space
  | punct
  | quote
  | number
  | word
  deriving DecidableEq

def kind (c : UInt8) : Kind :=
  if isSpace c then .space
  else if (punctuation c).isSome then .punct
  else if c = 34 then .quote
  else if isNumberByte c then .number
  else .word

theorem kind_space {c : UInt8} (h : isSpace c) : kind c = .space := by simp [kind, h]

theorem kind_punct {c : UInt8} {t : Token} (h : punctuation c = some t) : kind c = .punct := by
  have hspace : ¬ isSpace c := by
    intro hc
    simp only [isSpace, decide_eq_true_eq] at hc
    obtain rfl | rfl | rfl | rfl := hc <;> simp [punctuation] at h
  simp [kind, h, hspace]

theorem kind_number {c : UInt8} (h : isNumberByte c) : kind c = .number := by
  have hbyte : ∀ n : Fin 256, isNumberByte (UInt8.ofNat n) → kind (UInt8.ofNat n) = .number := by
    decide +kernel
  simpa using hbyte ⟨c.toNat, c.toNat_lt⟩ (by simpa using h)

theorem kind_word {s : List UInt8} {v : Scalar} (h : literal s = some v) :
    ∃ c s', s = c :: s' ∧ kind c = .word := by
  unfold literal at h
  split at h
  · rename_i hs
    exact ⟨_, _, hs, by decide⟩
  split at h
  · rename_i hs
    exact ⟨_, _, hs, by decide⟩
  split at h
  · rename_i hs
    exact ⟨_, _, hs, by decide⟩
  · cases h

section Inversion

variable {c : UInt8} {text r : List UInt8} {ts : List Token}

/-- What a rule makes of a text that is not empty, by the kind of its first byte. -/
theorem Lexes.cons_inv (h : Lexes (c :: r) ts) :
    match kind c with
    | .space => Lexes r ts
    | .punct => ∃ t ts', punctuation c = some t ∧ ts = t :: ts' ∧ Lexes r ts'
    | .quote => ∃ raw s r' ts', r = raw ++ 34 :: r' ∧ StringBody raw s ∧
        ts = .scalar (.str s) :: ts' ∧ Lexes r' ts'
    | .number => ∃ s r' ts', c :: r = s ++ r' ∧ IsNumber s ∧ (∀ c ∈ r'.head?, ¬ isNumberByte c) ∧
        ts = .scalar (.num s) :: ts' ∧ Lexes r' ts'
    | .word => ∃ s v r' ts', c :: r = s ++ r' ∧ Json.literal s = some v ∧
        ts = .scalar v :: ts' ∧ Lexes r' ts' := by
  generalize htext : c :: r = text at h
  cases h with
  | nil => simp at htext
  | space hc h =>
      obtain ⟨rfl, rfl⟩ := List.cons.inj htext
      rw [kind_space hc]
      exact h
  | punct hc h =>
      obtain ⟨rfl, rfl⟩ := List.cons.inj htext
      rw [kind_punct hc]
      exact ⟨_, _, hc, rfl, h⟩
  | str hs h =>
      obtain ⟨rfl, rfl⟩ := List.cons.inj htext
      exact ⟨_, _, _, _, rfl, hs, rfl, h⟩
  | num hs hend h =>
      obtain ⟨c', s', rfl, hc'⟩ := hs.exists_cons
      obtain ⟨rfl, rfl⟩ := List.cons.inj htext
      rw [kind_number hc']
      exact ⟨_, _, _, rfl, hs, hend, rfl, h⟩
  | literal hs h =>
      obtain ⟨c', s', rfl, hc'⟩ := kind_word hs
      obtain ⟨rfl, rfl⟩ := List.cons.inj htext
      rw [hc']
      exact ⟨_, _, _, _, rfl, hs, rfl, h⟩

theorem Lexes.space_inv (hc : isSpace c) (h : Lexes (c :: r) ts) : Lexes r ts := by
  simpa only [kind_space hc] using h.cons_inv

theorem Lexes.punct_inv {t : Token} (hc : punctuation c = some t) (h : Lexes (c :: r) ts) :
    ∃ ts', ts = t :: ts' ∧ Lexes r ts' := by
  have hinv := h.cons_inv
  simp only [kind_punct hc] at hinv
  obtain ⟨t', ts', ht', rfl, hr⟩ := hinv
  obtain rfl := Option.some.inj (hc.symm.trans ht')
  exact ⟨ts', rfl, hr⟩

theorem Lexes.quote_inv (h : Lexes (34 :: r) ts) : ∃ raw s r' ts', r = raw ++ 34 :: r' ∧
    StringBody raw s ∧ ts = .scalar (.str s) :: ts' ∧ Lexes r' ts' :=
  h.cons_inv

theorem Lexes.str_inv {raw s : List UInt8} (hs : StringBody raw s)
    (h : Lexes (34 :: raw ++ 34 :: r) ts) : ∃ ts', ts = .scalar (.str s) :: ts' ∧ Lexes r ts' := by
  obtain ⟨raw', s', r', ts', heq, hs', rfl, hr⟩ := h.quote_inv
  obtain ⟨rfl, rfl⟩ := hs.unique hs' heq
  exact ⟨ts', rfl, hr⟩

/-- A number is as long as it can be. -/
theorem IsNumber.eq_takeWhile {s : List UInt8} (h : IsNumber s)
    (hend : ∀ c ∈ r.head?, ¬ isNumberByte c) : (s ++ r).takeWhile isNumberByte = s := by
  rw [List.takeWhile_append_of_pos h.bytes]
  cases r with
  | nil => simp
  | cons c r => simp [hend c rfl]

theorem Lexes.num_inv {s : List UInt8} (hs : IsNumber s) (hend : ∀ c ∈ r.head?, ¬ isNumberByte c)
    (h : Lexes (s ++ r) ts) : ∃ ts', ts = .scalar (.num s) :: ts' ∧ Lexes r ts' := by
  obtain ⟨c, s', hcons, hc⟩ := hs.exists_cons
  rw [hcons, List.cons_append] at h
  have hinv := h.cons_inv
  simp only [kind_number hc] at hinv
  obtain ⟨t, r', ts', heq, ht, hend', rfl, hr⟩ := hinv
  rw [← List.cons_append, ← hcons] at heq
  have hst : s = t := by rw [← hs.eq_takeWhile hend, heq, ht.eq_takeWhile hend']
  rw [hst] at heq ⊢
  exact ⟨ts', rfl, List.append_cancel_left heq ▸ hr⟩

/-- No two words start alike. -/
theorem literal_eq {s t r r' : List UInt8} {v w : Scalar} (hs : literal s = some v)
    (ht : literal t = some w) (heq : s ++ r = t ++ r') : v = w ∧ r = r' := by
  unfold literal at hs ht
  grind

theorem Lexes.literal_inv {s : List UInt8} {v : Scalar} (hs : Json.literal s = some v)
    (h : Lexes (s ++ r) ts) : ∃ ts', ts = .scalar v :: ts' ∧ Lexes r ts' := by
  obtain ⟨c, s', rfl, hc⟩ := kind_word hs
  have hinv := h.cons_inv
  simp only [hc] at hinv
  obtain ⟨t, w, r', ts', heq, ht, rfl, hr⟩ := hinv
  obtain ⟨rfl, rfl⟩ := literal_eq hs ht heq
  exact ⟨ts', rfl, hr⟩

end Inversion

theorem Lexes.unique {text : List UInt8} {ts ts' : List Token} (h : Lexes text ts)
    (h' : Lexes text ts') : ts = ts' := by
  induction h generalizing ts' with
  | nil =>
      generalize htext : [] = text at h'
      cases h' with
      | nil => rfl
      | num hs =>
          obtain ⟨c, s, rfl, -⟩ := hs.exists_cons
          cases htext
      | literal hs =>
          obtain ⟨c, s, rfl, -⟩ := kind_word hs
          cases htext
      | _ => cases htext
  | space hc h ih => exact ih (h'.space_inv hc)
  | punct hc h ih =>
      obtain ⟨ts', rfl, hr⟩ := h'.punct_inv hc
      rw [ih hr]
  | str hs h ih =>
      obtain ⟨ts', rfl, hr⟩ := h'.str_inv hs
      rw [ih hr]
  | num hs hend h ih =>
      obtain ⟨ts', rfl, hr⟩ := h'.num_inv hs hend
      rw [ih hr]
  | literal hs h ih =>
      obtain ⟨ts', rfl, hr⟩ := h'.literal_inv hs
      rw [ih hr]

/-! ### Values -/

mutual

inductive Value
  | scalar (s : Scalar)
  | array (vs : Elements)
  | object (ms : Members)

inductive Elements
  | nil
  | cons (v : Value) (vs : Elements)

inductive Members
  | nil
  | cons (name : List UInt8) (v : Value) (ms : Members)

end

def Elements.separator : Elements → List Token
  | .nil => []
  | .cons .. => [.comma]

def Members.separator : Members → List Token
  | .nil => []
  | .cons .. => [.comma]

mutual

def Value.tokens : Value → List Token
  | .scalar s => [.scalar s]
  | .array vs => .leftBracket :: vs.tokens
  | .object ms => .leftBrace :: ms.tokens

/-- The elements up to the bracket that closes them. -/
def Elements.tokens : Elements → List Token
  | .nil => [.rightBracket]
  | .cons v vs => v.tokens ++ (vs.separator ++ vs.tokens)

/-- The members up to the brace that closes them. -/
def Members.tokens : Members → List Token
  | .nil => [.rightBrace]
  | .cons name v ms =>
    .scalar (.str name) :: .colon :: (v.tokens ++ (ms.separator ++ ms.tokens))

end

inductive Event
  | objectStart
  | arrayStart
  | fieldStart (name : List UInt8)
  | scalar (s : Scalar)
  deriving DecidableEq

mutual

def Value.events : Value → List Event
  | .scalar s => [.scalar s]
  | .array vs => .arrayStart :: vs.events
  | .object ms => .objectStart :: ms.events

def Elements.events : Elements → List Event
  | .nil => []
  | .cons v vs => v.events ++ vs.events

def Members.events : Members → List Event
  | .nil => []
  | .cons name v ms => .fieldStart name :: (v.events ++ ms.events)

end

/-- The token a value starts with. -/
def Value.first : Value → Token
  | .scalar s => .scalar s
  | .array _ => .leftBracket
  | .object _ => .leftBrace

theorem Value.exists_tokens (v : Value) : ∃ ts, v.tokens = v.first :: ts := by
  cases v <;> exact ⟨_, by rw [Value.tokens]; rfl⟩

theorem Value.first_ne_rightBracket (v : Value) : v.first ≠ .rightBracket := by
  cases v <;> simp [Value.first]

/-! A value is known from its tokens, whatever follows them. -/

mutual

theorem Value.tokens_append_inj (v v' : Value) {r r' : List Token}
    (h : v.tokens ++ r = v'.tokens ++ r') : v = v' ∧ r = r' := by
  match v, v' with
  | .scalar s, .scalar s' =>
      simp only [Value.tokens, List.cons_append, List.nil_append, List.cons.injEq,
        Token.scalar.injEq] at h
      exact ⟨by rw [h.1], h.2⟩
  | .array vs, .array vs' =>
      simp only [Value.tokens, List.cons_append, List.cons.injEq, true_and] at h
      obtain ⟨rfl, hr⟩ := Elements.tokens_append_inj vs vs' h
      exact ⟨rfl, hr⟩
  | .object ms, .object ms' =>
      simp only [Value.tokens, List.cons_append, List.cons.injEq, true_and] at h
      obtain ⟨rfl, hr⟩ := Members.tokens_append_inj ms ms' h
      exact ⟨rfl, hr⟩
  | .scalar _, .array _ | .scalar _, .object _ | .array _, .scalar _ | .array _, .object _
  | .object _, .scalar _ | .object _, .array _ => simp [Value.tokens] at h

theorem Elements.tokens_append_inj (vs vs' : Elements) {r r' : List Token}
    (h : vs.tokens ++ r = vs'.tokens ++ r') : vs = vs' ∧ r = r' := by
  match vs, vs' with
  | .nil, .nil => simpa [Elements.tokens] using h
  | .nil, .cons v' vs' =>
      obtain ⟨ts, hts⟩ := v'.exists_tokens
      simp only [Elements.tokens, hts, List.cons_append, List.cons.injEq] at h
      exact absurd h.1.symm v'.first_ne_rightBracket
  | .cons v vs, .nil =>
      obtain ⟨ts, hts⟩ := v.exists_tokens
      simp only [Elements.tokens, hts, List.cons_append, List.cons.injEq] at h
      exact absurd h.1 v.first_ne_rightBracket
  | .cons v vs, .cons v' vs' =>
      simp only [Elements.tokens, List.append_assoc] at h
      obtain ⟨rfl, h⟩ := Value.tokens_append_inj v v' h
      have hvs : vs.tokens ++ r = vs'.tokens ++ r' := by
        cases vs <;> cases vs' <;> simp_all [Elements.separator, Elements.tokens]
      obtain ⟨rfl, hr⟩ := Elements.tokens_append_inj vs vs' hvs
      exact ⟨rfl, hr⟩

theorem Members.tokens_append_inj (ms ms' : Members) {r r' : List Token}
    (h : ms.tokens ++ r = ms'.tokens ++ r') : ms = ms' ∧ r = r' := by
  match ms, ms' with
  | .nil, .nil => simpa [Members.tokens] using h
  | .nil, .cons .. | .cons .., .nil => simp [Members.tokens] at h
  | .cons name v ms, .cons name' v' ms' =>
      simp only [Members.tokens, List.cons_append, List.cons.injEq, Token.scalar.injEq,
        Scalar.str.injEq, true_and, List.append_assoc] at h
      obtain ⟨rfl, h⟩ := h
      obtain ⟨rfl, h⟩ := Value.tokens_append_inj v v' h
      have hms : ms.tokens ++ r = ms'.tokens ++ r' := by
        cases ms <;> cases ms' <;> simp_all [Members.separator, Members.tokens]
      obtain ⟨rfl, hr⟩ := Members.tokens_append_inj ms ms' hms
      exact ⟨rfl, hr⟩

end

theorem Value.tokens_inj {v v' : Value} (h : v.tokens = v'.tokens) : v = v' :=
  (Value.tokens_append_inj v v' (congrArg (· ++ []) h)).1

/-! ### Parsers -/

/-- A parser that accepts the JSON texts and reports what is in them in document order. -/
structure Standard (parse : List UInt8 → Option (List Event)) : Prop where
  sound : ∀ {text es}, parse text = some es → ∃ v : Value, Lexes text v.tokens ∧ es = v.events
  complete : ∀ {text} {v : Value}, Lexes text v.tokens → parse text = some v.events

open Classical in
/-- The parser that is given by the grammar. -/
noncomputable def parser (text : List UInt8) : Option (List Event) :=
  if h : ∃ v : Value, Lexes text v.tokens then some h.choose.events else none

/-- There is a standard parser, because no text is the text of two values. -/
theorem parser_standard : Standard parser where
  sound := by
    intro text es h
    unfold parser at h
    split at h
    · rename_i hv
      exact ⟨hv.choose, hv.choose_spec, (Option.some.inj h).symm⟩
    · cases h
  complete := by
    intro text v hv
    have hex : ∃ v : Value, Lexes text v.tokens := ⟨v, hv⟩
    rw [parser, dif_pos hex, Value.tokens_inj (hex.choose_spec.unique hv)]

/-! ### Objects of scalars -/

/-- The object with these members. -/
def flat : List (List UInt8 × Scalar) → Members
  | [] => .nil
  | (name, s) :: ms => .cons name (.scalar s) (flat ms)

theorem flat_inj {ms ms' : List (List UInt8 × Scalar)} (h : flat ms = flat ms') : ms = ms' := by
  induction ms generalizing ms' with
  | nil =>
      cases ms' with
      | nil => rfl
      | cons m' ms' => cases h
  | cons m ms ih =>
      cases ms' with
      | nil => cases h
      | cons m' ms' =>
          obtain ⟨name, s⟩ := m
          obtain ⟨name', s'⟩ := m'
          simp only [flat, Members.cons.injEq, Value.scalar.injEq] at h
          obtain ⟨rfl, rfl, h⟩ := h
          rw [ih h]

/-- A text is the text of one value. -/
theorem Lexes.value_unique {text : List UInt8} {v v' : Value} (h : Lexes text v.tokens)
    (h' : Lexes text v'.tokens) : v = v' :=
  Value.tokens_inj (h.unique h')

/-! ### Escapes shorten -/

/-- The backslashes and the letters `u`. -/
def weight (s : List UInt8) : ℕ := s.countP fun c => c = 92 ∨ c = 117

@[simp] theorem weight_nil : weight [] = 0 := rfl

@[simp] theorem weight_append (s s' : List UInt8) : weight (s ++ s') = weight s + weight s' :=
  List.countP_append

theorem weight_cons (c : UInt8) (s : List UInt8) :
    weight (c :: s) = weight s + if c = 92 ∨ c = 117 then 1 else 0 := by
  simp [weight, List.countP_cons]

theorem weight_utf8 (n : ℕ) : weight (utf8 n) ≤ 1 := by
  have hhigh : ∀ m : ℕ, 128 ≤ m → m < 256 → ¬ (UInt8.ofNat m = 92 ∨ UInt8.ofNat m = 117) := by
    intro m hm hlt h
    obtain h | h := h
    all_goals
      have hnat := congrArg UInt8.toNat h
      simp at hnat
      omega
  unfold utf8 String.utf8EncodeChar
  simp only
  split
  · rw [weight_cons]
    split <;> simp
  split
  · rw [weight_cons, weight_cons, if_neg (hhigh _ (by omega) (by omega)),
      if_neg (hhigh _ (by omega) (by omega))]
    simp
  split
  · rw [weight_cons, weight_cons, weight_cons, if_neg (hhigh _ (by omega) (by omega)),
      if_neg (hhigh _ (by omega) (by omega)), if_neg (hhigh _ (by omega) (by omega))]
    simp
  · rw [weight_cons, weight_cons, weight_cons, weight_cons,
      if_neg (hhigh _ (by omega) (by omega)), if_neg (hhigh _ (by omega) (by omega)),
      if_neg (hhigh _ (by omega) (by omega)), if_neg (hhigh _ (by omega) (by omega))]
    simp

theorem weight_escaped {c e : UInt8} (h : escaped c = some e) : weight [e] ≤ weight [c] := by
  unfold escaped at h
  split at h
  · rw [Option.some.inj h]
  · have he : weight [e] = 0 := by
      repeat' split at h
      all_goals cases h
      all_goals rfl
    omega

/-- Decoding never adds, and where it takes nothing away there was nothing to decode. -/
theorem StringBody.weight_le {raw s : List UInt8} (h : StringBody raw s) :
    weight s ≤ weight raw ∧ (weight s = weight raw → Clean s) := by
  induction h with
  | nil => exact ⟨le_rfl, fun _ => clean_nil⟩
  | byte hc hquote hslash h ih =>
      rw [weight_cons, weight_cons]
      exact ⟨by omega, fun heq => clean_cons.2 ⟨hquote, hslash, ih.2 (by omega)⟩⟩
  | @escape c e raw s hc h ih =>
      have hce := weight_escaped hc
      have hslash : weight [92] = 1 := rfl
      have hraw : weight (92 :: c :: raw) = weight [92] + (weight [c] + weight raw) := by
        rw [← weight_append, ← weight_append]
        rfl
      have hs : weight (e :: s) = weight [e] + weight s := weight_append [e] s
      omega
  | @unit a b c d n raw s hn hzero hhi hlo h ih =>
      have hutf8 := weight_utf8 n
      have hslash : weight [92, 117] = 2 := rfl
      have hraw : weight (92 :: 117 :: a :: b :: c :: d :: raw) =
          weight [92, 117] + (weight [a, b, c, d] + weight raw) := by
        rw [← weight_append, ← weight_append]
        rfl
      have hs := weight_append (utf8 n) s
      omega
  | @pair a b c d a' b' c' d' hi lo raw s hhi hlo hhigh hlow h ih =>
      have hutf8 := weight_utf8 (surrogatePair hi lo)
      have hslash : weight [92, 117] = 2 := rfl
      have hraw : weight (92 :: 117 :: a :: b :: c :: d :: 92 :: 117 :: a' :: b' :: c' :: d' :: raw) =
          weight [92, 117] + (weight [a, b, c, d, 92, 117, a', b', c', d'] + weight raw) := by
        rw [← weight_append, ← weight_append]
        rfl
      have hs := weight_append (utf8 (surrogatePair hi lo)) s
      omega

def Scalar.weight : Scalar → ℕ
  | .str s => Json.weight s
  | .num s => Json.weight s
  | .bool _ => 0
  | .null => 0

def Token.weight : Token → ℕ
  | .scalar s => s.weight
  | _ => 0

def tokensWeight (ts : List Token) : ℕ := (ts.map Token.weight).sum

@[simp] theorem tokensWeight_nil : tokensWeight [] = 0 := rfl

@[simp] theorem tokensWeight_cons (t : Token) (ts : List Token) :
    tokensWeight (t :: ts) = t.weight + tokensWeight ts := by
  simp [tokensWeight]

@[simp] theorem tokensWeight_append (ts ts' : List Token) :
    tokensWeight (ts ++ ts') = tokensWeight ts + tokensWeight ts' := by
  simp [tokensWeight]

/-- A text has at least the weight of these tokens, and if it has no more of it then the strings among
them are clean. -/
structure Weighs (text : List UInt8) (ts : List Token) : Prop where
  le : tokensWeight ts ≤ weight text
  clean : tokensWeight ts = weight text → ∀ s, .scalar (.str s) ∈ ts → Clean s

theorem Weighs.append {text text' : List UInt8} {ts ts' : List Token} (h : Weighs text ts)
    (h' : Weighs text' ts') : Weighs (text ++ text') (ts ++ ts') where
  le := by
    rw [tokensWeight_append, weight_append]
    exact Nat.add_le_add h.le h'.le
  clean := by
    intro heq s hs
    rw [tokensWeight_append, weight_append] at heq
    have hle := h.le
    have hle' := h'.le
    obtain hs | hs := List.mem_append.1 hs
    · exact h.clean (by omega) s hs
    · exact h'.clean (by omega) s hs

/-- Tokens without strings and without weight of their own. -/
theorem Weighs.of_zero {text : List UInt8} {t : Token} (h : t.weight = 0)
    (hstr : ∀ s, t ≠ .scalar (.str s)) : Weighs text [t] where
  le := by simp [h]
  clean := fun _ s hs => absurd (List.mem_singleton.1 hs).symm (hstr s)

theorem weighs_punct {c : UInt8} {t : Token} (h : punctuation c = some t) : Weighs [c] [t] := by
  unfold punctuation at h
  repeat' split at h
  all_goals cases h
  all_goals exact .of_zero rfl (by simp)

theorem weighs_literal {s : List UInt8} {v : Scalar} (h : literal s = some v) :
    Weighs s [.scalar v] := by
  unfold literal at h
  repeat' split at h
  all_goals cases h
  all_goals exact .of_zero rfl (by simp)

theorem weighs_str {raw s : List UInt8} (h : StringBody raw s) :
    Weighs (34 :: raw ++ [34]) [.scalar (.str s)] := by
  obtain ⟨hle, hclean⟩ := h.weight_le
  have htext : weight (34 :: raw ++ [34]) = weight raw := by simp [weight_cons]
  have htoken : tokensWeight [.scalar (.str s)] = weight s := by
    simp [Token.weight, Scalar.weight]
  constructor
  · omega
  · intro heq s' hs'
    obtain ⟨⟩ := List.mem_singleton.1 hs'
    exact hclean (by omega)

theorem Lexes.weighs {text : List UInt8} {ts : List Token} (h : Lexes text ts) :
    Weighs text ts := by
  induction h with
  | nil => exact ⟨le_rfl, by simp⟩
  | @space c r ts hc h ih =>
      have hspace : Weighs [c] [] := ⟨by simp, by simp⟩
      exact hspace.append ih
  | punct hc h ih => exact (weighs_punct hc).append ih
  | @str raw s r ts hs h ih =>
      have hstr := (weighs_str hs).append ih
      rwa [List.append_assoc] at hstr
  | @num s r ts hs hend h ih =>
      have hnum : Weighs s [.scalar (.num s)] :=
        ⟨by simp [Token.weight, Scalar.weight], by simp⟩
      exact hnum.append ih
  | literal hs h ih => exact (weighs_literal hs).append ih

theorem Lexes.isNumber {text s : List UInt8} {ts : List Token} (h : Lexes text ts)
    (hs : .scalar (.num s) ∈ ts) : IsNumber s := by
  induction h with
  | nil => simp at hs
  | space hc h ih => exact ih hs
  | punct hc h ih =>
      obtain rfl | hs := List.mem_cons.1 hs
      · simp only [punctuation] at hc
        grind
      · exact ih hs
  | str hraw h ih => exact ih (by simpa using hs)
  | num hnum hend h ih =>
      obtain heq | hs := List.mem_cons.1 hs
      · rwa [Scalar.num.inj (Token.scalar.inj heq)]
      · exact ih hs
  | literal hv h ih =>
      obtain heq | hs := List.mem_cons.1 hs
      · rw [← Token.scalar.inj heq, Json.literal] at hv
        grind
      · exact ih hs

end Lib.Json
