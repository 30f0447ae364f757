import OpenPgTde.Xlog.Smgr

/-!
`TDEXLogCryptBuffer` against what it is for.

The key cache is a list of ranges, and some of them have a start. If these increase, each ending
where the next one starts and the last one at the maximum, then a location is in one of them at
most, and the loop is a function of single bytes: a byte is added to the key stream of the range that
has its location, if that is an encrypted one. So a segment can be cut into buffers in any way. The
places of the part that a turn of the loop encrypts are within the buffer, as the assertions in the
loop say.
-/

namespace OpenPgTde

open Lib.Breakpoints

/-- The ranges that the loop of `TDEXLogCryptBuffer` does not pass over for their start. -/
def validRanges (keys : List WalEncryptionRange) : List WalEncryptionRange :=
  keys.filter fun r => walLocationValid r.start

/-- The range has a start, and has the location. -/
def WalEncryptionRange.Contains (r : WalEncryptionRange) (l : WalLocation) : Prop :=
  walLocationValid r.start = true ∧ r.start ≤ l ∧ l < r.stop

instance (r : WalEncryptionRange) (l : WalLocation) : Decidable (r.Contains l) :=
  inferInstanceAs (Decidable (_ ∧ _ ∧ _))

/-- The ranges that have a start, within what 32 and 64 bits can number, follow each other without a
gap. -/
structure RangesFollow (keys : List WalEncryptionRange) : Prop where
  follow : (validRanges keys).IsChain fun r r' => r.start < r'.start ∧ r.stop = r'.start
  last : ∀ r ∈ (validRanges keys).getLast?, r.stop = maxWalLocation
  bounded : ∀ r ∈ validRanges keys, r.start ≤ maxWalLocation

/-- What becomes of the byte `b` at the place `a`: the specification. -/
def specByte (aes : BlockCipher) (sz : WalSegSz) (keys : List WalEncryptionRange) (a : SegPos)
    (b : UInt8) : UInt8 :=
  match keys.find? fun r => r.Contains (a.location sz) with
  | some r => if r.type = .encrypted then b ^^^ r.stream aes a else b
  | none => b

/-- The calls for the pieces of a buffer, one after the other. -/
def cryptPieces (aes : BlockCipher) (sz : WalSegSz) (inPlace : Bool)
    (keys : List WalEncryptionRange) : SegPos → List (List UInt8) → List UInt8
  | _, [] => []
  | a, piece :: pieces =>
    cryptKeys aes sz a inPlace keys piece ++
      cryptPieces aes sz inPlace keys (a.advance piece.length) pieces

section Follow

variable {aes : BlockCipher} {sz : WalSegSz} {a : SegPos} {keys : List WalEncryptionRange}
  {r : WalEncryptionRange} {buf : List UInt8}

/-! ### A location is in one range at most -/

/-- The range is over when the other one starts. -/
def WalEncryptionRange.Precedes (r r' : WalEncryptionRange) : Prop :=
  r.start < r'.start ∧ r.stop ≤ r'.start

instance : IsTrans WalEncryptionRange WalEncryptionRange.Precedes where
  trans _ _ _ h h' := ⟨h.1.trans h'.1, (h.2.trans_lt h'.1).le⟩

theorem mem_validRanges : r ∈ validRanges keys ↔ r ∈ keys ∧ walLocationValid r.start = true :=
  List.mem_filter

theorem RangesFollow.pairwise (h : RangesFollow keys) :
    (validRanges keys).Pairwise WalEncryptionRange.Precedes := by
  have hchain : (validRanges keys).IsChain WalEncryptionRange.Precedes :=
    h.follow.imp fun r r' hr => ⟨hr.1, hr.2.le⟩
  exact hchain.pairwise

/-- The two ranges do not both have the location. -/
def ApartAt (l : WalLocation) (r r' : WalEncryptionRange) : Prop := ¬(r.Contains l ∧ r'.Contains l)

instance (l : WalLocation) : Std.Symm (ApartAt l) where
  symm _ _ h h' := h h'.symm

theorem RangesFollow.apart (h : RangesFollow keys) (l : WalLocation) :
    keys.Pairwise (ApartAt l) := by
  have hpair := List.pairwise_filter.1 h.pairwise
  refine hpair.imp fun {r r'} hr ⟨hl, hl'⟩ => ?_
  have hle := (hr hl.1 hl'.1).2
  exact absurd (hl.2.2.trans_le (hle.trans hl'.2.1)) (lt_irrefl l)

theorem RangesFollow.unique (h : RangesFollow keys) {l : WalLocation} {r r' : WalEncryptionRange}
    (hr : r ∈ keys) (hr' : r' ∈ keys) (hl : r.Contains l) (hl' : r'.Contains l) : r = r' := by
  by_contra hne
  exact (h.apart l).forall hr hr' hne ⟨hl, hl'⟩

/-- A range does not end before it starts, and only one that starts at the maximum is empty. -/
theorem RangesFollow.start_lt_stop (h : RangesFollow keys) (hr : r ∈ validRanges keys) :
    r.start < r.stop ∨ r.stop = maxWalLocation := by
  have hgo : ∀ l : List WalEncryptionRange,
      l.IsChain (fun r r' => r.start < r'.start ∧ r.stop = r'.start) →
      (∀ r ∈ l.getLast?, r.stop = maxWalLocation) →
      ∀ r ∈ l, r.start < r.stop ∨ r.stop = maxWalLocation := by
    intro l hchain hlast r hr
    induction l with
    | nil => cases hr
    | cons r₁ l ih =>
        cases l with
        | nil =>
            rw [List.mem_singleton.1 hr]
            exact .inr (hlast r₁ rfl)
        | cons r₂ l =>
            rw [List.isChain_cons_cons] at hchain
            obtain rfl | hr := List.mem_cons.1 hr
            · left
              rw [hchain.1.2]
              exact hchain.1.1
            · exact ih hchain.2 (by simpa using hlast) hr
  exact hgo _ h.follow h.last r hr

theorem RangesFollow.start_le_stop (h : RangesFollow keys) (hr : r ∈ validRanges keys) :
    r.start ≤ r.stop := by
  obtain hlt | hmax := h.start_lt_stop hr
  · exact hlt.le
  · rw [hmax]
    exact h.bounded r hr

/-! ### The loop and the specification -/

theorem WalEncryptionRange.covers_iff {l : WalLocation} :
    r.Covers l ↔ r.Contains l ∧ r.type = .encrypted := by
  unfold WalEncryptionRange.Covers WalEncryptionRange.Contains
  tauto

/-- Ranges that do not have the location leave the byte as it is. -/
theorem cryptByte_of_forall_not (inPlace : Bool) (b c : UInt8)
    (h : ∀ r ∈ keys, ¬r.Contains (a.location sz)) :
    keys.foldl (fun c r => if r.Covers (a.location sz) then
      (if inPlace then c else b) ^^^ r.stream aes a else c) c = c := by
  induction keys with
  | nil => rfl
  | cons r keys ih =>
      have hr : ¬r.Covers (a.location sz) := fun hc =>
        h r List.mem_cons_self (WalEncryptionRange.covers_iff.1 hc).1
      rw [List.foldl_cons, if_neg hr]
      exact ih fun r' hr' => h r' (List.mem_cons_of_mem r hr')

/-- A byte meets at most one range. -/
theorem cryptByte_eq_specByte (h : keys.Pairwise (ApartAt (a.location sz))) (inPlace : Bool)
    (b : UInt8) : cryptByte aes sz inPlace keys a b = specByte aes sz keys a b := by
  induction keys with
  | nil => rfl
  | cons r keys ih =>
      rw [List.pairwise_cons] at h
      unfold cryptByte specByte
      rw [List.foldl_cons, List.find?_cons]
      by_cases hc : r.Contains (a.location sz)
      · -- the ranges behind this one do not have the location
        have hrest : ∀ r' ∈ keys, ¬r'.Contains (a.location sz) := fun r' hr' hc' =>
          h.1 r' hr' ⟨hc, hc'⟩
        rw [cryptByte_of_forall_not inPlace b _ hrest]
        by_cases ht : r.type = .encrypted <;> cases inPlace <;>
          simp [WalEncryptionRange.covers_iff, hc, ht]
      · simp only [WalEncryptionRange.covers_iff, hc, false_and, if_false, decide_false]
        have hih := ih h.2
        unfold cryptByte specByte at hih
        simpa only [WalEncryptionRange.covers_iff] using hih

theorem RangesFollow.cryptKeys_eq (h : RangesFollow keys) (hseg : InSegment sz a buf.length)
    (inPlace : Bool) :
    cryptKeys aes sz a inPlace keys buf =
      buf.mapIdx fun i b => specByte aes sz keys (a.advance i) b := by
  rw [OpenPgTde.cryptKeys_eq hseg inPlace fun r hr hv => h.start_le_stop (mem_validRanges.2 ⟨hr, hv⟩)]
  congr 1
  ext i b
  rw [cryptByte_eq_specByte (h.apart _)]

/-! ### The part of a turn -/

theorem InSegment.end_le_max {count : ℕ} (h : InSegment sz a count) :
    (a.advance count).location sz ≤ maxWalLocation := by
  have htli : ((a.advance count).location sz).tli = a.tli := rfl
  have := h.timeline
  have := h.address
  rw [WalLocation.le_iff, h.lsn le_rfl, htli]
  simp only [maxWalLocation]
  omega

/-- What the assertions of the loop say. -/
theorem RangesFollow.decPart {count : ℕ} (h : RangesFollow keys) (hseg : InSegment sz a count)
    (hcount : 0 < count) (hr : r ∈ validRanges keys) (ho : overlapsData sz a count r = true) :
    a.offset ≤ decOff sz a r ∧ decOff sz a r < decEnd sz a count r ∧
      decEnd sz a count r ≤ a.offset + count := by
  obtain ⟨h₁, -, h₂, hne, -⟩ := decPart_spec hseg hcount (h.start_le_stop hr) ho
  refine ⟨h₁, hne ?_, h₂⟩
  obtain hlt | hmax := h.start_lt_stop hr
  · exact hlt
  · -- nothing of the buffer is behind the maximum
    simp only [overlapsData, Bool.and_eq_true, decide_eq_true_eq, walLocationCmp_gt] at ho
    rw [hmax]
    exact ho.2.trans_le hseg.end_le_max

/-! ### Pieces -/

theorem InSegment.piece {front back : ℕ} (h : InSegment sz a (front + back)) :
    InSegment sz a front ∧ InSegment sz (a.advance front) back := by
  have := h.segment
  have := h.address
  refine ⟨⟨h.timeline, by omega, by omega⟩, ⟨h.timeline, ?_, ?_⟩⟩ <;>
    simp only [SegPos.advance] <;> omega

theorem RangesFollow.cryptPieces_eq (aes : BlockCipher) (h : RangesFollow keys) (inPlace : Bool)
    (pieces : List (List UInt8)) (hseg : InSegment sz a pieces.flatten.length) :
    cryptPieces aes sz inPlace keys a pieces = cryptKeys aes sz a inPlace keys pieces.flatten := by
  induction pieces generalizing a with
  | nil =>
      rw [h.cryptKeys_eq hseg]
      rfl
  | cons piece pieces ih =>
      rw [List.flatten_cons, List.length_append] at hseg
      obtain ⟨hfront, hback⟩ := hseg.piece
      rw [List.flatten_cons, h.cryptKeys_eq (by rwa [List.length_append]), cryptPieces,
        h.cryptKeys_eq hfront, ih hback, h.cryptKeys_eq hback, List.mapIdx_append]
      simp only [SegPos.advance_advance, Nat.add_comm]

end Follow

/-- `TDEXLogCryptBuffer` is its specification, byte by byte: a location is in one range at most, the
loop treats each byte as that range says, and so does a call with the list that its refresh leaves;
the parts it encrypts are in the buffer and not empty; and it does not matter how a buffer is cut
into pieces. -/
theorem crypt_buffer_per_byte (aes : BlockCipher) {sz : WalSegSz} {keys : List WalEncryptionRange}
    {a : SegPos} {buf : List UInt8} (hk : RangesFollow keys) (hseg : InSegment sz a buf.length)
    (inPlace : Bool) :
    (∀ l, ∀ r ∈ keys, ∀ r' ∈ keys, r.Contains l → r'.Contains l → r = r') ∧
    cryptKeys aes sz a inPlace keys buf =
      (buf.mapIdx fun i b => specByte aes sz keys (a.advance i) b) ∧
    (∀ w x y out, xLogCryptBuffer w aes sz a inPlace buf x = .ok out y →
      y.process.cache = keys →
      out = buf.mapIdx fun i b => specByte aes sz keys (a.advance i) b) ∧
    (buf ≠ [] → ∀ r ∈ keys, walLocationValid r.start = true → r.type = .encrypted →
      overlapsData sz a buf.length r = true →
      a.offset ≤ decOff sz a r ∧ decOff sz a r < decEnd sz a buf.length r ∧
        decEnd sz a buf.length r ≤ a.offset + buf.length) ∧
    (∀ pieces : List (List UInt8), pieces.flatten = buf →
      cryptPieces aes sz inPlace keys a pieces = cryptKeys aes sz a inPlace keys buf) := by
  refine ⟨fun l r hr r' hr' => hk.unique hr hr', hk.cryptKeys_eq hseg inPlace, ?_, ?_, ?_⟩
  · intro w x y out hcall hcache
    simp only [xLogCryptBuffer, bind, EStateM.bind] at hcall
    cases href : refreshWalKeys w x with
    | error e z =>
        rw [href] at hcall
        cases hcall
    | ok u z =>
        rw [href] at hcall
        obtain ⟨rfl, rfl⟩ : cryptKeys aes sz a inPlace z.process.cache buf = out ∧ z = y := by
          cases hcall
          exact ⟨rfl, rfl⟩
        rw [hcache]
        exact hk.cryptKeys_eq hseg inPlace
  · intro hne r hr hvalid _ ho
    exact hk.decPart hseg (List.length_pos_of_ne_nil hne) (mem_validRanges.2 ⟨hr, hvalid⟩) ho
  · rintro pieces rfl
    exact hk.cryptPieces_eq aes inPlace pieces hseg

/-- A list with a gap in front, an unencrypted range and an encrypted one. -/
def sampleKeys : List WalEncryptionRange :=
  [noWalRange, { noWalRange with type := .unencrypted, start := ⟨16, 1⟩, stop := ⟨40, 1⟩ },
    { noWalRange with type := .encrypted, start := ⟨40, 1⟩ }]

/-- Segments of 32 bytes. -/
def smallSegSz : WalSegSz := ⟨2 ^ 5, 5, by decide, rfl⟩

theorem sampleKeys_follow : RangesFollow sampleKeys where
  follow := by
    show List.IsChain _ [_, _]
    simp [WalLocation.lt_iff]
  last := by decide
  bounded := by decide

theorem crypt_buffer_per_byte_sample :
    InSegment smallSegSz ⟨1, 1, 7⟩ 3 ∧
      cryptKeys (fun _ _ _ => 1) smallSegSz ⟨1, 1, 7⟩ false sampleKeys [4, 4, 4] = [4, 5, 5] := by
  have hseg : InSegment smallSegSz ⟨1, 1, 7⟩ [(4 : UInt8), 4, 4].length :=
    ⟨by decide, by decide, by decide⟩
  refine ⟨hseg, ?_⟩
  rw [(crypt_buffer_per_byte (fun _ _ _ => 1) sampleKeys_follow hseg false).2.1]
  decide

/-- At the end of the last segment that 64 bits can address the end of the buffer is position 0, which
no range starts before; and an empty buffer inside an encrypted range has an empty part. -/
theorem crypt_buffer_fails_at_the_end :
    (RangesFollow sampleKeys ∧ 31 + 1 ≤ smallSegSz.size ∧
      cryptKeys (fun _ _ _ => 1) smallSegSz ⟨1, 2 ^ 59 - 1, 31⟩ false sampleKeys [4] = [4] ∧
      specByte (fun _ _ _ => 1) smallSegSz sampleKeys ⟨1, 2 ^ 59 - 1, 31⟩ 4 = 5) ∧
    (∃ r ∈ sampleKeys, walLocationValid r.start = true ∧ r.type = .encrypted ∧
      overlapsData smallSegSz ⟨1, 1, 9⟩ 0 r = true ∧
      ¬decOff smallSegSz ⟨1, 1, 9⟩ r < decEnd smallSegSz ⟨1, 1, 9⟩ 0 r) :=
  ⟨⟨sampleKeys_follow, by decide, by decide, by decide⟩, by decide⟩

end OpenPgTde
