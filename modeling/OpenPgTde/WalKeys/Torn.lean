import OpenPgTde.Lib.Records
import OpenPgTde.WalKeys.Specs

/-!
The file of WAL keys byte by byte, and appends that are cut off.

Readers divide the length of the file by the size of an entry, and so does the routine that positions
the last range; the routine that appends writes at the end of the file, wherever that is. As long as
the file is a header and whole entries these are three views of one list, the list that the model of
the file has. After an append that was cut off in the middle of an entry they are not: the next entry
is written behind the tail, but its place begins where the tail begins.
-/

namespace OpenPgTde

open Lib.Effect Lib.Splice Lib.Records

/-! ### Layout -/

/-- A location in memory; the last four bytes are padding. -/
def WalLocation.bytes (loc : WalLocation) : List UInt8 :=
  leBytes 8 loc.lsn ++ leBytes 4 loc.tli ++ leBytes 4 0

def WalLocation.ofBytes (b : List UInt8) : WalLocation :=
  match split [8, 4] b with
  | [lsn, tli] => ⟨leValue lsn, leValue tli⟩
  | _ => invalidWalLocation

/-- The number of a type of range that is not one of the three is none. -/
def WalEncryptionRangeType.ofCode : ℕ → Option WalEncryptionRangeType
  | 0 => some invalid
  | 1 => some unencrypted
  | 2 => some encrypted
  | _ => none

/-- The fields of an entry in the order of the structure. -/
def WalKeyFileEntry.fields (e : WalKeyFileEntry) : List (List UInt8) :=
  [leBytes 4 e.cipher.code, leBytes 4 e.rangeType.code, e.keyBaseIv, e.rangeStart.bytes, e.entryIv,
    e.aeadTag, padTo 32 e.encryptedKeyData]

def WalKeyFileEntry.bytes (e : WalKeyFileEntry) : List UInt8 := e.fields.flatten

/-- `sizeof(WalKeyFileEntry)`. -/
def walKeyFileEntryLen : ℕ := 104

/-- What a reader makes of the bytes of an entry. -/
def WalKeyFileEntry.ofBytes (b : List UInt8) : Option WalKeyFileEntry :=
  match split [4, 4, 16, 16, 16, 16, 32] b with
  | [cipher, rangeType, keyBaseIv, rangeStart, entryIv, aeadTag, data] => do
    let cipher ← CipherType.ofCode (leValue cipher)
    let rangeType ← WalEncryptionRangeType.ofCode (leValue rangeType)
    pure ⟨cipher, rangeType, keyBaseIv, .ofBytes rangeStart, entryIv, aeadTag,
      data.take cipher.keyLength⟩
  | _ => none

/-- The fields of the entry have the sizes of the structure's. -/
structure WalKeyFileEntry.Fits (e : WalKeyFileEntry) : Prop where
  keyBaseIv : e.keyBaseIv.length = 16
  lsn : e.rangeStart.lsn < 2 ^ 64
  tli : e.rangeStart.tli < 2 ^ 32
  entryIv : e.entryIv.length = 16
  aeadTag : e.aeadTag.length = 16
  data : e.encryptedKeyData.length = e.cipher.keyLength
  short : e.cipher.keyLength ≤ 32

theorem WalEncryptionRangeType.ofCode_code (t : WalEncryptionRangeType) :
    ofCode t.code = some t := by cases t <;> rfl

theorem WalEncryptionRangeType.code_lt (t : WalEncryptionRangeType) : t.code < 3 := by
  cases t <;> decide

@[simp] theorem WalLocation.length_bytes (loc : WalLocation) : loc.bytes.length = 16 := by
  simp [bytes]

theorem WalLocation.ofBytes_bytes {loc : WalLocation} (hl : loc.lsn < 2 ^ 64)
    (ht : loc.tli < 2 ^ 32) : ofBytes loc.bytes = loc := by
  have hsplit : split [8, 4] loc.bytes = [leBytes 8 loc.lsn, leBytes 4 loc.tli] := by
    have h := split_flatten [leBytes 8 loc.lsn, leBytes 4 loc.tli] (leBytes 4 0)
    simpa [bytes] using h
  rw [ofBytes, hsplit]
  simp only [leValue_leBytes]
  rw [Nat.mod_eq_of_lt (by omega), Nat.mod_eq_of_lt (by omega)]

theorem WalKeyFileEntry.Fits.sizes {e : WalKeyFileEntry} (h : e.Fits) :
    e.fields.map List.length = [4, 4, 16, 16, 16, 16, 32] := by
  have hdata : (padTo 32 e.encryptedKeyData).length = 32 := length_padTo (by rw [h.data]; exact h.short)
  simp [fields, h.keyBaseIv, h.entryIv, h.aeadTag, hdata]

theorem WalKeyFileEntry.Fits.length_bytes {e : WalKeyFileEntry} (h : e.Fits) :
    e.bytes.length = walKeyFileEntryLen := by
  rw [bytes, List.length_flatten, h.sizes]
  rfl

/-- An entry that was written is read back. -/
theorem WalKeyFileEntry.Fits.ofBytes_bytes {e : WalKeyFileEntry} (h : e.Fits) :
    ofBytes e.bytes = some e := by
  have hsplit : split [4, 4, 16, 16, 16, 16, 32] e.bytes = e.fields := by
    rw [← h.sizes, bytes, ← List.append_nil e.fields.flatten]
    exact split_flatten e.fields []
  have hcipher : leValue (leBytes 4 e.cipher.code) = e.cipher.code := by
    rw [leValue_leBytes, Nat.mod_eq_of_lt (by have := e.cipher.code_lt; omega)]
  have htype : leValue (leBytes 4 e.rangeType.code) = e.rangeType.code := by
    rw [leValue_leBytes, Nat.mod_eq_of_lt (by have := e.rangeType.code_lt; omega)]
  have hdata : (padTo 32 e.encryptedKeyData).take e.cipher.keyLength = e.encryptedKeyData := by
    rw [← h.data, padTo, List.take_left]
  rw [ofBytes, hsplit]
  simp only [fields, hcipher, htype, CipherType.ofCode_code, WalEncryptionRangeType.ofCode_code,
    WalLocation.ofBytes_bytes h.lsn h.tli, hdata, Option.pure_def, Option.bind_eq_bind,
    Option.bind_some]

theorem WalKeyFileEntry.Fits.locate {e : WalKeyFileEntry} (h : e.Fits) {loc : WalLocation}
    (hl : loc.lsn < 2 ^ 64) (ht : loc.tli < 2 ^ 32) : { e with rangeStart := loc }.Fits :=
  ⟨h.keyBaseIv, hl, ht, h.entryIv, h.aeadTag, h.data, h.short⟩

theorem WalKeyFileEntry.Fits.retype {e : WalKeyFileEntry} (h : e.Fits)
    (t : WalEncryptionRangeType) : { e with rangeType := t }.Fits :=
  ⟨h.keyBaseIv, h.lsn, h.tli, h.entryIv, h.aeadTag, h.data, h.short⟩

/-- The start location is the field at offset 24. -/
theorem WalKeyFileEntry.Fits.overwrite_rangeStart {e : WalKeyFileEntry} (h : e.Fits)
    (loc : WalLocation) : overwrite e.bytes 24 loc.bytes = { e with rangeStart := loc }.bytes := by
  have hplace : (e.fields.take 3).flatten.length = 24 := by simp [fields, h.keyBaseIv]
  rw [bytes, ← hplace, overwrite_field (i := 3) (by simp [fields]) (by simp [fields])]
  rfl

/-- The type is the field at offset 4. -/
theorem WalKeyFileEntry.overwrite_rangeType (e : WalKeyFileEntry) (t : WalEncryptionRangeType) :
    overwrite e.bytes 4 (leBytes 4 t.code) = { e with rangeType := t }.bytes := by
  have hplace : (e.fields.take 1).flatten.length = 4 := by simp [fields]
  rw [bytes, ← hplace, overwrite_field (i := 1) (by simp [fields]) (by simp [fields])]
  rfl

theorem WalKeyFileEntry.Fits.slice_rangeStart {e : WalKeyFileEntry} (h : e.Fits) :
    slice e.bytes 24 16 = e.rangeStart.bytes := by
  have hself := h.overwrite_rangeStart e.rangeStart
  have hlen : 24 ≤ e.bytes.length := by rw [h.length_bytes]; decide
  have hslice := slice_overwrite_self hlen e.rangeStart.bytes
  rwa [hself, WalLocation.length_bytes] at hslice

/-! ### The routines on the bytes -/

/-- The file behind `wal_keys`: what the header says, and the bytes behind the header. -/
structure WalKeyBytes where
  info : TDESignedPrincipalKeyInfo
  body : List UInt8
  deriving DecidableEq

/-- What `open_pg_tde_fetch_wal_keys` and `open_pg_tde_read_last_wal_range` read: as many entries as
the length of the file allows for. -/
def WalKeyBytes.entries (f : WalKeyBytes) : List (Option WalKeyFileEntry) :=
  (records walKeyFileEntryLen f.body).map WalKeyFileEntry.ofBytes

/-- `open_pg_tde_write_wal_key_file_entry`, cut off after `n` bytes of the entry. -/
def WalKeyBytes.writeEntry (f : WalKeyBytes) (e : WalKeyFileEntry) (n : ℕ) : WalKeyBytes :=
  { f with body := f.body ++ e.bytes.take n }

/-- `open_pg_tde_wal_last_range_set_location`. Without a whole entry the index of the last one is -1
and the location goes into the header. -/
def WalKeyBytes.lastRangeSetLocation (f : WalKeyBytes) (loc : WalLocation) : WalKeyBytes :=
  let count := f.body.length / walKeyFileEntryLen
  if count = 0 then { f with info := { f.info with data := f.info.data.overwriteName loc } }
  else
    let lastKeyIdx := count - 1
    let body := overwrite f.body (lastKeyIdx * walKeyFileEntryLen + 24) loc.bytes
    let prevKeyPos := (lastKeyIdx - 1) * walKeyFileEntryLen
    let prevEntry := slice body prevKeyPos walKeyFileEntryLen
    if 0 < lastKeyIdx ∧ walLocationCmp (.ofBytes (slice prevEntry 24 16)) loc ≠ .lt then
      { f with
        body := overwrite body prevKeyPos
          (overwrite prevEntry 4 (leBytes 4 WalEncryptionRangeType.invalid.code)) }
    else { f with body := body }

/-- The two kinds of writes a server makes to the file while it starts and runs: the range it creates
when it starts, and the location of the first write to the WAL. -/
inductive WalKeyWrite
  | create (e : WalKeyFileEntry)
  | locate (loc : WalLocation)

def WalKeyWrite.Fits : WalKeyWrite → Prop
  | create e => e.Fits
  | locate loc => loc.lsn < 2 ^ 64 ∧ loc.tli < 2 ^ 32

def WalKeyBytes.write (f : WalKeyBytes) : WalKeyWrite → WalKeyBytes
  | .create e => f.writeEntry e walKeyFileEntryLen
  | .locate loc => f.lastRangeSetLocation loc

/-! ### The list of entries -/

/-- The contents of the file as a header and a list of entries. -/
structure WalKeyEntries where
  info : TDESignedPrincipalKeyInfo
  entries : List WalKeyFileEntry
  deriving DecidableEq

def WalKeyEntries.write (g : WalKeyEntries) : WalKeyWrite → WalKeyEntries
  | .create e => { g with entries := g.entries ++ [e] }
  | .locate loc =>
    match g.entries with
    | [] => { g with info := { g.info with data := g.info.data.overwriteName loc } }
    | entries => { g with entries := setLastLocation loc entries }

/-- The file that holds these entries and nothing else. -/
def WalKeyEntries.file (g : WalKeyEntries) : WalKeyBytes :=
  ⟨g.info, (g.entries.map WalKeyFileEntry.bytes).flatten⟩

def WalKeyEntries.Fits (g : WalKeyEntries) : Prop := ∀ e ∈ g.entries, e.Fits

variable {g : WalKeyEntries} {a : WalKeyWrite}

theorem WalKeyEntries.Fits.allOf (h : g.Fits) :
    AllOf walKeyFileEntryLen (g.entries.map WalKeyFileEntry.bytes) := by
  intro b hb
  obtain ⟨e, he, rfl⟩ := List.mem_map.1 hb
  exact (h e he).length_bytes

theorem WalKeyEntries.Fits.entries_file (h : g.Fits) (tail : List UInt8)
    (htail : tail.length < walKeyFileEntryLen) :
    WalKeyBytes.entries ⟨g.info, g.file.body ++ tail⟩ = g.entries.map some := by
  unfold WalKeyBytes.entries WalKeyEntries.file
  rw [h.allOf.records_flatten tail htail, List.map_map]
  exact List.map_congr_left fun e he => (h e he).ofBytes_bytes

/-- A write into one entry. -/
theorem WalKeyEntries.Fits.overwrite_file (h : g.Fits) {i : ℕ} (hi : i < g.entries.length)
    {a : ℕ} {b : List UInt8} (hb : a + b.length ≤ walKeyFileEntryLen) {e : WalKeyFileEntry}
    (he : overwrite g.entries[i].bytes a b = e.bytes) :
    overwrite g.file.body (i * walKeyFileEntryLen + a) b =
      ((g.entries.set i e).map WalKeyFileEntry.bytes).flatten := by
  have hover := h.allOf.overwrite_flatten (i := i) (by simpa using hi) hb []
  rw [List.append_nil, List.append_nil, List.getElem_map, he, ← List.map_set] at hover
  exact hover

theorem WalKeyEntries.Fits.overwrite_entry (h : g.Fits) {i : ℕ} (hi : i < g.entries.length)
    {e : WalKeyFileEntry} (he : e.Fits) :
    overwrite g.file.body (i * walKeyFileEntryLen) e.bytes =
      ((g.entries.set i e).map WalKeyFileEntry.bytes).flatten := by
  have hlen : g.entries[i].bytes.length = e.bytes.length := by
    rw [(h _ (List.getElem_mem hi)).length_bytes, he.length_bytes]
  exact h.overwrite_file hi (a := 0) (by rw [he.length_bytes, Nat.zero_add]) (overwrite_zero hlen.le)

theorem WalKeyEntries.Fits.slice_file (h : g.Fits) {i : ℕ} (hi : i < g.entries.length) :
    slice g.file.body (i * walKeyFileEntryLen) walKeyFileEntryLen = g.entries[i].bytes := by
  have hslice := h.allOf.slice_flatten (i := i) (by simpa using hi) []
  rwa [List.append_nil, List.getElem_map] at hslice

/-- Whole entries are written where the list of entries has them. -/
theorem WalKeyEntries.Fits.write_file (h : g.Fits) (ha : a.Fits) :
    g.file.write a = (g.write a).file := by
  cases a with
  | create e =>
      have hlen : e.bytes.length = walKeyFileEntryLen := ha.length_bytes
      simp [WalKeyBytes.write, WalKeyBytes.writeEntry, WalKeyEntries.write, WalKeyEntries.file,
        ← hlen]
  | locate loc =>
      obtain ⟨info, entries⟩ := g
      have hcount : (WalKeyEntries.file ⟨info, entries⟩).body.length / walKeyFileEntryLen =
          entries.length := by
        have hdiv := h.allOf.length_div [] (by decide)
        rwa [List.append_nil, List.length_map] at hdiv
      simp only [WalKeyBytes.write, WalKeyBytes.lastRangeSetLocation, hcount]
      obtain rfl | ⟨front, last, rfl⟩ := List.eq_nil_or_concat' entries
      · rfl
      · have hlast : last.Fits := h last (by simp)
        have hbody : overwrite (WalKeyEntries.file ⟨info, front ++ [last]⟩).body
            (front.length * walKeyFileEntryLen + 24) loc.bytes =
            (WalKeyEntries.file ⟨info, front ++ [{ last with rangeStart := loc }]⟩).body := by
          rw [h.overwrite_file (e := { last with rangeStart := loc }) (by simp)
            (by simp [walKeyFileEntryLen]) (by simpa using hlast.overwrite_rangeStart loc)]
          simp [WalKeyEntries.file]
        have hfits : WalKeyEntries.Fits ⟨info, front ++ [{ last with rangeStart := loc }]⟩ := by
          intro e he
          obtain he | he := List.mem_append.1 he
          · exact h e (List.mem_append_left _ he)
          · rw [List.mem_singleton.1 he]
            exact hlast.locate ha.1 ha.2
        have hwrite : WalKeyEntries.write ⟨info, front ++ [last]⟩ (.locate loc) =
            ⟨info, setLastLocation loc (front ++ [last])⟩ := by
          cases front <;> rfl
        rw [if_neg (by simp), List.length_append, List.length_singleton, Nat.add_sub_cancel, hbody,
          hwrite]
        obtain rfl | ⟨front, prev, rfl⟩ := List.eq_nil_or_concat' front
        · rfl
        · have hprev : prev.Fits := h prev (by simp)
          have hi : front.length <
              ((front ++ [prev]) ++ [{ last with rangeStart := loc }]).length := by
            simp
          have hat : ((front ++ [prev]) ++ [{ last with rangeStart := loc }])[front.length] = prev := by
            simp
          have hslice := hfits.slice_file hi
          rw [hat] at hslice
          rw [List.length_append, List.length_singleton, Nat.add_sub_cancel, hslice,
            hprev.slice_rangeStart, WalLocation.ofBytes_bytes hprev.lsn hprev.tli, List.append_assoc,
            List.singleton_append, setLastLocation_append]
          by_cases hcmp : walLocationCmp prev.rangeStart loc = .lt
          · rw [if_neg (by simp [hcmp]), if_neg (by simp [hcmp])]
            simp [WalKeyEntries.file]
          · have hmark : overwrite prev.bytes 4 (leBytes 4 WalEncryptionRangeType.invalid.code) =
                { prev with rangeType := .invalid }.bytes := prev.overwrite_rangeType .invalid
            have hover := hfits.overwrite_entry hi (hprev.retype .invalid)
            rw [if_pos ⟨by omega, hcmp⟩, if_pos hcmp, hmark]
            simpa [WalKeyEntries.file] using hover

theorem WalKeyEntries.Fits.write (h : g.Fits) (ha : a.Fits) : (g.write a).Fits := by
  cases a with
  | create e =>
      intro e' he'
      obtain he' | he' := List.mem_append.1 he'
      · exact h e' he'
      · rw [List.mem_singleton.1 he']
        exact ha
  | locate loc =>
      obtain ⟨info, entries⟩ := g
      obtain rfl | ⟨front, last, rfl⟩ := List.eq_nil_or_concat' entries
      · exact h
      · have hwrite : WalKeyEntries.write ⟨info, front ++ [last]⟩ (.locate loc) =
            ⟨info, setLastLocation loc (front ++ [last])⟩ := by
          cases front <;> rfl
        have hlast : { last with rangeStart := loc }.Fits := (h last (by simp)).locate ha.1 ha.2
        rw [hwrite]
        obtain rfl | ⟨front, prev, rfl⟩ := List.eq_nil_or_concat' front
        · intro e he
          rw [List.mem_singleton.1 he]
          exact hlast
        · intro e he
          rw [List.append_assoc, List.singleton_append, setLastLocation_append] at he
          obtain he | he := List.mem_append.1 he
          · exact h e (by simp [he])
          · have hprev : prev.Fits := h prev (by simp)
            simp only [List.mem_cons, List.not_mem_nil, or_false] at he
            obtain rfl | rfl := he
            · split
              · exact hprev.retype .invalid
              · exact hprev
            · exact hlast

/-- The routine of the source that makes the write. -/
def WalKeyWrite.exec : WalKeyWrite → M Unit
  | create e => writeOneWalKeyFileEntry .walKeys e
  | locate loc => walLastRangeSetLocation loc

/-- On the entries the routines do what `WalKeyEntries.write` says, unless a system call fails. -/
theorem WalKeyWrite.exec_spec {s : Server}
    (hf : s.walKeys .walKeys = some (.current g.info g.entries)) (a : WalKeyWrite) :
    wp a.exec
      (fun _ t => t.walKeys .walKeys = some (.current (g.write a).info (g.write a).entries))
      (fun _ t => t.walKeys .walKeys = s.walKeys .walKeys ∧ ¬s.SysOk) s := by
  cases a with
  | create e =>
      refine (writeOneWalKeyFileEntry_spec hf e).mono (fun _ t ht => ?_)
        fun _ t ht => ⟨by rw [ht.1.walKeys], ht.2⟩
      rw [ht.walKeys]
      simp [WalKeyEntries.write]
  | locate loc =>
      refine (wp_bind ..).2 ((openWalKeyFileWrite_current_spec hf none).mono (fun _ t ht => ?_)
        fun _ t ht => ⟨by rw [ht.1.walKeys], ht.2⟩)
      refine (wp_bind ..).2 ((sysCall_spec _).mono (fun _ u hu => ?_) fun _ u hu =>
        ⟨by rw [hu.2.1.walKeys, ht.2.walKeys], fun h => hu.2.2 (ht.2.sysOk h)⟩)
      simp only [wp_bind, wp_get, hu.walKeys, ht.2.walKeys, hf, WalKeyEntries.write]
      cases g.entries with
      | nil => simp
      | cons e entries => simp

/-! ### Appends that are cut off -/

/-- An append of `e` that writes only the first `n` bytes does no lasting harm to the file of these
entries: whatever is created and located after it, readers find what they would find had the append
not been made, or had it been made in full. -/
def AppendHarmless (g : WalKeyEntries) (e : WalKeyFileEntry) (n : ℕ) : Prop :=
  ∀ writes : List WalKeyWrite, (∀ a ∈ writes, a.Fits) →
    (writes.foldl WalKeyBytes.write (g.file.writeEntry e n)).entries =
      ((writes.foldl WalKeyEntries.write
        (if n = walKeyFileEntryLen then g.write (.create e) else g)).entries).map some

theorem WalKeyEntries.Fits.foldl_write (h : g.Fits) {writes : List WalKeyWrite}
    (hw : ∀ a ∈ writes, a.Fits) :
    (writes.foldl WalKeyBytes.write g.file).entries =
      ((writes.foldl WalKeyEntries.write g).entries).map some := by
  induction writes generalizing g with
  | nil =>
      have hnil := h.entries_file [] (by decide)
      rwa [List.append_nil] at hnil
  | cons a writes ih =>
      have ha := hw a List.mem_cons_self
      rw [List.foldl_cons, List.foldl_cons, h.write_file ha]
      exact ih (h.write ha) fun b hb => hw b (List.mem_cons_of_mem a hb)

/-- An entry of another cipher. -/
def WalKeyFileEntry.otherCipher (e : WalKeyFileEntry) : WalKeyFileEntry :=
  let cipher : CipherType := if e.cipher = .aes128 then .aes256 else .aes128
  { e with cipher := cipher, encryptedKeyData := List.replicate cipher.keyLength 0 }

theorem WalKeyFileEntry.otherCipher_ne (e : WalKeyFileEntry) : e.otherCipher.cipher ≠ e.cipher := by
  unfold otherCipher
  split
  · next h => simp [h]
  · next h => exact Ne.symm h

theorem WalKeyFileEntry.Fits.otherCipher {e : WalKeyFileEntry} (h : e.Fits) : e.otherCipher.Fits := by
  refine ⟨h.keyBaseIv, h.lsn, h.tli, h.entryIv, h.aeadTag, by simp [WalKeyFileEntry.otherCipher], ?_⟩
  show (if e.cipher = .aes128 then CipherType.aes256 else .aes128).keyLength ≤ 32
  split <;> decide

/-- A reader takes the cipher from the first bytes. -/
theorem WalKeyFileEntry.cipher_of_ofBytes {b : List UInt8} {e : WalKeyFileEntry}
    (h : ofBytes b = some e) : leValue (b.take 4) = e.cipher.code := by
  unfold ofBytes at h
  simp only [split, Option.bind_eq_bind, Option.bind_eq_some_iff, Option.pure_def] at h
  obtain ⟨cipher, hcipher, rangeType, -, h⟩ := h
  cases h
  exact (CipherType.code_of_ofCode hcipher).symm

theorem leValue_take_cons (x : UInt8) (l : List UInt8) : leValue ((x :: l).take 4) % 256 = x.toNat := by
  rw [List.take_succ_cons, leValue, List.foldr_cons]
  have := x.toNat_lt
  omega

/-- The bytes of a torn entry, filled up with those of another one, are not read as the other. -/
theorem WalKeyFileEntry.torn_ne {e e' : WalKeyFileEntry} (hne : e'.cipher ≠ e.cipher) (m : ℕ)
    (rest : List UInt8) : ofBytes (e.bytes.take (m + 1) ++ rest) ≠ some e' := by
  intro h
  have hcode := cipher_of_ofBytes h
  have hhead : e.bytes = UInt8.ofNat e.cipher.code :: e.bytes.tail := rfl
  rw [hhead, List.take_succ_cons, List.cons_append] at hcode
  have hmod := leValue_take_cons (UInt8.ofNat e.cipher.code) (e.bytes.tail.take m ++ rest)
  have hlt := e.cipher.code_lt
  have hlt' := e'.cipher.code_lt
  rw [hcode, UInt8.toNat_ofNat', Nat.mod_eq_of_lt (by omega), Nat.mod_eq_of_lt (by omega)] at hmod
  apply hne
  have hof := CipherType.ofCode_code e'.cipher
  rw [hmod, CipherType.ofCode_code] at hof
  exact (Option.some.inj hof).symm

/-- The next range is not read back after an append that was cut off inside the entry. -/
theorem WalKeyEntries.Fits.not_harmless (h : g.Fits) {e : WalKeyFileEntry} (he : e.Fits) {n : ℕ}
    (h0 : 0 < n) (hn : n < walKeyFileEntryLen) : ¬AppendHarmless g e n := by
  intro hharm
  obtain ⟨m, rfl⟩ := Nat.exists_eq_succ_of_ne_zero h0.ne'
  have he' := he.otherCipher
  have hread := hharm [.create e.otherCipher] fun a ha => by
    rw [List.mem_singleton.1 ha]
    exact he'
  have hlen := he.length_bytes
  have hlen' := he'.length_bytes
  -- the place of the new range holds the torn bytes and the first part of the range
  have hbody : ([WalKeyWrite.create e.otherCipher].foldl WalKeyBytes.write
      (g.file.writeEntry e (m + 1))).body =
      ((g.entries.map WalKeyFileEntry.bytes) ++ [e.bytes.take (m + 1) ++
        e.otherCipher.bytes.take (walKeyFileEntryLen - (m + 1))]).flatten ++
        e.otherCipher.bytes.drop (walKeyFileEntryLen - (m + 1)) := by
    simp only [List.foldl_cons, List.foldl_nil, WalKeyBytes.write, WalKeyBytes.writeEntry,
      WalKeyEntries.file, ← hlen', List.take_length, List.flatten_append, List.flatten_singleton,
      List.append_assoc, List.take_append_drop]
  have hall : AllOf walKeyFileEntryLen ((g.entries.map WalKeyFileEntry.bytes) ++
      [e.bytes.take (m + 1) ++ e.otherCipher.bytes.take (walKeyFileEntryLen - (m + 1))]) := by
    refine h.allOf.append fun r hr => ?_
    rw [List.mem_singleton.1 hr, List.length_append, List.length_take, List.length_take, hlen, hlen']
    omega
  have htail : (e.otherCipher.bytes.drop (walKeyFileEntryLen - (m + 1))).length <
      walKeyFileEntryLen := by
    rw [List.length_drop, hlen']
    omega
  rw [WalKeyBytes.entries, hbody, hall.records_flatten _ htail, if_neg (by omega)] at hread
  simp only [List.foldl_cons, List.foldl_nil, WalKeyEntries.write, List.map_append, List.map_cons,
    List.map_nil] at hread
  obtain ⟨-, hlast⟩ := List.append_inj' hread rfl
  exact WalKeyFileEntry.torn_ne e.otherCipher_ne m _ (List.singleton_inj.1 hlast)

/-- An append to the file of WAL keys that is cut off does no lasting harm exactly if it was cut off
before the first byte or after the last one. -/
theorem interrupted_wal_key_append (g : WalKeyEntries) (hg : g.Fits) (e : WalKeyFileEntry)
    (he : e.Fits) (n : ℕ) (hn : n ≤ walKeyFileEntryLen) :
    AppendHarmless g e n ↔ n = 0 ∨ n = walKeyFileEntryLen := by
  constructor
  · intro h
    by_contra hcut
    exact hg.not_harmless he (by omega) (by omega) h
  · rintro (rfl | rfl) writes hw
    · have hnone : g.file.writeEntry e 0 = g.file := by simp [WalKeyBytes.writeEntry]
      rw [hnone, if_neg (by decide)]
      exact hg.foldl_write hw
    · have hfull : g.file.writeEntry e walKeyFileEntryLen = (g.write (.create e)).file :=
        hg.write_file (a := .create e) he
      rw [hfull, if_pos rfl]
      exact (hg.write (a := .create e) he).foldl_write hw

/-- A file with one range, which starts at 1 of timeline 1. -/
def sampleWalEntry : WalKeyFileEntry where
  cipher := .aes128
  rangeType := .encrypted
  keyBaseIv := List.replicate 16 1
  rangeStart := ⟨1, 1⟩
  entryIv := List.replicate 16 2
  aeadTag := List.replicate 16 3
  encryptedKeyData := List.replicate 16 4

def sampleWalEntries : WalKeyEntries := ⟨sampleInfo globalDataTdeOid, [sampleWalEntry]⟩

theorem sampleWalEntry_fits : sampleWalEntry.Fits :=
  ⟨rfl, by decide, by decide, rfl, rfl, rfl, by decide⟩

theorem sampleWalEntries_fits : sampleWalEntries.Fits := by
  intro e he
  rw [List.mem_singleton.1 he]
  exact sampleWalEntry_fits

theorem interrupted_wal_key_append_not_begun : AppendHarmless sampleWalEntries sampleWalEntry 0 :=
  (interrupted_wal_key_append sampleWalEntries sampleWalEntries_fits sampleWalEntry
    sampleWalEntry_fits 0 (by decide)).2 (.inl rfl)

/-- One byte of the entry is enough. -/
theorem interrupted_wal_key_append_one_byte :
    sampleWalEntries.Fits ∧ sampleWalEntry.Fits ∧ ¬AppendHarmless sampleWalEntries sampleWalEntry 1 :=
  ⟨sampleWalEntries_fits, sampleWalEntry_fits,
    sampleWalEntries_fits.not_harmless sampleWalEntry_fits (by decide) (by decide)⟩

end OpenPgTde
