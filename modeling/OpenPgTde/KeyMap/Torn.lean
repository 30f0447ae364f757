import OpenPgTde.Lib.Records
import OpenPgTde.KeyMap.Refinement
import OpenPgTde.PrincipalKey.Lookup

/-!
Writes to a key file that are cut off.

A key file is a header and records of one size. One entry is written at a time, at a multiple of that
size: over an entry or at the end. If the write does not get through, the place holds the first bytes
of what was written and, behind them, what was there before.

At the end of the file this is as if nothing had happened: nobody reads a part of a record, and the
next write there goes over it. In the middle of the file there is an entry now that nobody wrote. It
does no harm if it is free and has not got the identity of the relation yet, or if it still decrypts.
Otherwise it is in the way: of the next save, which looks at the identity only and takes the entry
for the relation's key, and of the next rotation, which has to decrypt every entry that is not free.
-/

namespace OpenPgTde

open Lib.Effect Lib.SlotArray Lib.Splice Lib.Records

variable {old e : TDEMapEntry}

/-! ### Layout -/

def MapEntryType.ofCode : ℕ → Option MapEntryType
  | 0 => some empty
  | 1 => some key
  | _ => none

/-- The fields of an entry in the order of the structure. -/
def TDEMapEntry.fields (e : TDEMapEntry) : List (List UInt8) :=
  [leBytes 4 e.cipher.code, leBytes 4 e.spcOid.toNat, leBytes 4 e.relNumber.toNat,
    leBytes 4 e.type.code, e.keyBaseIv, e.entryIv, e.aeadTag, e.encryptedKeyData]

def TDEMapEntry.bytes (e : TDEMapEntry) : List UInt8 := e.fields.flatten

/-- `sizeof(TDEMapEntry)`. -/
def tdeMapEntryLen : ℕ := 128

/-- What a reader makes of the bytes of an entry. -/
def TDEMapEntry.ofBytes (b : List UInt8) : Option TDEMapEntry :=
  match split [4, 4, 4, 4, 16, 16, 16, 64] b with
  | [cipher, spcOid, relNumber, type, keyBaseIv, entryIv, aeadTag, data] => do
    let cipher ← CipherType.ofCode (leValue cipher)
    let type ← MapEntryType.ofCode (leValue type)
    pure ⟨cipher, UInt32.ofNat (leValue spcOid), UInt32.ofNat (leValue relNumber), type, keyBaseIv,
      entryIv, aeadTag, data⟩
  | _ => none

/-- The fields of the entry have the sizes of the structure's. There is room for the longest keys;
behind a shorter one stands whatever was in memory. -/
structure TDEMapEntry.Fits (e : TDEMapEntry) : Prop where
  keyBaseIv : e.keyBaseIv.length = 16
  entryIv : e.entryIv.length = 16
  aeadTag : e.aeadTag.length = 16
  data : e.encryptedKeyData.length = 64

theorem MapEntryType.ofCode_code (t : MapEntryType) : ofCode t.code = some t := by cases t <;> rfl

theorem MapEntryType.code_lt (t : MapEntryType) : t.code < 2 := by cases t <;> decide

theorem TDEMapEntry.Fits.sizes (h : e.Fits) :
    e.fields.map List.length = [4, 4, 4, 4, 16, 16, 16, 64] := by
  simp [fields, h.keyBaseIv, h.entryIv, h.aeadTag, h.data]

theorem TDEMapEntry.Fits.length_bytes (h : e.Fits) : e.bytes.length = tdeMapEntryLen := by
  rw [bytes, List.length_flatten, h.sizes]
  rfl

theorem emptyMapEntry_fits : emptyMapEntry.Fits := ⟨rfl, rfl, rfl, rfl⟩

theorem leBytes_leValue (b : List UInt8) : leBytes b.length (leValue b) = b := by
  induction b with
  | nil => rfl
  | cons x b ih =>
      have hx := x.toNat_lt
      have hlow : UInt8.ofNat (x.toNat + 256 * leValue b) = x := by
        apply UInt8.toNat_inj.1
        rw [UInt8.toNat_ofNat']
        omega
      have hhigh : (x.toNat + 256 * leValue b) / 256 = leValue b := by omega
      change UInt8.ofNat (x.toNat + 256 * leValue b) ::
        leBytes b.length ((x.toNat + 256 * leValue b) / 256) = x :: b
      rw [hlow, hhigh, ih]

theorem TDEMapEntry.ofBytes_of_split {b spcOid relNumber base iv tag data : List UInt8}
    {c : CipherType} {k : MapEntryType} (h : split [4, 4, 4, 4, 16, 16, 16, 64] b =
      [leBytes 4 c.code, spcOid, relNumber, leBytes 4 k.code, base, iv, tag, data]) :
    ofBytes b = some ⟨c, UInt32.ofNat (leValue spcOid), UInt32.ofNat (leValue relNumber), k, base, iv,
      tag, data⟩ := by
  have hcipher : leValue (leBytes 4 c.code) = c.code := by
    rw [leValue_leBytes, Nat.mod_eq_of_lt (by have := c.code_lt; omega)]
  have htype : leValue (leBytes 4 k.code) = k.code := by
    rw [leValue_leBytes, Nat.mod_eq_of_lt (by have := k.code_lt; omega)]
  rw [ofBytes, h]
  simp only [hcipher, htype, CipherType.ofCode_code, MapEntryType.ofCode_code, Option.bind_eq_bind,
    Option.bind_some, Option.pure_def]

/-- An entry that was written is read back. -/
theorem TDEMapEntry.Fits.ofBytes_bytes (h : e.Fits) : ofBytes e.bytes = some e := by
  have hsplit : split [4, 4, 4, 4, 16, 16, 16, 64] e.bytes = e.fields := by
    rw [← h.sizes, bytes, ← List.append_nil e.fields.flatten]
    exact split_flatten e.fields []
  have hnum : ∀ a : UInt32, UInt32.ofNat (leValue (leBytes 4 a.toNat)) = a := by
    intro a
    have ha := a.toNat_lt
    rw [leValue_leBytes, Nat.mod_eq_of_lt (by omega), UInt32.ofNat_toNat]
  rw [ofBytes_of_split hsplit, hnum, hnum]

/-- The number of a field is one byte long, so a cut field is the old one or the new one. -/
theorem overwrite_leBytes {c c' : ℕ} (h : c < 256) (h' : c' < 256) (n : ℕ) :
    overwrite (leBytes 4 c) 0 ((leBytes 4 c').take n) = leBytes 4 (if n = 0 then c else c') := by
  have hbytes : ∀ a < 256, leBytes 4 a = UInt8.ofNat a :: [0, 0, 0] := by
    intro a ha
    have hdiv : a / 256 = 0 := by omega
    simp [leBytes, hdiv]
  rcases n with _ | n
  · simp
  · rw [if_neg (by omega), hbytes c h, hbytes c' h', List.take_succ_cons]
    rcases n with _ | _ | _ | n <;> simp [overwrite]

/-- What is in the place of `old` after a write of `e` that was cut off after `n` bytes. -/
def TDEMapEntry.torn (old e : TDEMapEntry) (n : ℕ) : Option TDEMapEntry :=
  ofBytes (overwrite old.bytes 0 (e.bytes.take n))

theorem leValue_lt (b : List UInt8) : leValue b < 256 ^ b.length := by
  induction b with
  | nil => simp [leValue]
  | cons x b ih =>
      have hx := x.toNat_lt
      change x.toNat + 256 * leValue b < 256 ^ (b.length + 1)
      rw [Nat.pow_succ]
      omega

theorem leBytes_ofNat {b : List UInt8} (h : b.length = 4) :
    leBytes 4 (UInt32.ofNat (leValue b)).toNat = b := by
  have hlt := leValue_lt b
  rw [h] at hlt
  rw [UInt32.toNat_ofNat', Nat.mod_eq_of_lt (by omega), ← h, leBytes_leValue]

/-- A torn entry is an entry again. -/
theorem TDEMapEntry.Fits.exists_torn (ho : old.Fits) (he : e.Fits) (n : ℕ) :
    ∃ t, old.torn e n = some t ∧ t.Fits ∧ t.bytes = overwrite old.bytes 0 (e.bytes.take n) := by
  have hsizes : old.fields.map List.length = e.fields.map List.length := by rw [ho.sizes, he.sizes]
  have hcut := length_cutFields hsizes n
  have hbytes : overwrite old.bytes 0 (e.bytes.take n) =
      (cutFields n old.fields e.fields).flatten := overwrite_take_flatten hsizes n
  rw [ho.sizes] at hcut
  have hsplit : split [4, 4, 4, 4, 16, 16, 16, 64] (overwrite old.bytes 0 (e.bytes.take n)) =
      cutFields n old.fields e.fields := by
    rw [hbytes, ← hcut, ← List.append_nil (cutFields n old.fields e.fields).flatten]
    exact split_flatten _ []
  have hcode := overwrite_leBytes (Nat.lt_of_lt_of_le old.cipher.code_lt (by decide))
    (Nat.lt_of_lt_of_le e.cipher.code_lt (by decide)) n
  have htype := overwrite_leBytes (Nat.lt_of_lt_of_le old.type.code_lt (by decide))
    (Nat.lt_of_lt_of_le e.type.code_lt (by decide)) (n - 4 - 4 - 4)
  simp only [fields, cutFields, length_leBytes, hcode, htype] at hsplit hcut hbytes
  simp only [← apply_ite CipherType.code, ← apply_ite MapEntryType.code] at hsplit hbytes
  simp only [List.map_cons, List.map_nil, List.cons.injEq, and_true] at hcut
  obtain ⟨-, hspc, hrel, -, hbase, hiv, htag, hdata⟩ := hcut
  refine ⟨_, ofBytes_of_split hsplit, ⟨hbase, hiv, htag, hdata⟩, ?_⟩
  rw [hbytes, bytes, fields, leBytes_ofNat hspc, leBytes_ofNat hrel]

/-! ### The file -/

/-- The key file of a database: what the header says, and the bytes behind the header. -/
structure KeyMapBytes where
  info : TDESignedPrincipalKeyInfo
  body : List UInt8
  deriving DecidableEq

/-- What `open_pg_tde_read_one_map_entry` reads, entry by entry, until it fails. -/
def KeyMapBytes.entries (f : KeyMapBytes) : List (Option TDEMapEntry) :=
  (records tdeMapEntryLen f.body).map TDEMapEntry.ofBytes

/-- `open_pg_tde_write_one_map_entry` at the place of entry `i`, cut off after `n` bytes. -/
def KeyMapBytes.writeOneMapEntry (f : KeyMapBytes) (i : ℕ) (e : TDEMapEntry) (n : ℕ) : KeyMapBytes :=
  { f with body := overwrite f.body (i * tdeMapEntryLen) (e.bytes.take n) }

/-- The records of the file are these entries. -/
structure KeyMapBytes.Holds (f : KeyMapBytes) (entries : List TDEMapEntry) : Prop where
  records : records tdeMapEntryLen f.body = entries.map TDEMapEntry.bytes
  fits : ∀ e ∈ entries, e.Fits

variable {f : KeyMapBytes} {entries new : List TDEMapEntry} {i n : ℕ}

theorem KeyMapBytes.Holds.entries_eq (h : f.Holds entries) : f.entries = entries.map some := by
  rw [KeyMapBytes.entries, h.records, List.map_map]
  exact List.map_congr_left fun e he => (h.fits e he).ofBytes_bytes

theorem KeyMapBytes.Holds.set (h : f.Holds entries) (he : e.Fits) (hi : entries[i]? = some old)
    (n : ℕ) : ∃ t, old.torn e n = some t ∧ (f.writeOneMapEntry i e n).Holds (entries.set i t) := by
  obtain ⟨hlt, rfl⟩ := List.getElem?_eq_some_iff.1 hi
  obtain ⟨t, htorn, hfits, hbytes⟩ := (h.fits _ (List.getElem_mem hlt)).exists_torn he n
  refine ⟨t, htorn, ?_, fun c hc => ?_⟩
  · have hlen : (e.bytes.take n).length ≤ tdeMapEntryLen := by
      rw [List.length_take, he.length_bytes]
      omega
    have hi : i < (Lib.Records.records tdeMapEntryLen f.body).length := by
      rw [h.records, List.length_map]
      exact hlt
    have hover := records_overwrite (by decide) hi hlen
    simp only [h.records, List.getElem_map, ← hbytes] at hover
    rw [List.map_set]
    exact hover
  · obtain hc | rfl := List.mem_or_eq_of_mem_set hc
    · exact h.fits c hc
    · exact hfits

/-- A write at the end makes one more entry if it is complete, and else no difference. -/
theorem KeyMapBytes.Holds.append (h : f.Holds entries) (he : e.Fits) (hn : n ≤ tdeMapEntryLen) :
    (f.writeOneMapEntry entries.length e n).Holds
      (entries ++ if n = tdeMapEntryLen then [e] else []) := by
  have hlen : (e.bytes.take n).length = n := by
    rw [List.length_take, he.length_bytes]
    omega
  have hover : Lib.Records.records tdeMapEntryLen _ = _ :=
    @records_overwrite_length _ _ f.body _ (by decide) (hlen.le.trans hn)
  rw [h.records, List.length_map, hlen] at hover
  refine ⟨?_, fun c hc => ?_⟩
  · rw [List.map_append, KeyMapBytes.writeOneMapEntry]
    refine hover.trans ?_
    split
    · rename_i hfull
      rw [List.take_of_length_le (by rw [he.length_bytes, hfull]), List.map_singleton]
    · rfl
  · obtain hc | hc := List.mem_append.1 hc
    · exact h.fits c hc
    · split at hc
      · rw [List.mem_singleton.1 hc]
        exact he
      · cases hc

/-! ### Keys under a known principal key -/

variable {w : World} {s t : Server} {db : Oid} {info : TDESignedPrincipalKeyInfo}
  {pk newPk : TDEPrincipalKey} {rel r : RelFileLocator}

/-- What a lookup makes of the entry it has found. -/
def entryOutcome (w : World) (keyData : List UInt8) :
    Option TDEMapEntry → Except TdeError (Option InternalKey)
  | none => .ok none
  | some e =>
    match e.unwrap w keyData with
    | none => .error .decryptFailed
    | some k => .ok (some k)

/-- The database has a key file with these entries, its principal key can be had, and no system call
fails. -/
structure HasKeyFile (w : World) (s : Server) (db : Oid) (info : TDESignedPrincipalKeyInfo)
    (entries : List TDEMapEntry) (pk : TDEPrincipalKey) : Prop where
  sysOk : s.SysOk
  own : OwnScopes s
  ne_global : db ≠ globalDataTdeOid
  file : s.keyFiles (.keys db) = some (.current info entries)
  key : currentKey w s db = .ok (some pk)

theorem HasKeyFile.getSmgrKey (h : HasKeyFile w s db info entries pk) (hr : r.dbOid = db) :
    outcome (getSmgrKey w r) s =
      entryOutcome w pk.keyData (entries.find? (TDEMapEntry.isKeyOf r.spcOid r.relNumber)) := by
  have hused : usedKey w s db = .ok (some pk) := usedKey_of_ne h.key nofun
  have hout : outcome (OpenPgTde.getSmgrKey w r) s = smgrKeyOutcome w s r :=
    outcome_eq ((getSmgrKey_outcome h.own r).mono (fun _ _ h => h) fun _ _ he => he h.sysOk)
  rw [hout, smgrKeyOutcome, hr, h.file]
  dsimp only [KeyFile.entries]
  cases entries.find? (TDEMapEntry.isKeyOf r.spcOid r.relNumber) with
  | none => rfl
  | some e =>
      rw [hused]
      rfl

/-- Other entries under the same header. -/
theorem HasKeyFile.putEntries (h : HasKeyFile w s db info entries pk) (new : List TDEMapEntry) :
    HasKeyFile w (s.putKeyFile (.keys db) (some (.current info new))) db info new pk := by
  have hfile : (s.putKeyFile (.keys db) (some (.current info new))).keyFiles (.keys db) =
      some (.current info new) := by simp
  have hinfo : ∀ a, scopeInfo (s.putKeyFile (.keys db) (some (.current info new))) a =
      scopeInfo s a := by
    intro a
    by_cases ha : a = db
    · subst ha
      rw [scopeInfo_current h.ne_global h.file, scopeInfo_current h.ne_global hfile]
    · exact scopeInfo_congr (fun _ => by simp [ha]) fun _ => rfl
  have hfetch : fetchedKey w (s.putKeyFile (.keys db) (some (.current info new))) db =
      fetchedKey w s db := fetchedKey_congr rfl rfl (hinfo db)
  refine ⟨h.sysOk, ⟨fun a i hi => h.own.header a i (by rwa [hinfo] at hi), h.own.cached⟩,
    h.ne_global, hfile, ?_⟩
  rw [currentKey, hfetch]
  exact h.key

theorem HasKeyFile.fetched (h : HasKeyFile w s db info entries pk) (hf : Fetched w s db t) :
    HasKeyFile w t db info entries pk :=
  ⟨hf.sysOk h.sysOk, hf.ownScopes h.own, h.ne_global, by rw [hf.keyFiles, h.file],
    by rw [hf.currentKey, h.key]⟩

theorem HasKeyFile.quiet (h : HasKeyFile w s db info entries pk) (hq : Quiet s t) :
    HasKeyFile w t db info entries pk := h.fetched (.inl hq)

theorem HasKeyFile.databaseId (h : HasKeyFile w s db info entries pk) :
    pk.keyInfo.databaseId = db := h.own.of_currentKey h.key

theorem HasKeyFile.getPrincipalKey (h : HasKeyFile w s db info entries pk) :
    wp (getPrincipalKey w db) (fun r t => r = some pk ∧ HasKeyFile w t db info entries pk)
      (fun _ _ => False) s := by
  refine (wp_bind ..).2 ((getPrincipalKeyNoDefault_outcome h.own).mono (fun r t ht => ?_)
    fun e t ht => ?_)
  · obtain ⟨hr, ht, -⟩ := ht
    rw [h.key] at hr
    cases hr
    exact ⟨rfl, h.fetched ht⟩
  · have hr := ht.1 h.sysOk
    rw [h.key] at hr
    cases hr

/-- A save writes where the scan says, if it does not keep what it has found. -/
theorem HasKeyFile.saveSmgrKey (h : HasKeyFile w s rel.dbOid info entries pk) (k : InternalKey)
    (replaceExisting : Bool) :
    ∃ t new, saveSmgrKey w rel k replaceExisting s = .ok () t ∧
      HasKeyFile w t rel.dbOid info new pk ∧
      ((saveSlot rel entries).1 = true → replaceExisting = false → new = entries) ∧
      ((saveSlot rel entries).1 = false ∨ replaceExisting = true →
        ∃ e, EntryFor w pk rel k e ∧ new = writeAt entries (saveSlot rel entries).2 e) := by
  have hspec : wp (OpenPgTde.saveSmgrKey w rel k replaceExisting)
      (fun _ t => ∃ new, HasKeyFile w t rel.dbOid info new pk ∧
        ((saveSlot rel entries).1 = true → replaceExisting = false → new = entries) ∧
        ((saveSlot rel entries).1 = false ∨ replaceExisting = true →
          ∃ e, EntryFor w pk rel k e ∧ new = writeAt entries (saveSlot rel entries).2 e))
      (fun _ _ => False) s := by
    refine (wp_bind ..).2 (h.getPrincipalKey.mono (fun r t ht => ?_) fun _ _ h => h)
    obtain ⟨rfl, ht⟩ := ht
    refine (storeKey_spec ht.file pk k replaceExisting).mono (fun _ u hu => ?_)
      fun _ _ hu => hu.2 ht.sysOk
    by_cases hc : (saveSlot rel entries).1 = false ∨ replaceExisting = true
    · obtain ⟨e, he, hq⟩ := hu.2 hc
      refine ⟨_, (ht.putEntries _).quiet hq, fun hfound hkeep => ?_, fun _ => ⟨e, he, rfl⟩⟩
      simp [hfound, hkeep] at hc
    · simp only [not_or, Bool.not_eq_false, Bool.not_eq_true] at hc
      exact ⟨entries, ht.quiet (hu.1 hc.1 hc.2), fun _ _ => rfl, fun h => by simp [hc] at h⟩
  obtain ⟨_, t, hrun, new, hnew⟩ := hspec.exists_ok fun _ _ h => h
  exact ⟨t, new, hrun, hnew⟩

/-- A rotation goes over all entries that are not free, and fails if one does not decrypt. -/
theorem rotateEntries_readable (pk newPk : TDEPrincipalKey) (entries : List TDEMapEntry) (pos : ℕ) :
    wp (rotateEntries w pk newPk entries pos) (fun _ _ => Readable w pk.keyData entries)
      (fun _ _ => True) s := by
  induction entries generalizing s pos with
  | nil => exact fun e he => by cases he
  | cons e entries ih =>
      rw [rotateEntries]
      split
      · rename_i he
        refine ih pos |>.mono (fun _ _ hr c hc hkey => ?_) fun _ _ h => h
        obtain rfl | hc := List.mem_cons.1 hc
        · rw [he] at hkey
          cases hkey
        · exact hr c hc hkey
      · refine (wp_bind ..).2 ((decryptRelKey_spec pk e).mono (fun k t ht => ?_) fun _ _ _ => trivial)
        refine (wp_bind ..).2 (wp.of_forall (fun e' u => ?_) fun _ _ => trivial)
        refine (wp_bind ..).2 (wp.of_forall (fun _ x => ?_) fun _ _ => trivial)
        refine (ih (pos + 1)).mono (fun _ _ hr c hc hkey => ?_) fun _ _ h => h
        obtain rfl | hc := List.mem_cons.1 hc
        · rw [ht.2]
          rfl
        · exact hr c hc hkey

theorem performRotateKey_readable (pk newPk : TDEPrincipalKey) (writeXlog : Bool)
    (hf : s.keyFiles (.keys pk.keyInfo.databaseId) = some (.current info entries)) :
    wp (performRotateKey w pk newPk writeXlog) (fun _ _ => Readable w pk.keyData entries)
      (fun _ _ => True) s := by
  refine (wp_bind ..).2 ((signPrincipalKeyInfo_spec newPk).mono (fun info' t ht => ?_)
    fun _ _ _ => trivial)
  refine (wp_bind ..).2 ((openFileRead_spec false).mono (fun r u hu => ?_) fun _ _ _ => trivial)
  obtain ⟨-, hr, -⟩ := hu
  rw [ht.1.keyFiles, hf] at hr
  obtain rfl : some entries = r := hr
  refine (wp_bind ..).2 (wp.of_forall (fun _ v => ?_) fun _ _ => trivial)
  refine (wp_bind ..).2 ((rotateEntries_readable pk newPk entries 0).mono (fun _ _ hr => ?_)
    fun _ _ h => h)
  exact wp.of_forall (fun _ _ => hr) fun _ _ => trivial

/-- After a rotation the new key opens what the old one opened. -/
theorem HasKeyFile.performRotateKey (h : HasKeyFile w s db info entries pk)
    (hr : Readable w pk.keyData entries) (hn : newPk.keyInfo.databaseId = db) (writeXlog : Bool) :
    ∃ t info' new, performRotateKey w pk newPk writeXlog s = .ok () t ∧
      keyTable w newPk.keyData new = keyTable w pk.keyData entries ∧
      HasKeyFile w (t.putCache db (some newPk)) db info' new newPk := by
  have hdb := h.databaseId
  have hent : ((s.keyFiles (.keys pk.keyInfo.databaseId)).bind KeyFile.entries).getD [] = entries := by
    rw [hdb]
    exact entries_of_current h.file
  obtain ⟨_, t, hrun, info', new, hdata, -, -, htable, hq⟩ :=
    (performRotateKey_spec (w := w) pk newPk writeXlog hent).exists_ok fun _ t ht =>
      ht.1 h.sysOk (by rw [hdb, h.file]; nofun) hr
  rw [hdb] at hq
  have hfile : t.keyFiles (.keys db) = some (.current info' new) := by
    rw [hq.keyFiles]
    simp
  have hinfo : ∀ a, a ≠ db → OpenPgTde.scopeInfo t a = OpenPgTde.scopeInfo s a := fun a ha =>
    scopeInfo_congr (fun _ => by rw [hq.keyFiles]; simp [ha]) fun _ => by rw [hq.walKeys]; rfl
  have hcache : t.cache = s.cache := by
    rw [hq.cache]
    rfl
  refine ⟨t, info', new, hrun, htable, hq.sysOk h.sysOk, ⟨fun a i hi => ?_, fun a k hk => ?_⟩,
    h.ne_global, hfile, ?_⟩
  · replace hi : OpenPgTde.scopeInfo t a = some i := hi
    by_cases ha : a = db
    · subst ha
      rw [scopeInfo_current h.ne_global hfile] at hi
      cases hi
      rw [hdata, hn]
    · exact h.own.header a i (by rwa [hinfo a ha] at hi)
  · rw [putCache_cache] at hk
    by_cases ha : a = db
    · subst ha
      rw [Function.update_self] at hk
      cases hk
      exact hn
    · rw [Function.update_of_ne ha, hcache] at hk
      exact h.own.cached a k hk
  · rw [currentKey, putCache_cache, Function.update_self]

/-! ### Where a write goes -/

/-- The entry has the identity of the relation. -/
def TDEMapEntry.Names (e : TDEMapEntry) (rel : RelFileLocator) : Prop :=
  e.spcOid = rel.spcOid ∧ e.relNumber = rel.relNumber

/-- The entries that saving and freeing the key of a relation write, and the places they go to. -/
inductive KeyMapWrite (w : World) (pk : TDEPrincipalKey) (rel : RelFileLocator)
    (entries : List TDEMapEntry) : ℕ → TDEMapEntry → Prop
  | save {k : InternalKey} {replaceExisting : Bool} {e : TDEMapEntry}
      (hslot : (saveSlot rel entries).1 = false ∨ replaceExisting = true)
      (he : EntryFor w pk rel k e) : KeyMapWrite w pk rel entries (saveSlot rel entries).2 e
  | free {i : ℕ} (hfound : entries.findIdx? (TDEMapEntry.isKeyOf rel.spcOid rel.relNumber) = some i) :
      KeyMapWrite w pk rel entries i emptyMapEntry

/-- The place `old` of a write for a relation: no other entry has the identity of the relation, and
this one is not the key of another. -/
structure Target (rel : RelFileLocator) (pre : List TDEMapEntry) (old : TDEMapEntry)
    (post : List TDEMapEntry) : Prop where
  rest : ∀ c ∈ pre ++ post, ¬c.Names rel
  others : ∀ r, r.dbOid = rel.dbOid → r ≠ rel → old.isKeyOf r.spcOid r.relNumber = false

variable {pre post : List TDEMapEntry}

theorem TDEMapEntry.Names.of_isKeyOf (h : e.isKeyOf rel.spcOid rel.relNumber = true) :
    e.Names rel := (isKeyOf_iff.1 h).2

theorem ArrayOk.slotKey_of_names (ha : ArrayOk entries) (hrel : rel.relNumber ≠ 0) (he : e ∈ entries)
    (hn : e.Names rel) : e.slotKey = some (rel.spcOid, rel.relNumber) := by
  rw [slotKey_eq_some]
  refine ⟨?_, hn⟩
  cases ht : e.type with
  | key => rfl
  | empty => exact absurd (hn.2.symm.trans (ha.free e he ht)) hrel

/-- Two relations of a database differ in what an entry says about them. -/
theorem eq_of_names (hr : r.dbOid = rel.dbOid) (h : e.Names r) (h' : e.Names rel) : r = rel := by
  obtain ⟨spcOid, dbOid, relNumber⟩ := r
  obtain ⟨spcOid', dbOid', relNumber'⟩ := rel
  obtain rfl : dbOid = dbOid' := hr
  obtain ⟨rfl, rfl⟩ : e.spcOid = spcOid ∧ e.relNumber = relNumber := h
  obtain ⟨rfl, rfl⟩ : e.spcOid = spcOid' ∧ e.relNumber = relNumber' := h'
  rfl

theorem Target.of_key (ha : ArrayOk (pre ++ old :: post)) (hrel : rel.relNumber ≠ 0)
    (ho : old.Names rel) : Target rel pre old post := by
  have hkey := ha.slotKey_of_names hrel (by simp) ho
  refine ⟨fun c hc hn => ?_, fun r hr hne => ?_⟩
  · have hmem : c ∈ pre ++ old :: post := by
      obtain h | h := List.mem_append.1 hc <;> simp [h]
    exact ha.unique.ne_of_mem hkey c hc (ha.slotKey_of_names hrel hmem hn)
  · by_contra hk
    rw [Bool.not_eq_false] at hk
    exact hne (eq_of_names hr (.of_isKeyOf hk) ho)

/-- The scan of a save: it stops at the first entry with the identity of the relation. Without one,
the place is that of a free entry or the end. -/
theorem saveSlot_cases (rel : RelFileLocator) (entries : List TDEMapEntry) :
    (∃ pre b post, entries = pre ++ b :: post ∧ b.Names rel ∧ (∀ c ∈ pre, ¬c.Names rel) ∧
      saveSlot rel entries = (true, pre.length)) ∨
    (∀ c ∈ entries, ¬c.Names rel) ∧
      ((∃ pre b post, entries = pre ++ b :: post ∧ b.type = .empty ∧
        saveSlot rel entries = (false, pre.length)) ∨
      saveSlot rel entries = (false, entries.length)) := by
  have hscan := findSlot_cases (fun e : TDEMapEntry => e.spcOid = rel.spcOid &&
    e.relNumber = rel.relNumber) (fun e => e.type = .empty) entries 0 none
  simp only [Bool.and_eq_true, decide_eq_true_eq, Nat.zero_add, Bool.and_eq_false_iff,
    decide_eq_false_iff_not, ← not_and_or] at hscan
  rcases hscan with ⟨pre, b, post, h, hb, hpre, hr⟩ | ⟨hall, ⟨j, hj, -⟩ | ⟨pre, b, post, h, hb, hr⟩ | hr⟩
  · exact .inl ⟨pre, b, post, h, hb, hpre, hr⟩
  · cases hj
  · exact .inr ⟨hall, .inl ⟨pre, b, post, h, hb, hr⟩⟩
  · exact .inr ⟨hall, .inr hr⟩

/-- A write goes over an entry that is free or the relation's own, or behind the last one. -/
theorem KeyMapWrite.place (h : KeyMapWrite w pk rel entries i e) (ha : ArrayOk entries)
    (hrel : rel.relNumber ≠ 0) :
    (∃ pre old post, entries = pre ++ old :: post ∧ i = pre.length ∧ Target rel pre old post) ∨
      i = entries.length ∧ (∀ c ∈ entries, ¬c.Names rel) ∧ ∃ k, EntryFor w pk rel k e := by
  cases h with
  | @save k _ _ hslot he =>
      rcases saveSlot_cases rel entries with
        ⟨pre, b, post, rfl, hb, -, hr⟩ | ⟨hall, ⟨pre, b, post, rfl, hb, hr⟩ | hr⟩
      · exact .inl ⟨pre, b, post, rfl, by rw [hr], .of_key ha hrel hb⟩
      · refine .inl ⟨pre, b, post, rfl, by rw [hr], fun c hc => hall c ?_, fun r _ _ => ?_⟩
        · obtain h | h := List.mem_append.1 hc <;> simp [h]
        · simp [TDEMapEntry.isKeyOf, hb]
      · exact .inr ⟨by rw [hr], hall, k, he⟩
  | free hfound =>
      obtain ⟨hlt, hkey, -⟩ := List.findIdx?_eq_some_iff_getElem.1 hfound
      have hsplit : entries = entries.take i ++ entries[i] :: entries.drop (i + 1) := by
        rw [List.getElem_cons_drop, List.take_append_drop]
      refine .inl ⟨_, _, _, hsplit, by rw [List.length_take]; omega, ?_⟩
      exact .of_key (by rwa [← hsplit]) hrel (.of_isKeyOf hkey)

/-! ### Contained damage -/

/-- The place in the file where a lookup finds the entry of the relation. -/
def foundAt (s : Server) (r : RelFileLocator) : Option ℕ :=
  ((s.keyFiles (.keys r.dbOid)).bind KeyFile.entries).bind fun entries =>
    entries.findIdx? (TDEMapEntry.isKeyOf r.spcOid r.relNumber)

/-- `s'` is what a write for the relation `rel` at place `i` has made of `s`, where the principal key
is `pk`. The keys of the other relations are returned as before. No two relations share an entry; the
place that was written to is one of `rel`. A key of `rel` can be saved again: afterwards there is one,
and it is the one that was saved if that was to replace another or if there was none. And the
principal key can be rotated, after which the keys of the other relations are again returned as
before. -/
structure Contained (w : World) (s s' : Server) (rel : RelFileLocator) (pk : TDEPrincipalKey)
    (i : ℕ) : Prop where
  others : ∀ r, r.dbOid = rel.dbOid → r ≠ rel →
    outcome (getSmgrKey w r) s' = outcome (getSmgrKey w r) s
  unshared : ∀ r r' j, r.dbOid = rel.dbOid → r'.dbOid = rel.dbOid →
    foundAt s' r = some j ∨ r = rel ∧ j = i → foundAt s' r' = some j ∨ r' = rel ∧ j = i → r = r'
  saves : ∀ k replaceExisting, ∃ t k', saveSmgrKey w rel k replaceExisting s' = .ok () t ∧
    outcome (getSmgrKey w rel) t = .ok (some k') ∧
    (replaceExisting = true ∨ outcome (getSmgrKey w rel) s' = .ok none → k' = k)
  rotates : ∀ newPk writeXlog, newPk.keyInfo.databaseId = rel.dbOid →
    ∃ t, performRotateKey w pk newPk writeXlog s' = .ok () t ∧
      ∀ r, r.dbOid = rel.dbOid → r ≠ rel →
        outcome (getSmgrKey w r) (t.putCache rel.dbOid (some newPk)) = outcome (getSmgrKey w r) s

theorem entryOutcome_of_keyTable {keyData keyData' : List UInt8}
    (h : keyTable w keyData' new = keyTable w keyData entries) (spcOid : Oid) (relNumber : UInt32) :
    entryOutcome w keyData' (new.find? (TDEMapEntry.isKeyOf spcOid relNumber)) =
      entryOutcome w keyData (entries.find? (TDEMapEntry.isKeyOf spcOid relNumber)) := by
  have hlookup := lookup_keyTable (w := w) keyData' new (spcOid, relNumber)
  rw [h, lookup_keyTable] at hlookup
  cases hfind : entries.find? (TDEMapEntry.isKeyOf spcOid relNumber) with
  | none =>
      rw [hfind] at hlookup
      rw [Option.map_none, eq_comm, Option.map_eq_none_iff] at hlookup
      rw [hlookup]
      rfl
  | some e =>
      rw [hfind, Option.map_some, eq_comm, Option.map_eq_some_iff] at hlookup
      obtain ⟨e', he', hunwrap⟩ := hlookup
      rw [he']
      simp only [entryOutcome, hunwrap]

theorem entryOutcome_of_readable {keyData : List UInt8} (hr : Readable w keyData entries)
    (he : e ∈ entries) (ht : e.type = .key) :
    ∃ k, entryOutcome w keyData (some e) = .ok (some k) := by
  obtain ⟨k, hk⟩ := Option.isSome_iff_exists.1 (hr e he ht)
  exact ⟨k, by simp only [entryOutcome, hk]⟩

/-- The first entry with the identity of the relation is the one that is found, if it is a key. -/
theorem find?_of_names (hpre : ∀ c ∈ pre, ¬c.Names rel)
    (he : e.isKeyOf rel.spcOid rel.relNumber = true) :
    (pre ++ e :: post).find? (TDEMapEntry.isKeyOf rel.spcOid rel.relNumber) = some e := by
  have hnone : pre.find? (TDEMapEntry.isKeyOf rel.spcOid rel.relNumber) = none :=
    List.find?_eq_none.2 fun c hc h => hpre c hc (.of_isKeyOf h)
  rw [List.find?_append, hnone, Option.none_or, List.find?_cons_of_pos he]

/-- A save, where the first entry with the identity of the relation, if there is one, is a key. -/
theorem HasKeyFile.saves (h : HasKeyFile w s rel.dbOid info entries pk)
    (hr : Readable w pk.keyData entries)
    (hfirst : ∀ c ∈ entries, c.Names rel → c.type = .key) (k : InternalKey)
    (replaceExisting : Bool) :
    ∃ t k', OpenPgTde.saveSmgrKey w rel k replaceExisting s = .ok () t ∧
      outcome (OpenPgTde.getSmgrKey w rel) t = .ok (some k') ∧
      (replaceExisting = true ∨ outcome (OpenPgTde.getSmgrKey w rel) s = .ok none → k' = k) := by
  obtain ⟨t, new, hrun, ht, hkept, hwritten⟩ := h.saveSmgrKey k replaceExisting
  refine ⟨t, ?_⟩
  -- an entry of the new key that no other entry with the identity precedes
  have hfound : ∀ {a b : List TDEMapEntry} {e : TDEMapEntry}, EntryFor w pk rel k e →
      (∀ c ∈ a, ¬c.Names rel) → new = a ++ e :: b →
      outcome (OpenPgTde.getSmgrKey w rel) t = .ok (some k) := by
    intro a b e he ha hnew
    rw [ht.getSmgrKey rfl, hnew,
      find?_of_names ha (isKeyOf_iff.2 ⟨he.type, he.spcOid, he.relNumber⟩)]
    simp only [entryOutcome, he.unwrap]
  rcases saveSlot_cases rel entries with
    ⟨a, c, b, hsplit, hc, ha, hslot⟩ | ⟨hall, ⟨a, c, b, hsplit, -, hslot⟩ | hslot⟩
  · have hmem : c ∈ entries := by simp [hsplit]
    have hkey := hfirst c hmem hc
    cases replaceExisting with
    | true =>
        obtain ⟨e, he, hnew⟩ := hwritten (.inr rfl)
        rw [hslot, hsplit, writeAt_append] at hnew
        exact ⟨k, hrun, hfound he ha hnew, fun _ => rfl⟩
    | false =>
        obtain rfl := hkept (by rw [hslot]) rfl
        obtain ⟨k', hk'⟩ := entryOutcome_of_readable hr hmem hkey
        have hfind : (a ++ c :: b).find? (TDEMapEntry.isKeyOf rel.spcOid rel.relNumber) = some c :=
          find?_of_names ha (isKeyOf_iff.2 ⟨hkey, hc⟩)
        rw [← hsplit] at hfind
        refine ⟨k', hrun, by rw [ht.getSmgrKey rfl, hfind, hk'], fun hor => ?_⟩
        rw [h.getSmgrKey rfl, hfind, hk'] at hor
        simp at hor
  · obtain ⟨e, he, hnew⟩ := hwritten (.inl (by rw [hslot]))
    rw [hslot, hsplit, writeAt_append] at hnew
    refine ⟨k, hrun, hfound he (fun c hc => hall c ?_) hnew, fun _ => rfl⟩
    simp [hsplit, hc]
  · obtain ⟨e, he, hnew⟩ := hwritten (.inl (by rw [hslot]))
    rw [hslot, writeAt_length] at hnew
    exact ⟨k, hrun, hfound he hall hnew, fun _ => rfl⟩

/-- Entries that do no harm. -/
theorem HasKeyFile.contained (h : HasKeyFile w s rel.dbOid info entries pk)
    (hr : Readable w pk.keyData new)
    (hfind : ∀ r, r.dbOid = rel.dbOid → r ≠ rel →
      new.find? (TDEMapEntry.isKeyOf r.spcOid r.relNumber) =
        entries.find? (TDEMapEntry.isKeyOf r.spcOid r.relNumber))
    (hplace : ∀ r, r.dbOid = rel.dbOid → r ≠ rel →
      new.findIdx? (TDEMapEntry.isKeyOf r.spcOid r.relNumber) ≠ some i)
    (hfirst : ∀ c ∈ new, c.Names rel → c.type = .key) :
    Contained w s (s.putKeyFile (.keys rel.dbOid) (some (.current info new))) rel pk i := by
  have hnew := h.putEntries new
  have hfound : ∀ r, r.dbOid = rel.dbOid →
      foundAt (s.putKeyFile (.keys rel.dbOid) (some (.current info new))) r =
        new.findIdx? (TDEMapEntry.isKeyOf r.spcOid r.relNumber) := by
    intro r hrel
    rw [foundAt, hrel, hnew.file]
    rfl
  refine ⟨fun r hrel hne => ?_, fun r r' j hrel hrel' hj hj' => ?_, hnew.saves hr hfirst,
    fun newPk writeXlog hn => ?_⟩
  · rw [hnew.getSmgrKey hrel, h.getSmgrKey hrel, hfind r hrel hne]
  · rw [hfound r hrel] at hj
    rw [hfound r' hrel'] at hj'
    by_contra hne
    rcases hj with hj | ⟨rfl, rfl⟩
    · rcases hj' with hj' | ⟨rfl, rfl⟩
      · obtain ⟨hlt, hk, -⟩ := List.findIdx?_eq_some_iff_getElem.1 hj
        obtain ⟨_, hk', -⟩ := List.findIdx?_eq_some_iff_getElem.1 hj'
        exact hne (eq_of_names (hrel.trans hrel'.symm) (.of_isKeyOf hk) (.of_isKeyOf hk'))
      · exact hplace r hrel hne hj
    · rcases hj' with hj' | ⟨rfl, -⟩
      · exact hplace r' hrel' (Ne.symm hne) hj'
      · exact hne rfl
  · obtain ⟨t, info', newer, hrun, htable, ht⟩ := hnew.performRotateKey hr hn writeXlog
    refine ⟨t, hrun, fun r hrel hne => ?_⟩
    rw [ht.getSmgrKey hrel, entryOutcome_of_keyTable htable, hfind r hrel hne, h.getSmgrKey hrel]

/-- A torn entry that does no harm behind the entries `pre`. It is free and has not got the identity
of the relation; or it is a key that decrypts, of the relation itself or of one that has an entry
before it. -/
def TornHarmless (w : World) (pk : TDEPrincipalKey) (rel : RelFileLocator) (pre : List TDEMapEntry)
    (t : TDEMapEntry) : Prop :=
  t.type = .empty ∧ ¬t.Names rel ∨
    t.type = .key ∧ (t.unwrap w pk.keyData).isSome = true ∧
      (t.Names rel ∨ ∃ c ∈ pre, c.isKeyOf t.spcOid t.relNumber = true)

/-- A key entry is not the first one of its relation, unless it is that of `rel`. -/
theorem TornHarmless.shadowed {e : TDEMapEntry} (h : TornHarmless w pk rel pre e)
    (hr : r.dbOid = rel.dbOid) (hne : r ≠ rel) (hk : e.isKeyOf r.spcOid r.relNumber = true) :
    ∃ c ∈ pre, c.isKeyOf r.spcOid r.relNumber = true := by
  obtain ⟨hkey, hspc, hnum⟩ := isKeyOf_iff.1 hk
  rcases h with ⟨hempty, -⟩ | ⟨-, -, hn | hpre⟩
  · rw [hkey] at hempty
    cases hempty
  · exact absurd (eq_of_names hr ⟨hspc, hnum⟩ hn) hne
  · rwa [hspc, hnum] at hpre

theorem HasKeyFile.contained_of_harmless
    (h : HasKeyFile w s rel.dbOid info (pre ++ old :: post) pk)
    (hr : Readable w pk.keyData (pre ++ old :: post)) (hp : Target rel pre old post)
    (he : TornHarmless w pk rel pre e) :
    Contained w s (s.putKeyFile (.keys rel.dbOid) (some (.current info (pre ++ e :: post)))) rel pk
      pre.length := by
  have hmem : ∀ c ∈ pre ++ e :: post, c = e ∨ c ∈ pre ++ post := by
    intro c hc
    simpa [or_left_comm] using hc
  apply h.contained
  · intro c hc hkey
    obtain rfl | hc := hmem c hc
    · rcases he with ⟨hempty, -⟩ | ⟨-, hopen, -⟩
      · rw [hempty] at hkey
        cases hkey
      · exact hopen
    · refine hr c ?_ hkey
      obtain hc | hc := List.mem_append.1 hc <;> simp [hc]
  · intro r hrel hne
    have hold := hp.others r hrel hne
    rw [List.find?_append, List.find?_append, List.find?_cons, List.find?_cons, hold]
    cases hk : e.isKeyOf r.spcOid r.relNumber with
    | false => rfl
    | true =>
        obtain ⟨c, hc, hkc⟩ := he.shadowed hrel hne hk
        have hsome : (pre.find? (TDEMapEntry.isKeyOf r.spcOid r.relNumber)).isSome = true :=
          List.find?_isSome.2 ⟨c, hc, hkc⟩
        obtain ⟨c', hc'⟩ := Option.isSome_iff_exists.1 hsome
        rw [hc']
        rfl
  · intro r hrel hne hidx
    obtain ⟨hlt, hk, hbefore⟩ := List.findIdx?_eq_some_iff_getElem.1 hidx
    rw [List.getElem_append_right (Nat.le_refl _)] at hk
    simp only [Nat.sub_self, List.getElem_cons_zero] at hk
    obtain ⟨c, hc, hkc⟩ := he.shadowed hrel hne hk
    obtain ⟨j, hj, rfl⟩ := List.mem_iff_getElem.1 hc
    have hno := hbefore j hj
    rw [List.getElem_append_left hj] at hno
    exact hno hkc
  · intro c hc hn
    obtain rfl | hc := hmem c hc
    · rcases he with ⟨-, hno⟩ | ⟨hkey, -⟩
      · exact absurd hn hno
      · exact hkey
    · exact absurd hn (hp.rest c hc)

/-- A rotation that goes through has decrypted every entry. -/
theorem Contained.readable (h : Contained w s t rel pk i) (ht : HasKeyFile w t rel.dbOid info new pk) :
    Readable w pk.keyData new := by
  obtain ⟨u, hrun, -⟩ := h.rotates pk false ht.databaseId
  have hfile : t.keyFiles (.keys pk.keyInfo.databaseId) = some (.current info new) := by
    rw [ht.databaseId, ht.file]
  exact (performRotateKey_readable pk pk false hfile).of_ok hrun

theorem HasKeyFile.harmless_of_contained
    (h : HasKeyFile w s rel.dbOid info (pre ++ old :: post) pk) (hp : Target rel pre old post)
    (hc : Contained w s (s.putKeyFile (.keys rel.dbOid) (some (.current info (pre ++ e :: post))))
      rel pk pre.length) : TornHarmless w pk rel pre e := by
  have ht := h.putEntries (pre ++ e :: post)
  have hr := hc.readable ht
  cases hkey : e.type with
  | empty =>
      refine .inl ⟨hkey, fun hn => ?_⟩
      -- a save that does not replace takes the free entry for the key of the relation
      let k : InternalKey := ⟨.aes128, [], List.replicate 16 0, rfl⟩
      obtain ⟨u, k', hrun, hfound, -⟩ := hc.saves k false
      obtain ⟨u', newer, hrun', hu, hkept, -⟩ := ht.saveSmgrKey k false
      rw [hrun] at hrun'
      cases hrun'
      have hslot : (saveSlot rel (pre ++ e :: post)).1 = true := by
        rcases saveSlot_cases rel (pre ++ e :: post) with ⟨_, _, _, -, -, -, hslot⟩ | ⟨hall, -⟩
        · rw [hslot]
        · exact absurd hn (hall e (by simp))
      obtain rfl := hkept hslot rfl
      have hnone : (pre ++ e :: post).find? (TDEMapEntry.isKeyOf rel.spcOid rel.relNumber) =
          none := by
        refine List.find?_eq_none.2 fun c hmem hk => ?_
        have hmem : c = e ∨ c ∈ pre ++ post := by simpa [or_left_comm] using hmem
        obtain rfl | hmem := hmem
        · rw [(isKeyOf_iff.1 hk).1] at hkey
          cases hkey
        · exact hp.rest c hmem (.of_isKeyOf hk)
      rw [hu.getSmgrKey rfl, hnone] at hfound
      cases hfound
  | key =>
      refine .inr ⟨hkey, hr e (by simp) hkey, ?_⟩
      by_contra hno
      rw [not_or] at hno
      obtain ⟨hnot, hpre⟩ := hno
      have hidx : (pre ++ e :: post).findIdx? (TDEMapEntry.isKeyOf e.spcOid e.relNumber) =
          some pre.length := by
        have hnone : pre.findIdx? (TDEMapEntry.isKeyOf e.spcOid e.relNumber) = none :=
          List.findIdx?_eq_none_iff.2 fun c hmem =>
            Bool.eq_false_iff.2 fun hk => hpre ⟨c, hmem, hk⟩
        have hself : e.isKeyOf e.spcOid e.relNumber = true := isKeyOf_iff.2 ⟨hkey, rfl, rfl⟩
        simp [List.findIdx?_append, hnone, List.findIdx?_cons, hself]
      have hfound : foundAt (s.putKeyFile (.keys rel.dbOid)
          (some (.current info (pre ++ e :: post)))) ⟨e.spcOid, rel.dbOid, e.relNumber⟩ =
          some pre.length := by
        rw [foundAt, ht.file]
        exact hidx
      have hsame := hc.unshared ⟨e.spcOid, rel.dbOid, e.relNumber⟩ rel pre.length rfl rfl
        (.inl hfound) (.inr ⟨rfl, rfl⟩)
      exact hnot ⟨congrArg RelFileLocator.spcOid hsame, congrArg RelFileLocator.relNumber hsame⟩

/-- A write of an entry for a relation is cut off after `n` bytes. What that does is contained exactly
if no entry stood in the place, or the entry that stands there now does no harm. -/
theorem torn_write_contained (w : World) (s : Server) (rel : RelFileLocator) (pk : TDEPrincipalKey)
    (f : KeyMapBytes) (entries : List TDEMapEntry) (i n : ℕ) (e : TDEMapEntry)
    (h : HasKeyFile w s rel.dbOid f.info entries pk) (hf : f.Holds entries)
    (hr : Readable w pk.keyData entries) (ha : ArrayOk entries) (hrel : rel.relNumber ≠ 0)
    (hw : KeyMapWrite w pk rel entries i e) (he : e.Fits) (hn : n ≤ tdeMapEntryLen) :
    ∃ new, (f.writeOneMapEntry i e n).Holds new ∧
      (Contained w s (s.putKeyFile (.keys rel.dbOid) (some (.current f.info new))) rel pk i ↔
        ∀ old t, entries[i]? = some old → old.torn e n = some t →
          TornHarmless w pk rel (entries.take i) t) := by
  rcases hw.place ha hrel with ⟨pre, old, post, rfl, rfl, hp⟩ | ⟨rfl, hall, k, hek⟩
  · have hat : (pre ++ old :: post)[pre.length]? = some old := by simp
    obtain ⟨t, htorn, hholds⟩ := hf.set he hat n
    have hset : (pre ++ old :: post).set pre.length t = pre ++ t :: post := by simp
    rw [hset] at hholds
    refine ⟨_, hholds, fun hc old' t' hold' ht' => ?_, fun hc => ?_⟩
    · rw [hat] at hold'
      cases hold'
      rw [htorn] at ht'
      cases ht'
      rw [List.take_left]
      exact h.harmless_of_contained hp hc
    · have hharm := hc old t hat htorn
      rw [List.take_left] at hharm
      exact h.contained_of_harmless hr hp hharm
  · refine ⟨_, hf.append he hn, fun _ old t hold => ?_, fun _ => ?_⟩
    · simp at hold
    · have hek' : e.isKeyOf rel.spcOid rel.relNumber = true :=
        isKeyOf_iff.2 ⟨hek.type, hek.spcOid, hek.relNumber⟩
      have hnot : ∀ r, r.dbOid = rel.dbOid → r ≠ rel → e.isKeyOf r.spcOid r.relNumber = false := by
        intro r hdb hne
        by_contra hk
        rw [Bool.not_eq_false] at hk
        exact hne (eq_of_names hdb (.of_isKeyOf hk) (.of_isKeyOf hek'))
      split
      · apply h.contained
        · intro c hc hkey
          obtain hc | hc := List.mem_append.1 hc
          · exact hr c hc hkey
          · rw [List.mem_singleton.1 hc, hek.unwrap]
            rfl
        · intro r hdb hne
          simp [List.find?_append, hnot r hdb hne]
        · intro r hdb hne hidx
          obtain ⟨hlt, hk, -⟩ := List.findIdx?_eq_some_iff_getElem.1 hidx
          simp [hnot r hdb hne] at hk
        · intro c hc hname
          obtain hc | hc := List.mem_append.1 hc
          · exact absurd hname (hall c hc)
          · rw [List.mem_singleton.1 hc, hek.type]
      · rw [List.append_nil]
        refine h.contained hr (fun _ _ _ => rfl) (fun r _ _ hidx => ?_) fun c hc hname =>
          absurd hname (hall c hc)
        obtain ⟨hlt, -⟩ := List.findIdx?_eq_some_iff_getElem.1 hidx
        omega

/-- A cipher for evaluation with tags of the size of the structure's: the text is left as it is, and
the tag repeats the sum of everything that went into it. -/
def sampleSums : Lib.Aead where
  encrypt key iv aad input := (input, List.replicate 16 (key ++ iv ++ aad ++ input).sum)
  decrypt key iv aad input tag :=
    if tag = List.replicate 16 (key ++ iv ++ aad ++ input).sum then some input else none
  decrypt_encrypt _ _ _ _ := if_pos rfl
  length_encrypt _ _ _ _ := rfl

def sampleSumWorld : World := { sampleWorld with aead := sampleSums }

/-- A key entry of a relation of the sample database. -/
def sampleSumEntry (relNumber : UInt32) : TDEMapEntry :=
  let e : TDEMapEntry :=
    { cipher := .aes128, spcOid := 1663, relNumber := relNumber, type := .key,
      keyBaseIv := List.replicate 16 1, entryIv := List.replicate 16 2, aeadTag := [],
      encryptedKeyData := List.replicate 16 3 ++ List.replicate 48 0 }
  { e with
    aeadTag := (sampleSums.encrypt (List.replicate 16 65) e.entryIv e.aad (List.replicate 16 3)).2 }

def sampleSumKey : TDEPrincipalKey := ⟨(sampleInfo 5).data, List.replicate 16 65⟩

/-- One relation has a key, and there is a free entry behind it. -/
def sampleSumEntries : List TDEMapEntry := [sampleSumEntry 16384, emptyMapEntry]

def sampleSumServer : Server :=
  (sampleServer.putKeyFile (.keys 5) (some (.current (sampleInfo 5) sampleSumEntries))).putCache 5
    (some sampleSumKey)

def sampleSumFile : KeyMapBytes := ⟨sampleInfo 5, (sampleSumEntries.map TDEMapEntry.bytes).flatten⟩

/-- The relation whose key is to be saved. -/
def sampleSumRelation : RelFileLocator := ⟨1663, 5, 16385⟩

theorem sampleSumServer_hasKeyFile :
    HasKeyFile sampleSumWorld sampleSumServer 5 (sampleInfo 5) sampleSumEntries sampleSumKey where
  sysOk _ := rfl
  own := by
    refine ⟨fun a info hi => ?_, fun a k hk => ?_⟩
    · by_cases ha : a = 5
      · subst ha
        have hinfo : scopeInfo sampleSumServer 5 = some (sampleInfo 5) := rfl
        rw [hinfo] at hi
        cases hi
        rfl
      · have hnone : scopeInfo sampleSumServer a = none := by
          unfold scopeInfo
          split
          · rfl
          · simp [sampleSumServer, sampleServer, Server.putCache, ha]
        rw [hnone] at hi
        cases hi
    · by_cases ha : a = 5
      · subst ha
        cases hk
        rfl
      · simp [sampleSumServer, sampleServer, Server.putCache, Server.putKeyFile, ha] at hk
  ne_global := by decide
  file := rfl
  key := rfl

theorem sampleSumEntry_fits (relNumber : UInt32) : (sampleSumEntry relNumber).Fits :=
  ⟨rfl, rfl, by simp [sampleSumEntry, sampleSums], rfl⟩

theorem sampleSumFile_holds : sampleSumFile.Holds sampleSumEntries := by
  refine ⟨by decide +kernel, fun e he => ?_⟩
  simp only [sampleSumEntries, List.mem_cons, List.not_mem_nil, or_false] at he
  obtain rfl | rfl := he
  · exact sampleSumEntry_fits 16384
  · exact emptyMapEntry_fits

theorem sampleSumEntries_ok :
    Readable sampleSumWorld sampleSumKey.keyData sampleSumEntries ∧ ArrayOk sampleSumEntries := by
  refine ⟨?_, ?_, by decide +kernel⟩
  · unfold Readable
    decide +kernel
  · unfold Lib.SlotArray.Unique
    decide +kernel

/-- The save goes to the free entry. -/
theorem sampleSum_write : KeyMapWrite sampleSumWorld sampleSumKey sampleSumRelation sampleSumEntries
    1 (sampleSumEntry 16385) :=
  @KeyMapWrite.save _ _ _ _ ⟨.aes128, List.replicate 16 1, List.replicate 16 3, rfl⟩ true _
    (.inr rfl) ⟨rfl, rfl, rfl, by decide +kernel⟩

/-- Nine bytes do not make up the identity. -/
theorem torn_write_contained_nine_bytes : ∃ new,
    (sampleSumFile.writeOneMapEntry 1 (sampleSumEntry 16385) 9).Holds new ∧
    Contained sampleSumWorld sampleSumServer (sampleSumServer.putKeyFile (.keys 5)
      (some (.current (sampleInfo 5) new))) sampleSumRelation sampleSumKey 1 := by
  obtain ⟨new, hnew, hiff⟩ := torn_write_contained sampleSumWorld sampleSumServer sampleSumRelation
    sampleSumKey sampleSumFile sampleSumEntries 1 9 (sampleSumEntry 16385)
    sampleSumServer_hasKeyFile sampleSumFile_holds sampleSumEntries_ok.1 sampleSumEntries_ok.2
    (by decide) sampleSum_write (sampleSumEntry_fits 16385) (by decide)
  refine ⟨new, hnew, hiff.2 fun old t hold ht => ?_⟩
  obtain rfl : emptyMapEntry = old := Option.some.inj hold
  have htype : (emptyMapEntry.torn (sampleSumEntry 16385) 9).map TDEMapEntry.type = some .empty := by
    decide +kernel
  have hnum : (emptyMapEntry.torn (sampleSumEntry 16385) 9).map TDEMapEntry.relNumber = some 1 := by
    decide +kernel
  rw [ht] at htype hnum
  refine .inl ⟨Option.some.inj htype, fun hname => ?_⟩
  have hone : t.relNumber = 1 := Option.some.inj hnum
  rw [hname.2] at hone
  exact absurd hone (by decide)

/-- Thirteen bytes make it a key entry that does not decrypt. -/
theorem torn_write_thirteen_bytes :
    HasKeyFile sampleSumWorld sampleSumServer 5 (sampleInfo 5) sampleSumEntries sampleSumKey ∧
    sampleSumFile.Holds sampleSumEntries ∧
    Readable sampleSumWorld sampleSumKey.keyData sampleSumEntries ∧ ArrayOk sampleSumEntries ∧
    KeyMapWrite sampleSumWorld sampleSumKey sampleSumRelation sampleSumEntries 1
      (sampleSumEntry 16385) ∧ (sampleSumEntry 16385).Fits ∧
    ∃ new, (sampleSumFile.writeOneMapEntry 1 (sampleSumEntry 16385) 13).Holds new ∧
      ¬Contained sampleSumWorld sampleSumServer (sampleSumServer.putKeyFile (.keys 5)
        (some (.current (sampleInfo 5) new))) sampleSumRelation sampleSumKey 1 := by
  have hat : sampleSumEntries[1]? = some emptyMapEntry := rfl
  obtain ⟨t, htorn, hholds⟩ := sampleSumFile_holds.set (sampleSumEntry_fits 16385) hat 13
  refine ⟨sampleSumServer_hasKeyFile, sampleSumFile_holds, sampleSumEntries_ok.1,
    sampleSumEntries_ok.2, sampleSum_write, sampleSumEntry_fits 16385, _, hholds, fun hc => ?_⟩
  have hr := hc.readable (sampleSumServer_hasKeyFile.putEntries _) t (by simp [sampleSumEntries])
  have hkey : (emptyMapEntry.torn (sampleSumEntry 16385) 13).map TDEMapEntry.type = some .key := by
    decide +kernel
  have hno : (emptyMapEntry.torn (sampleSumEntry 16385) 13).map
      (TDEMapEntry.unwrap sampleSumWorld sampleSumKey.keyData) = some none := by
    decide +kernel
  rw [htorn] at hkey hno
  have hsome := hr (Option.some.inj hkey)
  rw [show t.unwrap sampleSumWorld sampleSumKey.keyData = none from Option.some.inj hno] at hsome
  cases hsome

end OpenPgTde
