import OpenPgTde.EventCapture.Nesting
import OpenPgTde.Smgr.Runs

/-!
The encryption of storage that an `ALTER` statement makes anew.

`ALTER TABLE` may touch all tables of an inheritance tree, or all tables of a type, and make new
storage for any of them, for their indexes, their toast tables and their sequences. The trigger
fires once for all of that. It goes through the tree and asks whether the tables with storage use
the encrypted access method; if some do and some do not, the statement is refused, and otherwise the
answer is the mode for everything the statement makes. So storage that was encrypted just when its
table uses the encrypted access method is made anew as it was.

`ALTER SEQUENCE` leaves a sequence as it is, except that one that is given to a column follows the
table, and one that is given up is not encrypted any more.
-/

namespace OpenPgTde

open Lib.Effect

/-! ### Trees of relations -/

/-- `t` is `relid` or one of its descendants. -/
def Catalog.InTree (cat : Catalog) (relid t : Oid) : Prop :=
  Relation.ReflTransGen (fun a b => b ∈ cat.children a) relid t

/-- A relation with storage, of the encrypted access method or not. -/
def Catalog.Stores (cat : Catalog) (t : Oid) (encrypted : Bool) : Prop :=
  (cat.pgClass t).relkind.hasStorage = true ∧
    decide ((cat.pgClass t).relam = cat.tdeTableAmOid) = encrypted

/-- The mix has encrypted storage, or plain storage, in it. -/
def EncryptionMix.Covers : EncryptionMix → Bool → Prop
  | .unknown, _ => False
  | .plain, b => b = false
  | .encrypted, b => b = true
  | .mixed, _ => True

theorem mixChildren_covers (enc : EncryptionMix) (children : List EncryptionMix)
    (encrypted : Bool) :
    (mixChildren enc children).Covers encrypted ↔
      enc.Covers encrypted ∨ ∃ childenc ∈ children, childenc.Covers encrypted := by
  induction children generalizing enc with
  | nil => simp [mixChildren]
  | cons childenc rest ih =>
      rw [List.exists_mem_cons_iff]
      unfold mixChildren
      split
      · rename_i hchild
        rw [ih, hchild]
        simp [EncryptionMix.Covers]
      · split
        · rename_i henc
          rw [ih, henc]
          simp [EncryptionMix.Covers]
        · split
          · -- the loop stops: two different answers cover everything
            cases enc <;> cases childenc <;> cases encrypted <;> simp_all [EncryptionMix.Covers]
          · rename_i hsame
            rw [not_not] at hsame
            rw [ih, hsame, ← or_assoc, or_self]

theorem ownMix_covers (cat : Catalog) (relid : Oid) (encrypted : Bool) :
    (ownMix cat relid).Covers encrypted ↔ cat.Stores relid encrypted := by
  unfold ownMix Catalog.Stores
  split
  · rename_i hstorage
    split
    · rename_i ham
      simp [EncryptionMix.Covers, hstorage, ham, eq_comm]
    · rename_i ham
      simp [EncryptionMix.Covers, hstorage, ham, eq_comm]
  · rename_i hstorage
    simp [EncryptionMix.Covers, hstorage]

theorem alterTableEncryptionMix_eq (cat : Catalog) (relid : Oid) :
    alterTableEncryptionMix cat relid =
      mixChildren (ownMix cat relid) ((cat.children relid).map (alterTableEncryptionMix cat)) := by
  rw [alterTableEncryptionMix, List.attach_map_val]

/-- The mix of a relation has in it what there is in the tree. -/
theorem alterTableEncryptionMix_covers (cat : Catalog) (relid : Oid) (encrypted : Bool) :
    (alterTableEncryptionMix cat relid).Covers encrypted ↔
      ∃ t, cat.InTree relid t ∧ cat.Stores t encrypted := by
  rw [alterTableEncryptionMix_eq, mixChildren_covers, ownMix_covers]
  constructor
  · rintro (h | ⟨childenc, hmem, h⟩)
    · exact ⟨relid, Relation.ReflTransGen.refl, h⟩
    · obtain ⟨child, hchild, rfl⟩ := List.mem_map.mp hmem
      obtain ⟨t, ht, hstores⟩ := (alterTableEncryptionMix_covers cat child encrypted).mp h
      exact ⟨t, Relation.ReflTransGen.head hchild ht, hstores⟩
  · rintro ⟨t, ht, hstores⟩
    rcases Relation.ReflTransGen.cases_head ht with rfl | ⟨child, hchild, hrest⟩
    · exact Or.inl hstores
    · refine Or.inr ⟨_, List.mem_map_of_mem hchild, ?_⟩
      exact (alterTableEncryptionMix_covers cat child encrypted).mpr ⟨t, hrest, hstores⟩
termination_by cat.rank relid
decreasing_by all_goals exact cat.rank_children hchild

/-- Where the mix is not refused, it says of every relation with storage how it is. -/
theorem alterTableEncryptionMix_inTree {cat : Catalog} {relid t : Oid} {encrypted : Bool}
    (h : alterTableEncryptionMix cat relid ≠ .mixed) (ht : cat.InTree relid t)
    (hstores : cat.Stores t encrypted) :
    alterTableEncryptionMix cat relid = if encrypted then .encrypted else .plain := by
  have hcovers : (alterTableEncryptionMix cat relid).Covers encrypted :=
    (alterTableEncryptionMix_covers cat relid encrypted).mpr ⟨t, ht, hstores⟩
  cases hmix : alterTableEncryptionMix cat relid with
  | unknown =>
      rw [hmix] at hcovers
      exact absurd hcovers id
  | plain =>
      rw [hmix] at hcovers
      rw [show encrypted = false from hcovers]
      rfl
  | encrypted =>
      rw [hmix] at hcovers
      rw [show encrypted = true from hcovers]
      rfl
  | mixed => exact absurd hmix h

theorem EncryptionMix.ext_covers {m m' : EncryptionMix} (h : ∀ b, m.Covers b ↔ m'.Covers b) :
    m = m' := by
  have htrue := h true
  have hfalse := h false
  cases m <;> cases m' <;> simp_all [EncryptionMix.Covers]

theorem EncryptionMix.eq_unknown_iff (m : EncryptionMix) :
    m = .unknown ↔ ¬m.Covers true ∧ ¬m.Covers false := by
  cases m <;> simp [EncryptionMix.Covers]

theorem EncryptionMix.eq_encrypted_iff (m : EncryptionMix) :
    m = .encrypted ↔ m.Covers true ∧ ¬m.Covers false := by
  cases m <;> simp [EncryptionMix.Covers]

theorem EncryptionMix.eq_plain_iff (m : EncryptionMix) :
    m = .plain ↔ m.Covers false ∧ ¬m.Covers true := by
  cases m <;> simp [EncryptionMix.Covers]

theorem EncryptionMix.eq_mixed_iff (m : EncryptionMix) :
    m = .mixed ↔ m.Covers true ∧ m.Covers false := by
  cases m <;> simp [EncryptionMix.Covers]

theorem Catalog.stores_true_iff {cat : Catalog} {t : Oid} :
    cat.Stores t true ↔ (cat.pgClass t).relkind.hasStorage = true ∧
      (cat.pgClass t).relam = cat.tdeTableAmOid := by
  rw [Catalog.Stores, decide_eq_true_iff]

theorem Catalog.stores_false_iff {cat : Catalog} {t : Oid} :
    cat.Stores t false ↔ (cat.pgClass t).relkind.hasStorage = true ∧
      (cat.pgClass t).relam ≠ cat.tdeTableAmOid := by
  rw [Catalog.Stores, decide_eq_false_iff_not]

/-- The same relations with the same children, which may come in another order. -/
structure Catalog.Reorders (cat cat' : Catalog) : Prop where
  pgClass : cat'.pgClass = cat.pgClass
  tdeTableAmOid : cat'.tdeTableAmOid = cat.tdeTableAmOid
  children : ∀ r, (cat'.children r).Perm (cat.children r)

theorem Catalog.Reorders.inTree_iff {cat cat' : Catalog} (h : cat.Reorders cat') (relid t : Oid) :
    cat'.InTree relid t ↔ cat.InTree relid t := by
  unfold Catalog.InTree
  simp only [(h.children _).mem_iff]

theorem Catalog.Reorders.stores_iff {cat cat' : Catalog} (h : cat.Reorders cat') (t : Oid)
    (encrypted : Bool) : cat'.Stores t encrypted ↔ cat.Stores t encrypted := by
  simp only [Catalog.Stores, h.pgClass, h.tdeTableAmOid]

theorem alterTableEncryptionMix_reorders {cat cat' : Catalog} (h : cat.Reorders cat')
    (relid : Oid) : alterTableEncryptionMix cat' relid = alterTableEncryptionMix cat relid := by
  apply EncryptionMix.ext_covers
  intro encrypted
  simp only [alterTableEncryptionMix_covers, h.inTree_iff, h.stores_iff]

/-- The mix says which kinds of storage the tree has: none, encrypted storage only, plain storage
only, or both. The order of the children has no part in it. -/
theorem alterTableEncryptionMix_classifies (cat : Catalog) (relid : Oid) :
    (alterTableEncryptionMix cat relid = .unknown ↔
      ∀ t, cat.InTree relid t → ¬(cat.pgClass t).relkind.hasStorage = true) ∧
    (alterTableEncryptionMix cat relid = .encrypted ↔
      (∃ t, cat.InTree relid t ∧ (cat.pgClass t).relkind.hasStorage = true) ∧
      ∀ t, cat.InTree relid t → (cat.pgClass t).relkind.hasStorage = true →
        (cat.pgClass t).relam = cat.tdeTableAmOid) ∧
    (alterTableEncryptionMix cat relid = .plain ↔
      (∃ t, cat.InTree relid t ∧ (cat.pgClass t).relkind.hasStorage = true) ∧
      ∀ t, cat.InTree relid t → (cat.pgClass t).relkind.hasStorage = true →
        (cat.pgClass t).relam ≠ cat.tdeTableAmOid) ∧
    (alterTableEncryptionMix cat relid = .mixed ↔
      (∃ t, cat.InTree relid t ∧ (cat.pgClass t).relkind.hasStorage = true ∧
        (cat.pgClass t).relam = cat.tdeTableAmOid) ∧
      ∃ t, cat.InTree relid t ∧ (cat.pgClass t).relkind.hasStorage = true ∧
        (cat.pgClass t).relam ≠ cat.tdeTableAmOid) ∧
    ∀ cat', cat.Reorders cat' →
      alterTableEncryptionMix cat' relid = alterTableEncryptionMix cat relid := by
  have htrue := alterTableEncryptionMix_covers cat relid true
  have hfalse := alterTableEncryptionMix_covers cat relid false
  simp only [Catalog.stores_true_iff] at htrue
  simp only [Catalog.stores_false_iff] at hfalse
  refine ⟨?_, ?_, ?_, ?_, fun cat' h => alterTableEncryptionMix_reorders h relid⟩
  · rw [EncryptionMix.eq_unknown_iff, htrue, hfalse]
    constructor
    · rintro ⟨hno, hno'⟩ t ht hstorage
      rcases eq_or_ne (cat.pgClass t).relam cat.tdeTableAmOid with ham | ham
      · exact hno ⟨t, ht, hstorage, ham⟩
      · exact hno' ⟨t, ht, hstorage, ham⟩
    · intro hnone
      exact ⟨fun ⟨t, ht, hstorage, _⟩ => hnone t ht hstorage,
        fun ⟨t, ht, hstorage, _⟩ => hnone t ht hstorage⟩
  · rw [EncryptionMix.eq_encrypted_iff, htrue, hfalse]
    constructor
    · rintro ⟨⟨t, ht, hstorage, -⟩, hno⟩
      refine ⟨⟨t, ht, hstorage⟩, fun t ht hstorage => ?_⟩
      by_contra ham
      exact hno ⟨t, ht, hstorage, ham⟩
    · rintro ⟨⟨t, ht, hstorage⟩, hall⟩
      exact ⟨⟨t, ht, hstorage, hall t ht hstorage⟩,
        fun ⟨t, ht, hstorage, ham⟩ => ham (hall t ht hstorage)⟩
  · rw [EncryptionMix.eq_plain_iff, htrue, hfalse]
    constructor
    · rintro ⟨⟨t, ht, hstorage, -⟩, hno⟩
      exact ⟨⟨t, ht, hstorage⟩, fun t ht hstorage ham => hno ⟨t, ht, hstorage, ham⟩⟩
    · rintro ⟨⟨t, ht, hstorage⟩, hall⟩
      exact ⟨⟨t, ht, hstorage, hall t ht hstorage⟩,
        fun ⟨t, ht, hstorage, ham⟩ => hall t ht hstorage ham⟩
  · rw [EncryptionMix.eq_mixed_iff, htrue, hfalse]

/-! ### The mode of a statement -/

theorem lastSetAccessMethod_none {cmds : List AlterTableCmd}
    (h : ∀ name, .setAccessMethod name ∉ cmds) : lastSetAccessMethod cmds = none := by
  unfold lastSetAccessMethod
  induction cmds with
  | nil => rfl
  | cons cmd cmds ih =>
      cases cmd with
      | setAccessMethod name => exact absurd List.mem_cons_self (h name)
      | other => exact ih fun name hmem => h name (List.mem_cons_of_mem _ hmem)

/-- Without `SET ACCESS METHOD` the mode is that of every relation of the tree that has storage. -/
theorem alterTableStmtEvent_mode {ctx : DdlContext} {tree : ℕ} {relid t : Oid}
    {cmds : List AlterTableCmd} {event : TdeDdlEvent} {encrypted : Bool}
    (h : alterTableStmtEvent ctx tree relid cmds = .ok event)
    (hcmds : ∀ name, .setAccessMethod name ∉ cmds) (ht : ctx.catalog.InTree relid t)
    (hstores : ctx.catalog.Stores t encrypted) : event.encryptMode = modeFor encrypted := by
  have hmix : alterTableEncryptionMix ctx.catalog relid ≠ .mixed := by
    intro hmix
    simp only [alterTableStmtEvent, bind, Except.bind, hmix, if_true] at h
    cases h
  have hvalue := alterTableEncryptionMix_inTree hmix ht hstores
  simp only [alterTableStmtEvent, bind, Except.bind, lastSetAccessMethod_none hcmds, hvalue] at h
  cases encrypted with
  | false =>
      simp only [Bool.false_eq_true, if_false, reduceCtorEq, if_true] at h
      cases h
      rfl
  | true =>
      simp only [if_true, reduceCtorEq, if_false] at h
      split at h
      · cases h
      · cases h
        rfl

/-- A statement on an existing relation that is not refused has pushed its event. -/
theorem alterTable_mode {ctx : DdlContext} {tree : ℕ} {relation : List String}
    {cmds : List AlterTableCmd} {relid t : Oid} {s s' : Session} {encrypted : Bool}
    (hrelid : ctx.catalog.relid relation = some relid)
    (hstart : ddlCommandStartCapture ctx tree (.alterTableStmt relation cmds) s = .ok () s')
    (hcmds : ∀ name, .setAccessMethod name ∉ cmds) (ht : ctx.catalog.InTree relid t)
    (hstores : ctx.catalog.Stores t encrypted) :
    currentTdeEncryptModeValidated s' = modeFor encrypted := by
  have hcap : capturedEvent ctx tree (.alterTableStmt relation cmds) =
      some <$> alterTableStmtEvent ctx tree relid cmds := by
    simp only [capturedEvent, hrelid]
  cases hev : alterTableStmtEvent ctx tree relid cmds with
  | error e =>
      rw [hev] at hcap
      unfold ddlCommandStartCapture at hstart
      rw [hcap] at hstart
      cases hstart
  | ok event =>
      rw [hev] at hcap
      rw [(ddlCommandStartCapture_spec s hcap).of_ok hstart, Session.mode_push]
      exact alterTableStmtEvent_mode hev hcmds ht hstores

/-- What `ALTER SEQUENCE` makes of the encryption of the sequence, by its first `OWNED BY`. -/
def SequenceMode (ctx : DdlContext) (options : List SeqOption) (mode : TDEEncryptMode) : Prop :=
  match ownedBy options with
  | [] => mode = .retain
  | [_] => mode = .plain
  | names => ∃ table, ctx.catalog.relid names.dropLast = some table ∧
      mode = modeFor ((ctx.catalog.pgClass table).relam = ctx.catalog.tdeTableAmOid)

theorem ownedSequenceMode_eq {ctx : DdlContext} {names : List String} {mode : TDEEncryptMode}
    (h : ownedSequenceMode ctx names = .ok mode) :
    ∃ table, ctx.catalog.relid names.dropLast = some table ∧
      mode = modeFor ((ctx.catalog.pgClass table).relam = ctx.catalog.tdeTableAmOid) := by
  simp only [ownedSequenceMode, bind, Except.bind, openRelation] at h
  cases hrelid : ctx.catalog.relid names.dropLast with
  | none =>
      rw [hrelid] at h
      cases h
  | some table =>
      rw [hrelid] at h
      refine ⟨table, rfl, ?_⟩
      simp only at h
      split at h
      · rename_i ham
        split at h
        · cases h
        · cases h
          simp [modeFor, ham]
      · rename_i ham
        cases h
        simp [modeFor, ham]

theorem alterSeqStmtEvent_mode {ctx : DdlContext} {tree : ℕ} {relid : Oid}
    {options : List SeqOption} {event : TdeDdlEvent}
    (h : alterSeqStmtEvent ctx tree relid options = .ok event) :
    SequenceMode ctx options event.encryptMode := by
  unfold SequenceMode
  unfold alterSeqStmtEvent at h
  split
  · rename_i hnames
    simp only [hnames, List.length_nil] at h
    cases h
    rfl
  · rename_i hnames
    simp only [hnames, List.length_singleton] at h
    cases h
    rfl
  · rename_i names h0 h1
    have hlen : 1 < (ownedBy options).length := by
      match hn : ownedBy options with
      | [] => exact absurd hn h0
      | [name] => exact absurd hn (h1 name)
      | _ :: _ :: rest => simp
    rw [if_pos hlen] at h
    simp only [bind, Except.bind] at h
    cases hmode : ownedSequenceMode ctx (ownedBy options) with
    | error e =>
        rw [hmode] at h
        cases h
    | ok mode =>
        rw [hmode] at h
        cases h
        exact ownedSequenceMode_eq hmode

theorem alterSeq_mode {ctx : DdlContext} {tree : ℕ} {sequence : List String}
    {options : List SeqOption} {relid : Oid} {s s' : Session}
    (hrelid : ctx.catalog.relid sequence = some relid)
    (hstart : ddlCommandStartCapture ctx tree (.alterSeqStmt sequence options) s = .ok () s') :
    SequenceMode ctx options (currentTdeEncryptModeValidated s') := by
  have hcap : capturedEvent ctx tree (.alterSeqStmt sequence options) =
      some <$> alterSeqStmtEvent ctx tree relid options := by
    simp only [capturedEvent, hrelid]
  cases hev : alterSeqStmtEvent ctx tree relid options with
  | error e =>
      rw [hev] at hcap
      unfold ddlCommandStartCapture at hstart
      rw [hcap] at hstart
      cases hstart
  | ok event =>
      rw [hev] at hcap
      rw [(ddlCommandStartCapture_spec s hcap).of_ok hstart, Session.mode_push]
      exact alterSeqStmtEvent_mode hev

/-! ### New storage -/

variable {w : World} {p : ℕ} {x y : SmgrState} {relold : RelFileLocator}
  {rel : RelFileLocatorBackend}

/-- The storage of a relation is encrypted. -/
def Encrypted (w : World) (x : SmgrState) (rel : RelFileLocatorBackend) : Prop :=
  (relKeyOf w x rel).isSome = true

/-- The storage `relold` of a relation is about to be replaced by `rel`, which nobody has used yet
and whose number is not one of a catalog. -/
structure Replaceable (w : World) (p : ℕ) (x : SmgrState) (relold : RelFileLocator)
    (rel : RelFileLocatorBackend) : Prop where
  keysOk : KeysOk w x.server
  old : Own p ⟨relold, rel.backend⟩
  own : Own p rel
  unused : Unused w x rel
  number : ¬rel.locator.relNumber < firstUnpinnedObjectId

/-- Whether storage made in a mode is encrypted, by whether the storage it replaces is. -/
def TDEEncryptMode.Asks (mode : TDEEncryptMode) (before : Prop) : Prop :=
  match mode with
  | .retain => before
  | .encrypt => True
  | .plain => False

theorem asks_modeFor (c : Prop) [Decidable c] (before : Prop) :
    (modeFor (decide c)).Asks before ↔ c := by
  by_cases hc : c
  · simp [modeFor, TDEEncryptMode.Asks, hc]
  · simp [modeFor, TDEEncryptMode.Asks, hc]

theorem tdeSmgrShouldEncrypt_asks (hx : KeysOk w x.server) (hold : Own p ⟨relold, rel.backend⟩)
    (hnum : ¬rel.locator.relNumber < firstUnpinnedObjectId) (mode : TDEEncryptMode) :
    wp (tdeSmgrShouldEncrypt p mode rel relold)
      (fun b _ => b = true ↔ mode.Asks (Encrypted w x ⟨relold, rel.backend⟩)) (fun _ _ => True) x := by
  unfold tdeSmgrShouldEncrypt
  rw [if_neg hnum]
  cases mode with
  | plain => simp [TDEEncryptMode.Asks]
  | encrypt => simp [TDEEncryptMode.Asks]
  | retain =>
      cases hb : rel.backend with
      | none =>
          have hvalid := hold.valid hb
          simp only [tdeSmgrIsEncrypted, onSmgrServer, wp_zoom]
          refine (hasSmgrKey_spec hx.consistent relold hvalid.ne_global).mono (fun b t ht => ?_)
            fun _ _ _ => trivial
          rw [ht.2]
          exact Iff.rfl
      | some b =>
          have hown : b = p := hold.temp b hb
          simp only [tdeSmgrIsEncrypted, wp_bind, wp_get, wp_pure, TDEEncryptMode.Asks, Encrypted,
            relKeyOf, hown]

/-- What the process remembers of the storage it made is what the mode asked for. -/
theorem tdeMdcreate_status (h : Replaceable w p x relold rel) (mode : TDEEncryptMode) :
    wp (tdeMdcreate w p mode relold rel .main false)
      (fun _ y => (mode.Asks (Encrypted w x ⟨relold, rel.backend⟩) ∧
          ∃ k, (y.processes p).status rel = .encrypted k) ∨
        (¬mode.Asks (Encrypted w x ⟨relold, rel.backend⟩) ∧
          (y.processes p).status rel = .notEncrypted)) (fun _ _ => True) x := by
  rw [tdeMdcreate, wp_bind]
  refine mdcreate_spec.mono (fun _ z hz => ?_) fun _ _ _ => trivial
  obtain ⟨-, rfl⟩ := hz
  simp only [Bool.false_eq_true, if_false, ne_eq, not_true_eq_false]
  rw [wp_bind]
  have hasks : wp (tdeSmgrShouldEncrypt p mode rel relold)
      (fun b _ => b = true ↔ mode.Asks (Encrypted w x ⟨relold, rel.backend⟩)) (fun _ _ => True)
      (x.putFile rel .main ⟨0, fun _ => 0⟩) :=
    tdeSmgrShouldEncrypt_asks (x := x.putFile rel .main ⟨0, fun _ => 0⟩) h.keysOk h.old h.number mode
  refine hasks.mono (fun b z hb => ?_) fun _ _ _ => trivial
  simp only [wp_ite, wp_bind, wp_modify]
  refine ⟨fun htrue => ?_, fun hfalse => ?_⟩
  · refine wp.of_forall (fun k u => Or.inl ⟨hb.mp htrue, k, ?_⟩) fun _ _ => trivial
    exact status_setStatus_self u p rel _
  · refine wp.of_forall (fun _ u => Or.inr ⟨fun hasks => hfalse (hb.mpr hasks), ?_⟩)
      fun _ _ => trivial
    exact status_setStatus_self u p rel _

/-- The storage is encrypted as the mode asks. -/
theorem tdeMdcreate_asks (h : Replaceable w p x relold rel) (mode : TDEEncryptMode)
    (hcreate : tdeMdcreate w p mode relold rel .main false x = .ok () y) :
    Encrypted w y rel ↔ mode.Asks (Encrypted w x ⟨relold, rel.backend⟩) := by
  have hcreated : Created w p rel x y :=
    (tdeMdcreate_main_spec h.keysOk h.own (h.unused.status p) h.unused.temp mode relold).of_ok hcreate
  have hstatus := hcreated.statusOk
  unfold StatusOk at hstatus
  rcases (tdeMdcreate_status h mode).of_ok hcreate with ⟨hasks, k, hk⟩ | ⟨hasks, hnot⟩
  · rw [hk] at hstatus
    have hkey : Encrypted w y rel := by
      rw [Encrypted, show relKeyOf w y rel = some k from hstatus]
      rfl
    exact iff_of_true hkey hasks
  · rw [hnot] at hstatus
    have hkey : ¬Encrypted w y rel := by
      rw [Encrypted, show relKeyOf w y rel = none from hstatus]
      exact Bool.false_ne_true
    exact iff_of_false hkey hasks

/-- An `ALTER TABLE`, or any statement that comes as one, makes storage anew as it was, for a
relation whose storage was encrypted just when the table it belongs to uses the encrypted access
method; the table is the one the statement is about or any other of its tree. `ALTER SEQUENCE` makes
the storage as it was, unless the sequence is given to a column: then it is encrypted just when the
table of that is, and when it is given up it is not encrypted. -/
theorem alter_keeps_encryption {ctx : DdlContext} {tree : ℕ} {relation : List String} {relid : Oid}
    {s s' : Session} (hrelid : ctx.catalog.relid relation = some relid)
    (h : Replaceable w p x relold rel)
    (hcreate : tdeMdcreate w p (currentTdeEncryptModeValidated s') relold rel .main false x =
      .ok () y) :
    (∀ cmds, (∀ name, .setAccessMethod name ∉ cmds) →
      ddlCommandStartCapture ctx tree (.alterTableStmt relation cmds) s = .ok () s' →
      ∀ t, ctx.catalog.InTree relid t →
        (ctx.catalog.pgClass t).relkind.hasStorage = true →
        (Encrypted w x ⟨relold, rel.backend⟩ ↔
          (ctx.catalog.pgClass t).relam = ctx.catalog.tdeTableAmOid) →
        (Encrypted w y rel ↔ Encrypted w x ⟨relold, rel.backend⟩)) ∧
    (∀ options, ddlCommandStartCapture ctx tree (.alterSeqStmt relation options) s = .ok () s' →
      (ownedBy options = [] → (Encrypted w y rel ↔ Encrypted w x ⟨relold, rel.backend⟩)) ∧
      (∀ name, ownedBy options = [name] → ¬Encrypted w y rel) ∧
      (1 < (ownedBy options).length → ∃ table,
        ctx.catalog.relid (ownedBy options).dropLast = some table ∧
        (Encrypted w y rel ↔
          (ctx.catalog.pgClass table).relam = ctx.catalog.tdeTableAmOid))) := by
  have hasks := tdeMdcreate_asks h _ hcreate
  refine ⟨fun cmds hcmds hstart t ht hstorage hagree => ?_, fun options hstart => ?_⟩
  · rw [alterTable_mode hrelid hstart hcmds ht ⟨hstorage, rfl⟩] at hasks
    rw [hasks, hagree]
    exact asks_modeFor _ _
  · have hmode := alterSeq_mode hrelid hstart
    unfold SequenceMode at hmode
    refine ⟨fun hnone => ?_, fun name hone => ?_, fun hlen => ?_⟩
    · rw [hnone] at hmode
      rw [show currentTdeEncryptModeValidated s' = .retain from hmode] at hasks
      exact hasks
    · rw [hone] at hmode
      rw [show currentTdeEncryptModeValidated s' = .plain from hmode] at hasks
      exact hasks.mp
    · split at hmode
      · rename_i hnone
        rw [hnone] at hlen
        exact absurd hlen (by decide)
      · rename_i name hone
        rw [hone] at hlen
        exact absurd hlen (by simp)
      · obtain ⟨table, htable, hmode⟩ := hmode
        rw [hmode] at hasks
        exact ⟨table, htable, hasks.trans (asks_modeFor _ _)⟩

/-- The catalogs with an encrypted table and a sequence that belongs to nothing. -/
def sampleTdeCatalog : Catalog where
  oids := [16384, 16390]
  pgClass o := if o = 16384 then { relkind := .relation, relam := 16400 }
    else { relkind := .sequence, relam := 0 }
  findInheritanceChildren _ := []
  getOwnedSequences _ := []
  relid name := if name = ["t"] then some 16384 else if name = ["s"] then some 16390 else none
  tdeTableAmOid := 16400
  rank _ := 0
  rank_inherits _ _ h := nomatch h
  rank_typed o h := by
    split at h <;> cases h

def sampleTdeDdl : DdlContext where
  catalog := sampleTdeCatalog
  defaultTableAccessMethod := "heap"
  enforceEncryption := false
  principalKeyConfigured := true

/-- The storage of the table, encrypted, and no storage yet to replace it. -/
def sampleStored : SmgrState :=
  (smgrRun sampleWorld samplePageCipher [(0, .create .encrypt ⟨0, 0, 0⟩ sampleRelation .main)]
    sampleSmgr).state

def sampleNewRelation : RelFileLocatorBackend := ⟨⟨1663, 5, 16391⟩, none⟩

theorem sampleStored_replaceable :
    Replaceable sampleWorld 0 sampleStored sampleRelation.locator sampleNewRelation := by
  have hfresh : SmgrFresh sampleWorld sampleSmgr :=
    ⟨sampleKeyed_keysOk, fun _ _ => rfl, fun _ _ => rfl, fun _ _ => rfl⟩
  have hused : WellUsed [(0, .create .encrypt ⟨0, 0, 0⟩ sampleRelation .main)] :=
    wellUsed_of_created (by simp) (by simp)
  have hrun := smgrRun_runOk (c := samplePageCipher) hfresh hused
  have hown : Own 0 sampleNewRelation :=
    ⟨fun b hb => (by cases hb), fun _ => ⟨by decide, by decide, by decide⟩⟩
  refine ⟨hrun.keysOk, sampleRelation_own 0, hown, hrun.unused 0 _ hown ?_, by decide⟩
  intro a ha _
  rw [List.mem_singleton.mp ha]
  decide

/-- A rewrite of the encrypted table. -/
theorem alter_keeps_encryption_rewrite :
    ∃ s' y, ddlCommandStartCapture sampleTdeDdl 1 (.alterTableStmt ["t"] [.other])
        { xacts := [{}] } = .ok () s' ∧
      tdeMdcreate sampleWorld 0 (currentTdeEncryptModeValidated s') sampleRelation.locator
        sampleNewRelation .main false sampleStored = .ok () y ∧
      Encrypted sampleWorld sampleStored sampleRelation ∧
      Encrypted sampleWorld y sampleNewRelation := by
  have hold : Encrypted sampleWorld sampleStored sampleRelation := by
    unfold Encrypted
    decide +kernel
  have hrelid : sampleTdeDdl.catalog.relid ["t"] = some 16384 := rfl
  have hcmds : ∀ name, AlterTableCmd.setAccessMethod name ∉ [AlterTableCmd.other] := by simp
  obtain ⟨⟨⟩, s', hstart⟩ := exists_of_returns (m := ddlCommandStartCapture sampleTdeDdl 1
    (.alterTableStmt ["t"] [.other])) (s := { xacts := [{}] }) (by decide +kernel)
  have hmode : currentTdeEncryptModeValidated s' = modeFor true :=
    alterTable_mode hrelid hstart hcmds (t := 16384) .refl ⟨rfl, rfl⟩
  obtain ⟨⟨⟩, y, hcreate⟩ := exists_of_returns (m := tdeMdcreate sampleWorld 0 .encrypt
    sampleRelation.locator sampleNewRelation .main false) (s := sampleStored) (by decide +kernel)
  have hcreate' : tdeMdcreate sampleWorld 0 (currentTdeEncryptModeValidated s')
      sampleRelation.locator sampleNewRelation .main false sampleStored = .ok () y := by
    rw [hmode]
    exact hcreate
  exact ⟨s', y, hstart, hcreate', hold,
    ((alter_keeps_encryption hrelid sampleStored_replaceable hcreate').1 [.other] hcmds hstart 16384
      .refl rfl (iff_of_true hold rfl)).mpr hold⟩

/-- `ALTER SEQUENCE s OWNED BY t.c`: the sequence was not encrypted, and now it is. -/
theorem alter_sequence_owned_by_encrypts :
    ∃ s' y, ddlCommandStartCapture sampleTdeDdl 1 (.alterSeqStmt ["s"] [.ownedBy ["t", "c"]])
        { xacts := [{}] } = .ok () s' ∧
      Replaceable sampleWorld 0 sampleSmgr ⟨1663, 5, 16390⟩ sampleNewRelation ∧
      tdeMdcreate sampleWorld 0 (currentTdeEncryptModeValidated s') ⟨1663, 5, 16390⟩
        sampleNewRelation .main false sampleSmgr = .ok () y ∧
      ¬(Encrypted sampleWorld y sampleNewRelation ↔
        Encrypted sampleWorld sampleSmgr ⟨⟨1663, 5, 16390⟩, none⟩) := by
  have hown : Own 0 ⟨⟨1663, 5, 16390⟩, none⟩ :=
    ⟨fun b hb => (by cases hb), fun _ => ⟨by decide, by decide, by decide⟩⟩
  have hnew : Replaceable sampleWorld 0 sampleSmgr ⟨1663, 5, 16390⟩ sampleNewRelation :=
    ⟨sampleKeyed_keysOk, hown, sampleStored_replaceable.own,
      ⟨fun _ => rfl, fun _ => rfl, fun hb => absurd rfl hb⟩, by decide⟩
  have hbefore : ¬Encrypted sampleWorld sampleSmgr ⟨⟨1663, 5, 16390⟩, none⟩ := by
    unfold Encrypted
    decide +kernel
  obtain ⟨⟨⟩, s', hstart⟩ := exists_of_returns (m := ddlCommandStartCapture sampleTdeDdl 1
    (.alterSeqStmt ["s"] [.ownedBy ["t", "c"]])) (s := { xacts := [{}] }) (by decide +kernel)
  have hmode : currentTdeEncryptModeValidated s' = .encrypt := by
    have hrelid : sampleTdeDdl.catalog.relid ["s"] = some 16390 := rfl
    obtain ⟨table, htable, hmode⟩ := alterSeq_mode hrelid hstart
    cases htable
    exact hmode
  obtain ⟨⟨⟩, y, hcreate⟩ := exists_of_returns (m := tdeMdcreate sampleWorld 0 .encrypt
    ⟨1663, 5, 16390⟩ sampleNewRelation .main false) (s := sampleSmgr) (by decide +kernel)
  refine ⟨s', y, hstart, hnew, by rw [hmode]; exact hcreate, fun h => hbefore (h.mp ?_)⟩
  exact (tdeMdcreate_asks hnew .encrypt hcreate).mpr trivial

end OpenPgTde
