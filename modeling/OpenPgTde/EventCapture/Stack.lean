import OpenPgTde.Smgr.Relation

/-!
The event triggers of `open_pg_tde_event_capture.c`.

A statement that makes storage does not tell the storage manager whether the storage is to be
encrypted. The trigger at the start of the statement works it out from the statement and the
catalogs and puts it on a stack; the storage manager asks for the top of the stack whenever it makes
a file, and the trigger at the end of the statement takes the entry off again. A statement that
fails has no end. What it left on the stack is told apart from the entries of running statements by
the transaction id under which the stack was last touched.
-/

namespace OpenPgTde

/-! ### Catalogs -/

/-- `relkind`. -/
inductive RelKind
  | relation
  | index
  | sequence
  | toastvalue
  | view
  | matview
  | compositeType
  | foreignTable
  | partitionedTable
  | partitionedIndex
  deriving DecidableEq, Repr

/-- `RELKIND_HAS_STORAGE`. -/
def RelKind.hasStorage : RelKind → Bool
  | .relation => true
  | .index => true
  | .sequence => true
  | .toastvalue => true
  | .matview => true
  | _ => false

/-- What is read of a row of `pg_class`. -/
structure PgClass where
  relkind : RelKind
  relam : Oid
  reltype : Oid := 0
  reloftype : Oid := 0
  deriving DecidableEq, Repr

/-- The catalogs as a statement sees them. Neither inheritance nor typed tables run in a circle:
`rank` falls from a relation to its children. -/
structure Catalog where
  /-- The rows of `pg_class`, in the order of a scan. -/
  oids : List Oid
  pgClass : Oid → PgClass
  findInheritanceChildren : Oid → List Oid
  getOwnedSequences : Oid → List Oid
  /-- What a name stands for. -/
  relid : List String → Option Oid
  /-- `get_tde_table_am_oid`. -/
  tdeTableAmOid : Oid
  rank : Oid → ℕ
  rank_inherits : ∀ o, ∀ child ∈ findInheritanceChildren o, rank child < rank o
  rank_typed : ∀ o, (pgClass o).relkind = .compositeType →
    ∀ child ∈ oids, (pgClass child).reloftype = (pgClass o).reltype → rank child < rank o

namespace Catalog

variable (cat : Catalog)

/-- `find_typed_table_dependencies`. -/
def findTypedTableDependencies (typeOid : Oid) : List Oid :=
  cat.oids.filter fun o => (cat.pgClass o).reloftype = typeOid

/-- The relations that `alter_table_encryption_mix` goes on to. -/
def children (relid : Oid) : List Oid :=
  if (cat.pgClass relid).relkind = .compositeType then
    cat.findTypedTableDependencies (cat.pgClass relid).reltype
  else
    cat.findInheritanceChildren relid

theorem rank_children {relid child : Oid} (h : child ∈ cat.children relid) :
    cat.rank child < cat.rank relid := by
  unfold children at h
  split at h
  · rename_i hkind
    simp only [findTypedTableDependencies, List.mem_filter, decide_eq_true_eq] at h
    exact cat.rank_typed relid hkind child h.1 h.2
  · exact cat.rank_inherits relid child h

end Catalog

/-- `EncryptionMix`. -/
inductive EncryptionMix
  | unknown
  | plain
  | encrypted
  | mixed
  deriving DecidableEq, Repr

/-- The loop of `alter_table_encryption_mix` over the children. -/
def mixChildren : EncryptionMix → List EncryptionMix → EncryptionMix
  | enc, [] => enc
  | enc, childenc :: rest =>
      if childenc = .unknown then mixChildren enc rest
      else if enc = .unknown then mixChildren childenc rest
      else if enc ≠ childenc then .mixed
      else mixChildren enc rest

/-- What a relation adds itself: the access method decides. -/
def ownMix (cat : Catalog) (relid : Oid) : EncryptionMix :=
  if (cat.pgClass relid).relkind.hasStorage then
    if (cat.pgClass relid).relam = cat.tdeTableAmOid then .encrypted else .plain
  else .unknown

/-- `alter_table_encryption_mix`. -/
def alterTableEncryptionMix (cat : Catalog) (relid : Oid) : EncryptionMix :=
  mixChildren (ownMix cat relid)
    ((cat.children relid).attach.map fun child => alterTableEncryptionMix cat child.1)
termination_by cat.rank relid
decreasing_by exact cat.rank_children child.2

/-! ### Sessions -/

/-- `TdeDdlEvent`. A parse tree stands for its address. -/
structure TdeDdlEvent where
  parsetree : ℕ
  encryptMode : TDEEncryptMode := .retain
  rebuildSequencesFor : Oid := 0
  rebuildSequence : Oid := 0
  deriving DecidableEq, Repr

/-- A statement whose start was captured and whose end is still to come, with the event that its
start put on the stack, if it did. -/
structure RunningCommand where
  parsetree : ℕ
  event : Option TdeDdlEvent
  deriving DecidableEq, Repr

/-- A transaction or subtransaction, with the statements that run directly in it, innermost first.
The id is 0 until one is assigned. -/
structure Xact where
  tid : ℕ := 0
  commands : List RunningCommand := []
  deriving DecidableEq, Repr

/-- A session: `ddlEventStackTid` and `ddlEventStack`, with the last entry of the list first, and
the transactions it is in, innermost first. -/
structure Session where
  ddlEventStackTid : ℕ := 0
  ddlEventStack : List TdeDdlEvent := []
  xacts : List Xact := []
  nextTid : ℕ := 1
  deriving DecidableEq, Repr

/-- Assign an id to the innermost transaction that has none, after its parents. -/
def assignTids : List Xact → ℕ → List Xact × ℕ
  | [], n => ([], n)
  | x :: xs, n =>
      if x.tid ≠ 0 then (x :: xs, n)
      else ({ x with tid := (assignTids xs n).2 } :: (assignTids xs n).1, (assignTids xs n).2 + 1)

/-- `GetCurrentFullTransactionIdIfAny`. -/
def Session.currentTidIfAny (s : Session) : ℕ := (s.xacts.head?.map Xact.tid).getD 0

/-- The session after `GetCurrentFullTransactionId`. -/
def Session.assigned (s : Session) : Session :=
  { s with xacts := (assignTids s.xacts s.nextTid).1, nextTid := (assignTids s.xacts s.nextTid).2 }

/-! ### The stack -/

/-- The errors of the triggers. -/
inductive DdlError
  | noSuchRelation
  | principalKeyNotConfigured
  | encryptionEnforced
  | mixedCreateIndex
  | mixedAlterTable
  deriving DecidableEq, Repr

def DdlError.message : DdlError → String
  | .noSuchRelation => "relation does not exist"
  | .principalKeyNotConfigured => "principal key not configured"
  | .encryptionEnforced =>
      "open_pg_tde.enforce_encryption is ON, only the tde_heap access method is allowed."
  | .mixedCreateIndex =>
      "Recursive CREATE INDEX on a mix of encrypted and unencrypted relations is not supported"
  | .mixedAlterTable =>
      "Recursive ALTER TABLE on a mix of encrypted and unencrypted relations is not supported"

abbrev DM := EStateM DdlError Session

/-- The mode of the last entry of a stack. -/
def topMode : List TdeDdlEvent → TDEEncryptMode
  | [] => .retain
  | event :: _ => event.encryptMode

/-- `currentTdeEncryptMode`. -/
def currentTdeEncryptMode (s : Session) : TDEEncryptMode := topMode s.ddlEventStack

/-- `currentTdeEncryptModeValidated`. -/
def currentTdeEncryptModeValidated (s : Session) : TDEEncryptMode :=
  if s.ddlEventStackTid ≠ s.currentTidIfAny then .retain else currentTdeEncryptMode s

/-- `verify_event_stack`. -/
def verifyEventStack : DM Unit := do
  modify Session.assigned
  let s ← get
  if s.ddlEventStackTid ≠ s.currentTidIfAny then
    set { s with ddlEventStack := [], ddlEventStackTid := s.currentTidIfAny }

/-- `push_event_stack`. -/
def pushEventStack (event : TdeDdlEvent) : DM Unit := do
  verifyEventStack
  modify fun s => { s with ddlEventStack := event :: s.ddlEventStack }

/-! ### The start of a statement -/

/-- What a statement runs under. -/
structure DdlContext where
  catalog : Catalog
  defaultTableAccessMethod : String
  enforceEncryption : Bool
  /-- `open_pg_tde_principal_key_configured` of the database. -/
  principalKeyConfigured : Bool

/-- An option of `CREATE SEQUENCE` and `ALTER SEQUENCE`. -/
inductive SeqOption
  | ownedBy (names : List String)
  | other
  deriving DecidableEq, Repr

inductive AlterTableCmd
  | setAccessMethod (name : Option String)
  | other
  deriving DecidableEq, Repr

/-- The statements that the triggers tell apart. `ALTER INDEX`, `ALTER MATERIALIZED VIEW` and the
forms of `ALTER SEQUENCE` that are shared with tables come as `alterTableStmt`. -/
inductive Parsetree
  | indexStmt (relation : List String)
  | createStmt (accessMethod : Option String) (partitionOf : Option (List String))
  | createTableAsStmt (accessMethod : Option String)
  | alterTableStmt (relation : List String) (cmds : List AlterTableCmd)
  | createSeqStmt (options : List SeqOption)
  | alterSeqStmt (sequence : List String) (options : List SeqOption)
  | other
  deriving DecidableEq, Repr

variable (ctx : DdlContext)

/-- `shouldEncryptTable`. -/
def shouldEncryptTable (accessMethod : Option String) : Bool :=
  accessMethod.getD ctx.defaultTableAccessMethod = "tde_heap"

/-- The mode for storage that is encrypted or not. -/
def modeFor (encrypt : Bool) : TDEEncryptMode := if encrypt then .encrypt else .plain

/-- `checkPrincipalKeyConfigured`. -/
def checkPrincipalKeyConfigured : Except DdlError Unit :=
  if ctx.principalKeyConfigured then .ok () else .error .principalKeyNotConfigured

/-- `checkEncryptionStatus`. -/
def checkEncryptionStatus : DM Unit := do
  let s ← get
  if currentTdeEncryptMode s = .encrypt then
    if ¬ctx.principalKeyConfigured then throw .principalKeyNotConfigured
  else if ctx.enforceEncryption then throw .encryptionEnforced

/-- A name that must stand for a relation. -/
def openRelation (name : List String) : Except DdlError Oid :=
  match ctx.catalog.relid name with
  | some relid => .ok relid
  | none => .error .noSuchRelation

/-- The event of an `IndexStmt`. -/
def indexStmtEvent (parsetree : ℕ) (relation : List String) : Except DdlError TdeDdlEvent := do
  let relid ← openRelation ctx relation
  match alterTableEncryptionMix ctx.catalog relid with
  | .encrypted => .ok { parsetree, encryptMode := .encrypt }
  | .plain => .ok { parsetree, encryptMode := .plain }
  | .unknown => .ok { parsetree, encryptMode := .retain }
  | .mixed => .error .mixedCreateIndex

/-- The event of a `CreateStmt`. -/
def createStmtEvent (parsetree : ℕ) (accessMethod : Option String)
    (partitionOf : Option (List String)) : Except DdlError TdeDdlEvent := do
  match accessMethod, partitionOf with
  | some name, _ => .ok { parsetree, encryptMode := modeFor (name = "tde_heap") }
  | none, some parent =>
      let parentOid ← openRelation ctx parent
      let parentAmOid := (ctx.catalog.pgClass parentOid).relam
      if parentAmOid ≠ 0 then
        .ok { parsetree, encryptMode := modeFor (parentAmOid = ctx.catalog.tdeTableAmOid) }
      else
        .ok { parsetree, encryptMode := modeFor (ctx.defaultTableAccessMethod = "tde_heap") }
  | none, none =>
      .ok { parsetree, encryptMode := modeFor (ctx.defaultTableAccessMethod = "tde_heap") }

/-- The last `SET ACCESS METHOD` among the commands. -/
def lastSetAccessMethod (cmds : List AlterTableCmd) : Option (Option String) :=
  cmds.foldl (fun found cmd =>
    match cmd with
    | .setAccessMethod name => some name
    | .other => found) none

/-- The event of an `AlterTableStmt` on a relation that exists. -/
def alterTableStmtEvent (parsetree : ℕ) (relid : Oid) (cmds : List AlterTableCmd) :
    Except DdlError TdeDdlEvent := do
  let encmix := alterTableEncryptionMix ctx.catalog relid
  if encmix = .mixed then .error .mixedAlterTable
  match lastSetAccessMethod cmds, (ctx.catalog.pgClass relid).relkind.hasStorage with
  | some name, true =>
      if shouldEncryptTable ctx name then
        checkPrincipalKeyConfigured ctx
        .ok { parsetree, encryptMode := .encrypt, rebuildSequencesFor := relid }
      else .ok { parsetree, encryptMode := .plain, rebuildSequencesFor := relid }
  | _, _ =>
      if encmix = .encrypted then
        checkPrincipalKeyConfigured ctx
        .ok { parsetree, encryptMode := .encrypt }
      else if encmix = .plain then .ok { parsetree, encryptMode := .plain }
      else .ok { parsetree }

/-- The first `OWNED BY` among the options. -/
def ownedBy (options : List SeqOption) : List String :=
  (options.findSome? fun
    | .ownedBy names => some names
    | .other => none).getD []

/-- The mode for a sequence that belongs to a column of a table. -/
def ownedSequenceMode (names : List String) : Except DdlError TDEEncryptMode := do
  let table ← openRelation ctx names.dropLast
  if (ctx.catalog.pgClass table).relam = ctx.catalog.tdeTableAmOid then
    checkPrincipalKeyConfigured ctx
    .ok .encrypt
  else .ok .plain

/-- The event of a `CreateSeqStmt`. -/
def createSeqStmtEvent (parsetree : ℕ) (options : List SeqOption) :
    Except DdlError TdeDdlEvent := do
  if 1 < (ownedBy options).length then
    let encryptMode ← ownedSequenceMode ctx (ownedBy options)
    .ok { parsetree, encryptMode }
  else .ok { parsetree, encryptMode := .plain }

/-- The event of an `AlterSeqStmt` on a sequence that exists. -/
def alterSeqStmtEvent (parsetree : ℕ) (relid : Oid) (options : List SeqOption) :
    Except DdlError TdeDdlEvent := do
  if 1 < (ownedBy options).length then
    let encryptMode ← ownedSequenceMode ctx (ownedBy options)
    .ok { parsetree, encryptMode, rebuildSequence := relid }
  else if (ownedBy options).length = 1 then
    .ok { parsetree, encryptMode := .plain, rebuildSequence := relid }
  else .ok { parsetree }

/-- What the start of a statement is to put on the stack. -/
def capturedEvent (parsetree : ℕ) : Parsetree → Except DdlError (Option TdeDdlEvent)
  | .indexStmt relation => some <$> indexStmtEvent ctx parsetree relation
  | .createStmt accessMethod partitionOf =>
      some <$> createStmtEvent ctx parsetree accessMethod partitionOf
  | .createTableAsStmt accessMethod =>
      .ok (some { parsetree, encryptMode := modeFor (shouldEncryptTable ctx accessMethod) })
  | .alterTableStmt relation cmds =>
      match ctx.catalog.relid relation with
      | some relid => some <$> alterTableStmtEvent ctx parsetree relid cmds
      | none => .ok none
  | .createSeqStmt options => some <$> createSeqStmtEvent ctx parsetree options
  | .alterSeqStmt sequence options =>
      match ctx.catalog.relid sequence with
      | some relid => some <$> alterSeqStmtEvent ctx parsetree relid options
      | none => .ok none
  | .other => .ok none

/-- The statements whose mode is checked once it is on the stack. -/
def Parsetree.checked : Parsetree → Bool
  | .createStmt _ _ => true
  | .createTableAsStmt _ => true
  | .alterTableStmt _ _ => true
  | _ => false

/-- `open_pg_tde_ddl_command_start_capture`. -/
def ddlCommandStartCapture (parsetree : ℕ) (stmt : Parsetree) : DM Unit :=
  match capturedEvent ctx parsetree stmt with
  | .error e => throw e
  | .ok none => pure ()
  | .ok (some event) => do
      pushEventStack event
      if stmt.checked then checkEncryptionStatus ctx

/-! ### The end of a statement -/

/-- The sequences that are rewritten at the end of a statement, under the mode of its event. -/
def rebuiltSequences (event : TdeDdlEvent) : List Oid :=
  (if event.rebuildSequencesFor ≠ 0 then
    ctx.catalog.getOwnedSequences event.rebuildSequencesFor
  else []) ++
  if event.rebuildSequence ≠ 0 then [event.rebuildSequence] else []

/-- `open_pg_tde_ddl_command_end_capture`: the sequences it rewrites. -/
def ddlCommandEndCapture (parsetree : ℕ) : DM (List Oid) := do
  let s ← get
  match s.ddlEventStack with
  | [] => pure []
  | event :: rest =>
      if event.parsetree ≠ parsetree then pure []
      else
        set { s with ddlEventStack := rest }
        pure (rebuiltSequences ctx event)

end OpenPgTde
