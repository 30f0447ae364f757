import OpenPgTde.Keyring.Options
import OpenPgTde.PrincipalKey.Lookup

/-!
Statements that copy the files of a database (`open_pg_tde_proccess_utility`).

`CREATE DATABASE` with the strategy FILE_COPY and `ALTER DATABASE ... SET TABLESPACE` copy files as they are,
without the storage manager. The keys of the relations do not go with them, so a statement of this kind must
not get past the hook while one of these relations has a key. The hook looks at the options before the server
does, and counts the keys of the database.
-/

namespace OpenPgTde

open Lib.Effect

/-! ### The statements -/

/-- An option of a statement. It has no argument if the statement says `DEFAULT`. -/
structure DefElem where
  defname : List UInt8
  arg : Option (List UInt8)
  deriving DecidableEq

inductive UtilityStmt
  | createdb (options : List DefElem)
  | alterDatabase (dbname : List UInt8) (options : List DefElem)
  | other

inductive UtilityError
  /-- requires a parameter -/
  | requiresParameter (defname : List UInt8)
  /-- The FILE_COPY strategy cannot be used when there are encrypted objects in the template database -/
  | fileCopy (count : ℕ)
  /-- ALTER DATABSE ... SET TABLESPACE cannot be used when there are encrypted objects in the default
  tablsapce of the database -/
  | setTablespace (count : ℕ)
  | keys (e : TdeError)
  deriving DecidableEq

abbrev UtilityM := EStateM UtilityError Server

/-- `get_db_info`: the oid of a database and its default tablespace. -/
abbrev DbInfo := List UInt8 → Option (Oid × Oid)

def defGetString (defel : DefElem) : UtilityM (List UInt8) :=
  match defel.arg with
  | none => throw (.requiresParameter defel.defname)
  | some arg => pure arg

/-! ### The hook -/

/-- The loop over the options of `CREATE DATABASE`, with the template and the strategy so far. -/
def createdbOptions : List DefElem → List UInt8 × List UInt8 → UtilityM (List UInt8 × List UInt8)
  | [], found => pure found
  | defel :: options, (dbtemplate, strategy) =>
    if defel.defname = ascii "template" then do
      let arg ← defGetString defel
      createdbOptions options (arg, strategy)
    else if defel.defname = ascii "strategy" then do
      let arg ← defGetString defel
      createdbOptions options (dbtemplate, arg)
    else createdbOptions options (dbtemplate, strategy)

/-- The loop over the options of `ALTER DATABASE`. -/
def alterDatabaseOptions : List DefElem → Option (List UInt8) → UtilityM (Option (List UInt8))
  | [], tablespace => pure tablespace
  | defel :: options, tablespace =>
    if defel.defname = ascii "tablespace" then do
      let arg ← defGetString defel
      alterDatabaseOptions options (some arg)
    else alterDatabaseOptions options tablespace

/-- An error if there are keys. -/
def refuseKeys (dbOid spcOid : Oid) (e : ℕ → UtilityError) : UtilityM Unit := do
  let count ← EStateM.adaptExcept .keys (countEncryptionKeys dbOid spcOid)
  if 0 < count then throw (e count) else pure ()

/-- `open_pg_tde_proccess_utility`, up to the call of the next hook. -/
def proccessUtility (getDbInfo : DbInfo) : UtilityStmt → UtilityM Unit
  | .createdb options => do
    let (dbtemplate, strategy) ← createdbOptions options (ascii "template1", ascii "wal_log")
    if pgStrcaseEq strategy (ascii "file_copy") then
      match getDbInfo dbtemplate with
      | none => pure ()
      | some (dbOid, _) => refuseKeys dbOid 0 .fileCopy
    else pure ()
  | .alterDatabase dbname options => do
    let tablespace ← alterDatabaseOptions options none
    if tablespace.isSome then
      match getDbInfo dbname with
      | none => pure ()
      | some (dbOid, dbTablespace) => refuseKeys dbOid dbTablespace .setTablespace
    else pure ()
  | .other => pure ()

/-! ### What the options say -/

/-- The argument of the last option of that name. -/
def lastArg (name : List UInt8) (options : List DefElem) : Option (List UInt8) :=
  options.reverse.findSome? fun defel => if defel.defname = name then defel.arg else none

/-- The relations whose files the statement copies as they are. -/
inductive CopiesFiles (getDbInfo : DbInfo) : UtilityStmt → RelFileLocator → Prop
  | createdb {options : List DefElem} {rel : RelFileLocator} {dbTablespace : Oid}
      (strategy : pgStrcaseEq ((lastArg (ascii "strategy") options).getD (ascii "wal_log"))
        (ascii "file_copy") = true)
      (template : getDbInfo ((lastArg (ascii "template") options).getD (ascii "template1")) =
        some (rel.dbOid, dbTablespace)) :
      CopiesFiles getDbInfo (.createdb options) rel
  | setTablespace {dbname : List UInt8} {options : List DefElem} {rel : RelFileLocator}
      (tablespace : (lastArg (ascii "tablespace") options).isSome = true)
      (database : getDbInfo dbname = some (rel.dbOid, rel.spcOid)) :
      CopiesFiles getDbInfo (.alterDatabase dbname options) rel

section Options

variable {s : Server} {options : List DefElem} {defel : DefElem} {name : List UInt8}

theorem lastArg_cons : lastArg name (defel :: options) =
    (lastArg name options).or (if defel.defname = name then defel.arg else none) := by
  unfold lastArg
  rw [List.reverse_cons, List.findSome?_append, List.findSome?_singleton]

theorem lastArg_cons_of_ne (h : defel.defname ≠ name) :
    lastArg name (defel :: options) = lastArg name options := by
  rw [lastArg_cons, if_neg h, Option.or_none]

theorem lastArg_cons_self {arg : List UInt8} (h : defel.defname = name) (harg : defel.arg = some arg) :
    lastArg name (defel :: options) = some ((lastArg name options).getD arg) := by
  rw [lastArg_cons, if_pos h, harg]
  cases lastArg name options <;> rfl

theorem defGetString_spec : wp (defGetString defel) (fun arg t => t = s ∧ defel.arg = some arg)
    (fun e t => t = s ∧ defel.arg = none ∧ e = .requiresParameter defel.defname) s := by
  unfold defGetString
  cases defel.arg with
  | none => exact ⟨rfl, rfl, rfl⟩
  | some arg => exact ⟨rfl, rfl⟩

/-- The error of an option that has no argument where one is needed. -/
def Lacks (options : List DefElem) (s : Server) (e : UtilityError) (t : Server) : Prop :=
  t = s ∧ ∃ defel ∈ options, defel.arg = none ∧ e = .requiresParameter defel.defname

theorem Lacks.cons {e : UtilityError} {t : Server} (h : Lacks options s e t) : Lacks (defel :: options) s e t := by
  obtain ⟨ht, found, hmem, h⟩ := h
  exact ⟨ht, found, List.mem_cons_of_mem _ hmem, h⟩

theorem createdbOptions_spec (dbtemplate strategy : List UInt8) :
    wp (createdbOptions options (dbtemplate, strategy))
      (fun found t => t = s ∧ found.1 = (lastArg (ascii "template") options).getD dbtemplate ∧
        found.2 = (lastArg (ascii "strategy") options).getD strategy)
      (Lacks options s) s := by
  induction options generalizing dbtemplate strategy with
  | nil => exact ⟨rfl, rfl, rfl⟩
  | cons defel options ih =>
      have hlacks : ∀ e t, t = s ∧ defel.arg = none ∧ e = .requiresParameter defel.defname →
          Lacks (defel :: options) s e t := fun e t h => ⟨h.1, defel, List.mem_cons_self, h.2⟩
      rw [createdbOptions]
      by_cases htemplate : defel.defname = ascii "template"
      · have hne : defel.defname ≠ ascii "strategy" := by
          rw [htemplate]
          decide
        rw [if_pos htemplate, lastArg_cons_of_ne hne]
        refine (wp_bind ..).2 (defGetString_spec.mono (fun arg t ht => ?_) hlacks)
        obtain ⟨rfl, harg⟩ := ht
        rw [lastArg_cons_self htemplate harg]
        exact (ih arg strategy).mono (fun _ _ h => h) fun _ _ h => h.cons
      · rw [if_neg htemplate, lastArg_cons_of_ne htemplate]
        by_cases hstrategy : defel.defname = ascii "strategy"
        · rw [if_pos hstrategy]
          refine (wp_bind ..).2 (defGetString_spec.mono (fun arg t ht => ?_) hlacks)
          obtain ⟨rfl, harg⟩ := ht
          rw [lastArg_cons_self hstrategy harg]
          exact (ih dbtemplate arg).mono (fun _ _ h => h) fun _ _ h => h.cons
        · rw [if_neg hstrategy, lastArg_cons_of_ne hstrategy]
          exact (ih dbtemplate strategy).mono (fun _ _ h => h) fun _ _ h => h.cons

theorem alterDatabaseOptions_spec (tablespace : Option (List UInt8)) :
    wp (alterDatabaseOptions options tablespace)
      (fun found t => t = s ∧ found = (lastArg (ascii "tablespace") options).or tablespace)
      (Lacks options s) s := by
  induction options generalizing tablespace with
  | nil => exact ⟨rfl, rfl⟩
  | cons defel options ih =>
      rw [alterDatabaseOptions]
      by_cases hname : defel.defname = ascii "tablespace"
      · rw [if_pos hname]
        refine (wp_bind ..).2 (defGetString_spec.mono (fun arg t ht => ?_) fun e t h =>
          ⟨h.1, defel, List.mem_cons_self, h.2⟩)
        obtain ⟨rfl, harg⟩ := ht
        rw [lastArg_cons_self hname harg]
        refine (ih (some arg)).mono (fun _ _ h => ⟨h.1, h.2.trans ?_⟩) fun _ _ h => h.cons
        cases lastArg (ascii "tablespace") options <;> rfl
      · rw [if_neg hname, lastArg_cons_of_ne hname]
        exact (ih tablespace).mono (fun _ _ h => h) fun _ _ h => h.cons

end Options

/-! ### The keys -/

section Keys

variable {w : World} {s t : Server} {dbOid spcOid : Oid} {getDbInfo : DbInfo} {stmt : UtilityStmt}
  {rel : RelFileLocator}

/-- No relation of the database, in that tablespace, has a key. -/
def NoKeys (s : Server) (dbOid spcOid : Oid) : Prop :=
  ∀ f, s.keyFiles (.keys dbOid) = some f → ∃ entries, f.entries = some entries ∧
    ∀ e ∈ entries, e.type = .key → spcOid ≠ 0 ∧ e.spcOid ≠ spcOid

theorem countEncryptionKeys_noKeys :
    wp (countEncryptionKeys dbOid spcOid) (fun n t => Quiet s t ∧ (n = 0 ↔ NoKeys s dbOid spcOid))
      (fun _ t => Quiet s t ∧ (s.SysOk → ¬ NoKeys s dbOid spcOid)) s := by
  unfold countEncryptionKeys openFileRead
  simp only [bind_assoc]
  refine (wp_bind ..).2 ((sysCall_spec _).mono (fun _ t ht => ?_) fun _ t h =>
    ⟨h.2.1, fun hs => absurd hs h.2.2⟩)
  refine (wp_bind ..).2 ((wp_get ..).2 ?_)
  have hentries : ∀ {f : KeyFile} {entries : List TDEMapEntry}, s.keyFiles (.keys dbOid) = some f →
      f.entries = some entries →
      ((entries.countP fun e => e.type = .key && (spcOid = 0 || e.spcOid = spcOid)) = 0 ↔
        NoKeys s dbOid spcOid) := by
    intro f entries hf hent
    rw [List.countP_eq_zero]
    simp only [Bool.and_eq_true, Bool.or_eq_true, decide_eq_true_eq, not_and, not_or]
    refine ⟨fun h f' hf' => ?_, fun h => ?_⟩
    · obtain rfl := Option.some.inj (hf.symm.trans hf')
      exact ⟨entries, hent, h⟩
    · obtain ⟨entries', hent', h⟩ := h f hf
      obtain rfl := Option.some.inj (hent.symm.trans hent')
      exact h
  have hwrong : ∀ {f : KeyFile}, s.keyFiles (.keys dbOid) = some f → f.entries = none →
      ¬ NoKeys s dbOid spcOid := by
    intro f hf hnone h
    obtain ⟨entries, hent, -⟩ := h f hf
    rw [hnone] at hent
    cases hent
  rw [ht.keyFiles]
  cases hf : s.keyFiles (.keys dbOid) with
  | none => exact ⟨ht, iff_of_true rfl fun f hf' => absurd (hf.symm.trans hf') (by simp)⟩
  | some f =>
      cases f with
      | empty => exact ⟨ht, hentries hf rfl⟩
      | current info entries => exact ⟨ht, hentries hf rfl⟩
      | v3 info entries => exact ⟨ht, fun _ => hwrong hf rfl⟩
      | v4 info entries torn => exact ⟨ht, fun _ => hwrong hf rfl⟩
      | v5 info entries torn => exact ⟨ht, fun _ => hwrong hf rfl⟩
      | other version info => exact ⟨ht, fun _ => hwrong hf rfl⟩

/-- Without keys every relation is plain. -/
theorem NoKeys.getSmgrKey (h : NoKeys s rel.dbOid spcOid) (hspc : spcOid = 0 ∨ rel.spcOid = spcOid)
    (hq : Quiet s t) : wp (getSmgrKey w rel) (fun r _ => r = none) (fun _ _ => True) t := by
  unfold OpenPgTde.getSmgrKey
  refine (wp_bind ..).2 ((wp_get ..).2 ?_)
  split
  · exact rfl
  · refine (wp_bind ..).2 ((findMapEntry_reads rel).mono (fun r u hu => ?_) fun _ _ _ => trivial)
    obtain ⟨-, rfl, hsome⟩ := hu
    rw [hq.keyFiles] at hsome ⊢
    obtain ⟨entries, hent⟩ := Option.ne_none_iff_exists'.1 hsome
    obtain ⟨f, hf, hfent⟩ := Option.bind_eq_some_iff.1 hent
    obtain ⟨entries', hent', hall⟩ := h f hf
    obtain rfl := Option.some.inj (hfent.symm.trans hent')
    have hfind : entries.find? (TDEMapEntry.isKeyOf rel.spcOid rel.relNumber) = none := by
      rw [List.find?_eq_none]
      intro e he hkey
      obtain ⟨htype, hspcOid, -⟩ := isKeyOf_iff.1 hkey
      obtain ⟨hne, hne'⟩ := hall e he htype
      exact hspc.elim hne fun heq => hne' (hspcOid.trans heq)
    rw [hent, Option.getD_some, hfind]
    exact rfl

/-- A lookup that finds an entry does not say that there is no key. -/
theorem getSmgrKey_ne_none (hfile : s.keyFiles (.keys rel.dbOid) ≠ none)
    (hentry : ∀ entries, (s.keyFiles (.keys rel.dbOid)).bind KeyFile.entries = some entries →
      ∃ e ∈ entries, e.isKeyOf rel.spcOid rel.relNumber = true) (hq : Quiet s t) :
    wp (getSmgrKey w rel) (fun r _ => r ≠ none) (fun _ _ => True) t := by
  unfold getSmgrKey
  refine (wp_bind ..).2 ((wp_get ..).2 ?_)
  rw [← hq.keyFiles] at hfile hentry
  split
  · next hnone => exact absurd hnone hfile
  · refine (wp_bind ..).2 ((findMapEntry_reads rel).mono (fun r u hu => ?_) fun _ _ _ => trivial)
    obtain ⟨-, rfl, hsome⟩ := hu
    obtain ⟨entries, hent⟩ := Option.ne_none_iff_exists'.1 hsome
    obtain ⟨e, he, hkey⟩ := hentry entries hent
    have hfind : (entries.find? (TDEMapEntry.isKeyOf rel.spcOid rel.relNumber)).isSome = true :=
      List.find?_isSome.2 ⟨e, he, hkey⟩
    obtain ⟨e', he'⟩ := Option.isSome_iff_exists.1 hfind
    rw [hent, Option.getD_some, he']
    -- whatever key there is for the database, what is returned is a key
    refine (wp_bind ..).2 (.of_forall (fun pk v => ?_) fun _ _ => trivial)
    cases pk with
    | none => trivial
    | some pk => exact (wp_bind ..).2 (.of_forall (fun _ _ h => (by cases h)) fun _ _ => trivial)

theorem exists_of_not_noKeys (h : ¬ NoKeys s dbOid spcOid) (hq : Quiet s t) :
    ∃ rel : RelFileLocator, rel.dbOid = dbOid ∧ (spcOid = 0 ∨ rel.spcOid = spcOid) ∧
      wp (getSmgrKey w rel) (fun r _ => r ≠ none) (fun _ _ => True) t := by
  unfold NoKeys at h
  push Not at h
  obtain ⟨f, hf, h⟩ := h
  cases hent : f.entries with
  | none =>
      refine ⟨⟨spcOid, dbOid, 0⟩, rfl, .inr rfl, getSmgrKey_ne_none (by simp [hf]) (fun entries he => ?_) hq⟩
      rw [hf, Option.bind_some, hent] at he
      cases he
  | some entries =>
      obtain ⟨e, he, htype, hspc⟩ := h entries hent
      refine ⟨⟨e.spcOid, dbOid, e.relNumber⟩, rfl, or_iff_not_imp_left.2 hspc,
        getSmgrKey_ne_none (by simp [hf]) (fun entries' he' => ⟨e, ?_, isKeyOf_iff.2 ⟨htype, rfl, rfl⟩⟩) hq⟩
      rw [hf, Option.bind_some, hent] at he'
      exact Option.some.inj he' ▸ he

theorem refuseKeys_spec (e : ℕ → UtilityError) :
    wp (refuseKeys dbOid spcOid e) (fun _ t => Quiet s t ∧ NoKeys s dbOid spcOid)
      (fun _ t => Quiet s t ∧ (s.SysOk → ¬ NoKeys s dbOid spcOid)) s := by
  refine (wp_bind ..).2 ((wp_adaptExcept ..).2 (countEncryptionKeys_noKeys.mono (fun n t ht => ?_)
    fun _ _ h => h))
  obtain ⟨hq, hcount⟩ := ht
  split
  · next hpos => exact ⟨hq, fun _ h => absurd (hcount.2 h) (by omega)⟩
  · next hzero => exact ⟨hq, hcount.1 (by omega)⟩

/-- The hook has looked at the relations whose files are copied. -/
theorem refuseKeys_copies (e : ℕ → UtilityError) (hcopies : ∀ rel, CopiesFiles getDbInfo stmt rel ↔
      rel.dbOid = dbOid ∧ (spcOid = 0 ∨ rel.spcOid = spcOid)) :
    wp (refuseKeys dbOid spcOid e)
      (fun _ t => Quiet s t ∧ ∀ rel, CopiesFiles getDbInfo stmt rel →
        wp (getSmgrKey w rel) (fun r _ => r = none) (fun _ _ => True) t)
      (fun _ t => Quiet s t ∧ (¬ s.SysOk ∨ ∃ rel, CopiesFiles getDbInfo stmt rel ∧
        wp (getSmgrKey w rel) (fun r _ => r ≠ none) (fun _ _ => True) t)) s := by
  refine (refuseKeys_spec e).mono (fun _ t ht => ⟨ht.1, fun rel hrel => ?_⟩) fun _ t ht => ⟨ht.1, ?_⟩
  · obtain ⟨rfl, hspc⟩ := (hcopies rel).1 hrel
    exact ht.2.getSmgrKey hspc ht.1
  · by_cases hsys : s.SysOk
    · obtain ⟨rel, hdb, hspc, hkey⟩ := @exists_of_not_noKeys w s t dbOid spcOid (ht.2 hsys) ht.1
      exact .inr ⟨rel, (hcopies rel).2 ⟨hdb, hspc⟩, hkey⟩
    · exact .inl hsys

theorem proccessUtility_spec
    (htablespace : ∀ name dbOid spcOid, getDbInfo name = some (dbOid, spcOid) → spcOid ≠ 0) :
    wp (proccessUtility getDbInfo stmt)
      (fun _ t => Quiet s t ∧ ∀ rel, CopiesFiles getDbInfo stmt rel →
        wp (getSmgrKey w rel) (fun r _ => r = none) (fun _ _ => True) t)
      (fun e t => Quiet s t ∧ ((∃ defname, e = .requiresParameter defname) ∨ ¬ s.SysOk ∨
        ∃ rel, CopiesFiles getDbInfo stmt rel ∧
          wp (getSmgrKey w rel) (fun r _ => r ≠ none) (fun _ _ => True) t)) s := by
  have hlacks : ∀ {options : List DefElem} e t, Lacks options s e t → Quiet s t ∧
      ((∃ defname, e = .requiresParameter defname) ∨ ¬ s.SysOk ∨ ∃ rel, CopiesFiles getDbInfo stmt rel ∧
        wp (getSmgrKey w rel) (fun r _ => r ≠ none) (fun _ _ => True) t) := by
    rintro options e t ⟨rfl, defel, -, -, rfl⟩
    exact ⟨.refl t, .inl ⟨_, rfl⟩⟩
  cases stmt with
  | createdb options =>
      refine (wp_bind ..).2 ((createdbOptions_spec _ _).mono (fun found t ht => ?_) hlacks)
      obtain ⟨dbtemplate, strategy⟩ := found
      obtain ⟨rfl, rfl, rfl⟩ := ht
      dsimp only
      split
      · next hcopy =>
          split
          · next hnone =>
              refine ⟨.refl t, fun rel hrel => ?_⟩
              cases hrel with
              | createdb _ htemplate =>
                  rw [hnone] at htemplate
                  cases htemplate
          · next dbOid spcOid hsome =>
              refine (refuseKeys_copies _ fun rel => ⟨fun hrel => ?_, fun hrel => ?_⟩).mono (fun _ _ h => h)
                fun _ _ h => ⟨h.1, .inr h.2⟩
              · cases hrel with
                | createdb _ htemplate =>
                    rw [hsome] at htemplate
                    cases htemplate
                    exact ⟨rfl, .inl rfl⟩
              · refine @CopiesFiles.createdb getDbInfo options rel spcOid hcopy (hsome.trans ?_)
                rw [hrel.1]
      · next hnot =>
          refine ⟨.refl t, fun rel hrel => ?_⟩
          cases hrel with
          | createdb hstrategy _ => exact absurd hstrategy hnot
  | alterDatabase dbname options =>
      refine (wp_bind ..).2 ((alterDatabaseOptions_spec _).mono (fun found t ht => ?_) hlacks)
      obtain ⟨rfl, rfl⟩ := ht
      rw [Option.or_none]
      split
      · next hcopy =>
          split
          · next hnone =>
              refine ⟨.refl t, fun rel hrel => ?_⟩
              cases hrel with
              | setTablespace _ hdatabase =>
                  rw [hnone] at hdatabase
                  cases hdatabase
          · next dbOid spcOid hsome =>
              refine (refuseKeys_copies _ fun rel => ⟨fun hrel => ?_, fun hrel => ?_⟩).mono (fun _ _ h => h)
                fun _ _ h => ⟨h.1, .inr h.2⟩
              · cases hrel with
                | setTablespace _ hdatabase =>
                    rw [hsome] at hdatabase
                    cases hdatabase
                    exact ⟨rfl, .inr rfl⟩
              · have hspc := hrel.2.resolve_left (htablespace _ _ _ hsome)
                refine .setTablespace hcopy (hsome.trans ?_)
                rw [hrel.1, hspc]
      · next hnot =>
          refine ⟨.refl t, fun rel hrel => ?_⟩
          cases hrel with
          | setTablespace htable _ => exact absurd htable hnot
  | other =>
      refine (wp_pure ..).2 ⟨.refl s, fun rel hrel => ?_⟩
      cases hrel

/-- A statement gets past the hook only if all the files that it copies are those of plain relations, which
they then are as copies too. The hook holds up nothing else: if it raises an error, an option has no
argument, a system call failed, or the statement copies the files of a relation of which the server does not
know that it is plain. -/
theorem copied_files_are_plain (w : World) (s : Server) (stmt : UtilityStmt)
    (htablespace : ∀ name dbOid spcOid, getDbInfo name = some (dbOid, spcOid) → spcOid ≠ 0) :
    (∀ t, proccessUtility getDbInfo stmt s = .ok () t → Quiet s t ∧
      ∀ rel, CopiesFiles getDbInfo stmt rel → ∀ r u, getSmgrKey w rel t = .ok r u → r = none) ∧
    (∀ e t, proccessUtility getDbInfo stmt s = .error e t → Quiet s t ∧
      ((∃ defname, e = .requiresParameter defname) ∨ ¬ s.SysOk ∨
        ∃ rel, CopiesFiles getDbInfo stmt rel ∧ ∀ r u, getSmgrKey w rel t = .ok r u → r ≠ none)) := by
  have hspec := @proccessUtility_spec w s getDbInfo stmt htablespace
  refine ⟨fun t hrun => ?_, fun e t hrun => ?_⟩
  · obtain ⟨hq, hplain⟩ := hspec.of_ok hrun
    exact ⟨hq, fun rel hrel r u hget => (hplain rel hrel).of_ok hget⟩
  · obtain ⟨hq, hwhy⟩ := hspec.of_error hrun
    refine ⟨hq, hwhy.imp_right (Or.imp_right fun hrel => ?_)⟩
    obtain ⟨rel, hcopy, hkey⟩ := hrel
    exact ⟨rel, hcopy, fun r u hget => hkey.of_ok hget⟩

/-- The strategy is written in capitals, and the template has no keys. -/
theorem copied_files_are_plain_sample :
    ∃ t, proccessUtility (fun _ => some (5, 1663)) (.createdb [⟨ascii "strategy", some (ascii "FILE_COPY")⟩])
        sampleServer = .ok () t ∧
      ∀ r u, getSmgrKey sampleWorld ⟨1663, 5, 16384⟩ t = .ok r u → r = none := by
  have hrun : ∃ t, proccessUtility (fun _ => some (5, 1663))
      (.createdb [⟨ascii "strategy", some (ascii "FILE_COPY")⟩]) sampleServer = .ok () t := ⟨_, rfl⟩
  obtain ⟨t, hrun⟩ := hrun
  have hplain := ((copied_files_are_plain sampleWorld sampleServer
    (.createdb [⟨ascii "strategy", some (ascii "FILE_COPY")⟩]) fun _ _ _ h => by
      cases h
      decide).1 t hrun).2
  exact ⟨t, hrun, fun r u => hplain ⟨1663, 5, 16384⟩ (.createdb (by decide) rfl) r u⟩

end Keys

end OpenPgTde
