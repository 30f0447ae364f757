import Mathlib.Data.List.TakeWhile
import OpenPgTde.Keyring.Options
import OpenPgTde.Lib.Decimal
import OpenPgTde.Smgr.Relation

/-!
The files of a data directory, as `pg_checksums` finds them (`scan_directory` of
`pg_checksums/pg_checksums.c`).

The directories `global`, `base` and `pg_tblspc` are gone through, with everything below. Which relation a
file belongs to, which fork and which segment of it, is taken from the names of the file and of the
directories above it. What is done, and in which order, does not depend on what is in the files, so it is
computed first, as a list of steps. `scanDataDirectory_rel` says that the files of a relation, where the
server has put them, are among them, and taken for what they are.
-/

namespace OpenPgTde

open Lib.Decimal

/-! ### Numbers in names -/

def isSpace (c : UInt8) : Bool := c = 32 || (9 ≤ c && c ≤ 13)

/-- What `strtol` and `strtoul` read: whether there is a minus sign, and the number behind it. -/
def strtoParse (s : List UInt8) : Bool × ℕ :=
  let s := s.dropWhile isSpace
  if s.head? = some 45 then (true, value (leading s.tail))
  else if s.head? = some 43 then (false, value (leading s.tail))
  else (false, value (leading s))

/-- `atooid`: the result of `strtoul`, cut to 32 bits. -/
def atooid (s : List UInt8) : Oid :=
  let (minus, n) := strtoParse s
  UInt32.ofNat (if 2 ^ 64 ≤ n then 2 ^ 64 - 1 else if minus then 2 ^ 64 - n else n)

/-- `atoi`: the result of `strtol`, cut to 32 bits. -/
def atoi (s : List UInt8) : UInt32 :=
  let (minus, n) := strtoParse s
  UInt32.ofNat (if minus then 2 ^ 64 - min n (2 ^ 63) else min n (2 ^ 63 - 1))

/-! ### The tree of files -/

/-- What `readdir` lists, in its order: regular files, and directories or links to them. -/
inductive DirEntries
  | nil
  | file (name : List UInt8) (rest : DirEntries)
  | dir (name : List UInt8) (entries rest : DirEntries)

def DirEntries.names : DirEntries → List (List UInt8)
  | nil => []
  | file name rest => name :: rest.names
  | dir name _ rest => name :: rest.names

/-- No directory lists a name twice. -/
def DirEntries.Distinct : DirEntries → Prop
  | nil => True
  | file name rest => name ∉ rest.names ∧ rest.Distinct
  | dir name entries rest => name ∉ rest.names ∧ entries.Distinct ∧ rest.Distinct

/-- There is a file with this path. -/
def DirEntries.Has : DirEntries → List (List UInt8) → Prop
  | nil, _ => False
  | file name rest, path => path = [name] ∨ rest.Has path
  | dir name entries rest, path =>
    (∃ below, path = name :: below ∧ entries.Has below) ∨ rest.Has path

/-- The directory of that name. -/
def DirEntries.subdir (name : List UInt8) : DirEntries → Option DirEntries
  | nil => none
  | file _ rest => rest.subdir name
  | dir name' entries rest => if name' = name then some entries else rest.subdir name

/-! ### Scanning -/

/-- Fatal errors while the directories are scanned. -/
inductive ScanError
  | couldNotOpenDirectory (path : List (List UInt8))
  | couldNotStat (path : List (List UInt8))
  | invalidSegmentNumber (fn : List (List UInt8))
  deriving DecidableEq

/-- The arguments of `scan_file`. The fork is left open if its name is not known. -/
structure ScanItem where
  fn : List (List UInt8)
  locator : RelFileLocator
  forknum : Option ForkNumber
  segmentno : UInt32
  deriving DecidableEq

inductive ScanStep
  | scan (item : ScanItem)
  | fatal (e : ScanError)
  deriving DecidableEq

/-- What the scan depends on: `forkname_to_number`, `TABLESPACE_VERSION_DIRECTORY`, and the option
`--filenode`. -/
structure DirScan where
  forknameToNumber : List UInt8 → Option ForkNumber
  versionDirectory : List UInt8
  onlyFilenode : Option (List UInt8)

/-- `skip`: the name, and whether a longer name that starts with it is meant too. -/
def skip : List (List UInt8 × Bool) :=
  [(ascii "pg_control", false), (ascii "pg_filenode.map", false), (ascii "pg_internal.init", true),
    (ascii "PG_VERSION", false)]

def skipfile (fn : List UInt8) : Bool :=
  skip.any fun item => if item.2 then item.1.isPrefixOf fn else item.1 = fn

/-- `PG_TEMP_FILE_PREFIX`, and also `PG_TEMP_FILES_DIR`. -/
def pgTempFilePrefix : List UInt8 := ascii "pgsql_tmp"

/-- Entries that are not looked at, whatever they are. -/
def skipEntry (name : List UInt8) : Bool :=
  name = ascii "." || name = ascii ".." || pgTempFilePrefix.isPrefixOf name || name = ascii ".DS_Store"

/-- What `strchr` cuts a text into: what is before the character, and what is behind it if it is there. -/
def cutAt (c : UInt8) (s : List UInt8) : List UInt8 × Option (List UInt8) :=
  (s.takeWhile (· ≠ c), if c ∈ s then some ((s.dropWhile (· ≠ c)).tail) else none)

/-- What is done with a regular file. -/
def scanName (env : DirScan) (path : List (List UInt8)) (subdir : List UInt8) (tablespace : Oid)
    (name : List UInt8) : List ScanStep :=
  if skipfile name then []
  else
    let (fnonly, segmentpath) := cutAt 46 name
    let segmentno := (segmentpath.map atoi).getD 0
    if segmentpath.isSome ∧ segmentno = 0 then [.fatal (.invalidSegmentNumber (path ++ [name]))]
    else
      let (fnonly, forkpath) := cutAt 95 fnonly
      if env.onlyFilenode.any (· ≠ fnonly) then []
      else
        let forknum := (forkpath.map env.forknameToNumber).getD (some .main)
        [.scan ⟨path ++ [name], ⟨tablespace, atooid subdir, atooid fnonly⟩, forknum, segmentno⟩]

mutual

/-- `scan_directory`; `path` ends with `subdir`. -/
def scanDirectory (env : DirScan) (path : List (List UInt8)) (subdir : List UInt8) (tablespace : Oid) :
    DirEntries → List ScanStep
  | .nil => []
  | .file name rest =>
    (if skipEntry name then [] else scanName env path subdir tablespace name) ++
      scanDirectory env path subdir tablespace rest
  | .dir name entries rest =>
    (if skipEntry name then []
      else if (ascii "pg_tblspc").isPrefixOf subdir then
        scanVersion env (path ++ [name]) (atooid name) entries
      else scanDirectory env (path ++ [name]) name tablespace entries) ++
      scanDirectory env path subdir tablespace rest

/-- What `scan_directory` does with the location of a tablespace. -/
def scanVersion (env : DirScan) (path : List (List UInt8)) (tablespace : Oid) : DirEntries → List ScanStep
  | .nil => [.fatal (.couldNotStat (path ++ [env.versionDirectory]))]
  | .file name rest =>
    if name = env.versionDirectory then [.fatal (.couldNotOpenDirectory (path ++ [name]))]
    else scanVersion env path tablespace rest
  | .dir name entries rest =>
    if name = env.versionDirectory then scanDirectory env (path ++ [name]) name tablespace entries
    else scanVersion env path tablespace rest

end

/-- The three directories that `main` scans. -/
def scanRoots : List (List UInt8 × Oid) :=
  [(ascii "global", 1664), (ascii "base", 1663), (ascii "pg_tblspc", 0)]

/-- The steps up to a fatal error or the end. -/
def scanDataDirectory (env : DirScan) (root : DirEntries) : List ScanStep :=
  scanRoots.flatMap fun start =>
    match root.subdir start.1 with
    | none => [.fatal (.couldNotOpenDirectory [start.1])]
    | some entries => scanDirectory env [start.1] start.1 start.2 entries

/-! ### What a path says -/

/-- What is done with the file of a path, whatever else is there. -/
def walkPath (env : DirScan) : List (List UInt8) → List UInt8 → Oid → List (List UInt8) → List ScanStep
  | _, _, _, [] => []
  | path, subdir, tablespace, [name] => scanName env path subdir tablespace name
  | path, subdir, tablespace, name :: below :: rest =>
    if (ascii "pg_tblspc").isPrefixOf subdir then
      if below = env.versionDirectory then walkPath env (path ++ [name, below]) below (atooid name) rest
      else []
    else walkPath env (path ++ [name]) name tablespace (below :: rest)

section Scan

variable {env : DirScan} {path below : List (List UInt8)} {subdir name : List UInt8} {tablespace : Oid}
  {item item' : ScanItem} {entries : DirEntries}

/-- A file is scanned once if it is scanned at all. -/
theorem mem_scanName (h : .scan item ∈ scanName env path subdir tablespace name) :
    item.fn = path ++ [name] ∧ scanName env path subdir tablespace name = [.scan item] := by
  unfold scanName at h ⊢
  dsimp only at h ⊢
  split
  · next hskip =>
      rw [if_pos hskip] at h
      cases h
  · next hskip =>
      rw [if_neg hskip] at h
      split
      · next hsegment =>
          rw [if_pos hsegment] at h
          cases List.mem_singleton.1 h
      · next hsegment =>
          rw [if_neg hsegment] at h
          split
          · next honly =>
              rw [if_pos honly] at h
              cases h
          · next honly =>
              rw [if_neg honly] at h
              cases List.mem_singleton.1 h
              exact ⟨rfl, rfl⟩

/-- What is scanned is what its path says. -/
theorem scanDirectory_sound (entries : DirEntries) :
    (∀ path subdir tablespace, .scan item ∈ scanDirectory env path subdir tablespace entries →
      ∃ below, item.fn = path ++ below ∧ walkPath env path subdir tablespace below = [.scan item]) ∧
    ∀ path tablespace, .scan item ∈ scanVersion env path tablespace entries →
      ∃ below, item.fn = path ++ env.versionDirectory :: below ∧
        walkPath env (path ++ [env.versionDirectory]) env.versionDirectory tablespace below =
          [.scan item] := by
  induction entries with
  | nil =>
      refine ⟨fun path subdir tablespace h => ?_, fun path tablespace h => ?_⟩
      · rw [scanDirectory] at h
        cases h
      · rw [scanVersion] at h
        cases List.mem_singleton.1 h
  | file name rest ih =>
      refine ⟨fun path subdir tablespace h => ?_, fun path tablespace h => ?_⟩
      · rw [scanDirectory] at h
        obtain h | h := List.mem_append.1 h
        · split at h
          · cases h
          · exact ⟨[name], mem_scanName h⟩
        · exact ih.1 path subdir tablespace h
      · rw [scanVersion] at h
        split at h
        · cases List.mem_singleton.1 h
        · exact ih.2 path tablespace h
  | dir name entries rest ihEntries ihRest =>
      refine ⟨fun path subdir tablespace h => ?_, fun path tablespace h => ?_⟩
      · rw [scanDirectory] at h
        obtain h | h := List.mem_append.1 h
        · split at h
          · cases h
          · split at h
            · next htblspc =>
                obtain ⟨below, hfn, hwalk⟩ := ihEntries.2 _ _ h
                refine ⟨name :: env.versionDirectory :: below, ?_, ?_⟩
                · rw [hfn, List.append_assoc]
                  rfl
                · rw [walkPath, if_pos htblspc, if_pos rfl]
                  rw [List.append_assoc] at hwalk
                  exact hwalk
            · next htblspc =>
                obtain ⟨below, hfn, hwalk⟩ := ihEntries.1 _ _ _ h
                cases below with
                | nil =>
                    rw [walkPath] at hwalk
                    cases hwalk
                | cons name' below =>
                    refine ⟨name :: name' :: below, ?_, ?_⟩
                    · rw [hfn, List.append_assoc]
                      rfl
                    · rw [walkPath, if_neg htblspc]
                      exact hwalk
        · exact ihRest.1 path subdir tablespace h
      · rw [scanVersion] at h
        split at h
        · next hname =>
            obtain ⟨below, hfn, hwalk⟩ := ihEntries.1 _ _ _ h
            rw [← hname]
            refine ⟨below, ?_, hwalk⟩
            rw [hfn, List.append_assoc]
            rfl
        · exact ihRest.2 path tablespace h

/-- Everything that can be found from there on is not skipped. -/
def Looked (below : List (List UInt8)) : Prop := ∀ name ∈ below, skipEntry name = false

theorem DirEntries.Has.mem_names (h : entries.Has (name :: below)) : name ∈ entries.names := by
  induction entries with
  | nil => cases h
  | file name' rest ih =>
      obtain h | h := h
      · cases h
        exact List.mem_cons_self
      · exact List.mem_cons_of_mem _ (ih h)
  | dir name' entries rest _ ih =>
      obtain ⟨below', heq, -⟩ | h := h
      · cases heq
        exact List.mem_cons_self
      · exact List.mem_cons_of_mem _ (ih h)

theorem DirEntries.not_has_nil (entries : DirEntries) : ¬ entries.Has [] := by
  induction entries with
  | nil => exact id
  | file name rest ih => exact fun h => h.elim (List.cons_ne_nil name []).symm ih
  | dir name entries rest _ ih =>
      refine fun h => h.elim (fun h => ?_) ih
      obtain ⟨below, heq, -⟩ := h
      cases heq

/-- A file that is there is scanned as its path says, below a directory and below the location of a
tablespace. -/
theorem scanDirectory_complete (entries : DirEntries) (hdistinct : entries.Distinct) :
    (∀ path subdir tablespace below, entries.Has below → Looked below →
      walkPath env path subdir tablespace below = [.scan item] →
      .scan item ∈ scanDirectory env path subdir tablespace entries) ∧
    ∀ path tablespace below, entries.Has (env.versionDirectory :: below) → Looked below →
      walkPath env (path ++ [env.versionDirectory]) env.versionDirectory tablespace below =
        [.scan item] →
      .scan item ∈ scanVersion env path tablespace entries := by
  induction entries with
  | nil => exact ⟨fun _ _ _ _ h => h.elim, fun _ _ _ h => h.elim⟩
  | file name rest ih =>
      obtain ⟨hnew, hrest⟩ := hdistinct
      obtain ⟨ih₁, ih₂⟩ := ih hrest
      refine ⟨fun path subdir tablespace below h hlooked hwalk => ?_,
        fun path tablespace below h hlooked hwalk => ?_⟩
      · rw [scanDirectory, List.mem_append]
        obtain rfl | h := h
        · left
          rw [hlooked name List.mem_cons_self, if_neg Bool.false_ne_true]
          rw [walkPath] at hwalk
          rw [hwalk]
          exact List.mem_cons_self
        · exact .inr (ih₁ path subdir tablespace below h hlooked hwalk)
      · obtain h | h := h
        · cases h
          rw [walkPath] at hwalk
          cases hwalk
        · have hne : name ≠ env.versionDirectory := by
            rintro rfl
            exact hnew h.mem_names
          rw [scanVersion, if_neg hne]
          exact ih₂ path tablespace below h hlooked hwalk
  | dir name entries rest ihEntries ihRest =>
      obtain ⟨hnew, hentries, hrest⟩ := hdistinct
      obtain ⟨ihEntries₁, ihEntries₂⟩ := ihEntries hentries
      obtain ⟨ihRest₁, ihRest₂⟩ := ihRest hrest
      refine ⟨fun path subdir tablespace below h hlooked hwalk => ?_,
        fun path tablespace below h hlooked hwalk => ?_⟩
      · rw [scanDirectory, List.mem_append]
        obtain ⟨below, rfl, h⟩ | h := h
        · left
          have hbelow : Looked below := fun name' hname' => hlooked name' (List.mem_cons_of_mem name hname')
          rw [hlooked name List.mem_cons_self, if_neg Bool.false_ne_true]
          cases below with
          | nil => exact absurd h (DirEntries.not_has_nil entries)
          | cons name' below =>
              rw [walkPath] at hwalk
              split at hwalk
              · next htblspc =>
                  rw [if_pos htblspc]
                  split at hwalk
                  · next hversion =>
                      subst hversion
                      refine ihEntries₂ _ _ below h (fun name hname => ?_) ?_
                      · exact hbelow name (List.mem_cons_of_mem _ hname)
                      · rw [List.append_assoc]
                        exact hwalk
                  · cases hwalk
              · next htblspc =>
                  rw [if_neg htblspc]
                  exact ihEntries₁ _ _ _ _ h hbelow hwalk
        · exact .inr (ihRest₁ path subdir tablespace below h hlooked hwalk)
      · rw [scanVersion]
        obtain ⟨below', heq, h⟩ | h := h
        · cases heq
          rw [if_pos rfl]
          exact ihEntries₁ _ _ _ _ h hlooked hwalk
        · have hne : name ≠ env.versionDirectory := by
            rintro rfl
            exact hnew h.mem_names
          rw [if_neg hne]
          exact ihRest₂ path tablespace below h hlooked hwalk

/-- A directory that is there is found by its name. -/
theorem DirEntries.Has.opendir (hdistinct : entries.Distinct) (h : entries.Has (name :: below))
    (hbelow : below ≠ []) :
    ∃ inner, entries.subdir name = some inner ∧ inner.Has below ∧ inner.Distinct := by
  induction entries with
  | nil => cases h
  | file name' rest ih =>
      obtain h | h := h
      · exact absurd (List.cons.inj h).2 hbelow
      · exact ih hdistinct.2 h
  | dir name' entries rest _ ih =>
      obtain ⟨hnew, hentries, hrest⟩ := hdistinct
      obtain ⟨below', heq, h⟩ | h := h
      · cases heq
        exact ⟨entries, if_pos rfl, h, hentries⟩
      · have hne : name' ≠ name := by
          rintro rfl
          exact hnew h.mem_names
        obtain ⟨inner, hinner, hin⟩ := ih hrest h
        exact ⟨inner, (if_neg hne).trans hinner, hin⟩

theorem scanRoots_injective : ∀ a ∈ scanRoots, ∀ b ∈ scanRoots, a.1 = b.1 → a = b := by decide

/-- A file is scanned as its path says. -/
theorem scanDataDirectory_walk {root : DirEntries} (h : .scan item ∈ scanDataDirectory env root) :
    ∃ start ∈ scanRoots, ∃ below, item.fn = start.1 :: below ∧
      walkPath env [start.1] start.1 start.2 below = [.scan item] := by
  obtain ⟨start, hstart, h⟩ := List.mem_flatMap.1 h
  split at h
  · cases List.mem_singleton.1 h
  · next entries _ =>
      obtain ⟨below, hfn, hwalk⟩ := (scanDirectory_sound entries).1 _ _ _ h
      exact ⟨start, hstart, below, hfn, hwalk⟩

/-- So a path is never scanned in two ways. -/
theorem scanDataDirectory_fn {root : DirEntries} (h : .scan item ∈ scanDataDirectory env root)
    (h' : .scan item' ∈ scanDataDirectory env root) (hfn : item.fn = item'.fn) : item = item' := by
  obtain ⟨start, hstart, below, hbelow, hwalk⟩ := scanDataDirectory_walk h
  obtain ⟨start', hstart', below', hbelow', hwalk'⟩ := scanDataDirectory_walk h'
  rw [hbelow, hbelow'] at hfn
  obtain ⟨hname, rfl⟩ := List.cons.inj hfn
  obtain rfl := scanRoots_injective start hstart start' hstart' hname
  cases hwalk.symm.trans hwalk'
  rfl

end Scan

/-! ### The files of relations -/

/-- What the server appends to the name of a file for a fork. -/
def forkSuffix : ForkNumber → List UInt8
  | .main => []
  | .fsm => ascii "_fsm"
  | .visibilityMap => ascii "_vm"
  | .init => ascii "_init"

/-- The name of a segment. -/
def relName (relNumber : UInt32) (fork : ForkNumber) (segNo : ℕ) : List UInt8 :=
  text relNumber.toNat ++ forkSuffix fork ++ if segNo = 0 then [] else 46 :: text segNo

/-- Where the server puts a segment. -/
def relPath (env : DirScan) (rlocator : RelFileLocator) (fork : ForkNumber) (segNo : ℕ) :
    List (List UInt8) :=
  let name := relName rlocator.relNumber fork segNo
  if rlocator.spcOid = 1664 then [ascii "global", name]
  else if rlocator.spcOid = 1663 then [ascii "base", text rlocator.dbOid.toNat, name]
  else
    [ascii "pg_tblspc", text rlocator.spcOid.toNat, env.versionDirectory, text rlocator.dbOid.toNat, name]

section Names

variable {c : UInt8} {s t : List UInt8} {n : ℕ}

theorem text_eq_cons (n : ℕ) : ∃ c t, text n = c :: t ∧ isDigit c = true := by
  obtain ⟨c, t, h⟩ := List.exists_cons_of_ne_nil (text_ne_nil n)
  exact ⟨c, t, h, isDigit_of_mem_text (h ▸ List.mem_cons_self)⟩

theorem not_mem_text (h : isDigit c = false) : c ∉ text n := by
  intro hmem
  rw [isDigit_of_mem_text hmem] at h
  cases h

theorem strtoParse_text (h : ∀ c ∈ s.head?, isDigit c = false) : strtoParse (text n ++ s) = (false, n) := by
  obtain ⟨c, t, htext, hc⟩ := text_eq_cons n
  have hdigit : ∀ {d}, isDigit d = false → c ≠ d := by
    rintro d hd rfl
    rw [hd] at hc
    cases hc
  have hspace : ¬ isSpace c = true := by
    simp only [isDigit, Bool.and_eq_true, decide_eq_true_eq] at hc
    simp only [isSpace, Bool.or_eq_true, Bool.and_eq_true, decide_eq_true_eq, not_or, not_and]
    refine ⟨hdigit (by decide), fun _ hle => ?_⟩
    exact absurd (UInt8.le_trans hc.1 hle) (by decide)
  have hdrop : (text n ++ s).dropWhile isSpace = text n ++ s := by
    rw [htext, List.cons_append, List.dropWhile_cons_of_neg hspace]
  have hhead : ∀ {d}, isDigit d = false → (text n ++ s).head? ≠ some d := by
    intro d hd heq
    rw [htext] at heq
    exact hdigit hd (Option.some.inj heq)
  unfold strtoParse
  rw [hdrop, if_neg (hhead (by decide)), if_neg (hhead (by decide)), leading_text h, value_text]

theorem atooid_text (oid : Oid) : atooid (text oid.toNat) = oid := by
  have hparse := @strtoParse_text [] oid.toNat fun _ h => by cases h
  rw [List.append_nil] at hparse
  have hlt := oid.toNat_lt
  unfold atooid
  rw [hparse]
  dsimp only
  rw [if_neg (by omega), if_neg Bool.false_ne_true, UInt32.ofNat_toNat]

theorem atoi_text (h : n < 2 ^ 31) : atoi (text n) = UInt32.ofNat n := by
  have hparse := @strtoParse_text [] n fun _ h => by cases h
  rw [List.append_nil] at hparse
  unfold atoi
  rw [hparse]
  dsimp only
  rw [if_neg Bool.false_ne_true, Nat.min_eq_left (by omega)]

theorem cutAt_of_not_mem (h : c ∉ s) : cutAt c s = (s, none) := by
  have htake : s.takeWhile (· ≠ c) = s := by
    rw [List.takeWhile_eq_self_iff]
    intro d hd
    exact decide_eq_true fun heq => h (heq ▸ hd)
  rw [cutAt, htake, if_neg h]

theorem cutAt_append (h : c ∉ s) : cutAt c (s ++ c :: t) = (s, some t) := by
  have hall : ∀ d ∈ s, decide (d ≠ c) = true := fun d hd => decide_eq_true fun heq => h (heq ▸ hd)
  have htake : (s ++ c :: t).takeWhile (· ≠ c) = s := by
    rw [List.takeWhile_append_of_pos hall]
    simp
  have hdrop : (s ++ c :: t).dropWhile (· ≠ c) = c :: t := by
    rw [List.dropWhile_append_of_pos hall]
    simp
  rw [cutAt, htake, hdrop, if_pos (List.mem_append_right s List.mem_cons_self), List.tail_cons]

/-- A name that starts with a digit is not one of those that are skipped. -/
theorem skip_of_digit (hc : isDigit c = true) : skipfile (c :: s) = false ∧ skipEntry (c :: s) = false := by
  have hname : ∀ {name : List UInt8}, (∃ d rest, name = d :: rest ∧ isDigit d = false) →
      name ≠ c :: s ∧ ¬ name.isPrefixOf (c :: s) = true := by
    rintro name ⟨d, rest, rfl, hd⟩
    have hne : d ≠ c := by
      rintro rfl
      rw [hd] at hc
      cases hc
    refine ⟨fun heq => hne (List.cons.inj heq).1, fun hpre => hne ?_⟩
    exact (List.cons_prefix_cons.1 (List.isPrefixOf_iff_prefix.1 hpre)).1
  constructor
  · rw [skipfile, List.any_eq_false]
    intro item hitem
    have hhead : ∃ d rest, item.1 = d :: rest ∧ isDigit d = false := by
      simp only [skip, List.mem_cons, List.not_mem_nil, or_false] at hitem
      obtain rfl | rfl | rfl | rfl := hitem
      · exact ⟨_, _, rfl, rfl⟩
      · exact ⟨_, _, rfl, rfl⟩
      · exact ⟨_, _, rfl, rfl⟩
      · exact ⟨_, _, rfl, rfl⟩
    split
    · exact (hname hhead).2
    · rw [decide_eq_true_eq]
      exact fun heq => (hname hhead).1 heq
  · simp only [skipEntry, Bool.or_eq_false_iff, decide_eq_false_iff_not]
    exact ⟨⟨⟨fun h => (hname ⟨_, _, rfl, rfl⟩).1 h.symm, fun h => (hname ⟨_, _, rfl, rfl⟩).1 h.symm⟩,
      Bool.eq_false_iff.2 (hname ⟨_, _, rfl, rfl⟩).2⟩, fun h => (hname ⟨_, _, rfl, rfl⟩).1 h.symm⟩

end Names

/-- What the documentation of PostgreSQL says of the names that the scan depends on. -/
structure DirScan.Ok (env : DirScan) : Prop where
  forks : ∀ fork, fork ≠ .main → env.forknameToNumber (forkSuffix fork).tail = some fork
  version : (ascii "pg_tblspc").isPrefixOf env.versionDirectory = false ∧
    skipEntry env.versionDirectory = false

/-- Relations that all databases share belong to none. -/
def RelFileLocator.Placed (rlocator : RelFileLocator) : Prop :=
  rlocator.spcOid = 1664 → rlocator.dbOid = 0

section Relations

variable {env : DirScan} {rlocator : RelFileLocator} {fork : ForkNumber} {segNo : ℕ} {root : DirEntries}
  {item : ScanItem}

theorem forkSuffix_eq (h : fork ≠ .main) : ∃ name, forkSuffix fork = 95 :: name ∧ 46 ∉ forkSuffix fork := by
  cases fork with
  | main => exact absurd rfl h
  | fsm => exact ⟨_, rfl, by decide⟩
  | visibilityMap => exact ⟨_, rfl, by decide⟩
  | init => exact ⟨_, rfl, by decide⟩

/-- The name of a segment is taken apart into what it was made of. -/
theorem scanName_relName (henv : env.Ok) (hall : env.onlyFilenode = none) (hseg : segNo < 2 ^ 31) {path : List (List UInt8)}
    {subdir : List UInt8} {tablespace : Oid} (relNumber : UInt32) :
    scanName env path subdir tablespace (relName relNumber fork segNo) =
      [.scan ⟨path ++ [relName relNumber fork segNo], ⟨tablespace, atooid subdir, relNumber⟩, some fork,
        UInt32.ofNat segNo⟩] := by
  have hskip : skipfile (relName relNumber fork segNo) = false := by
    obtain ⟨c, t, htext, hc⟩ := text_eq_cons relNumber.toNat
    rw [relName, htext]
    exact (skip_of_digit hc).1
  have hdot : 46 ∉ text relNumber.toNat ++ forkSuffix fork := by
    rw [List.mem_append, not_or]
    refine ⟨not_mem_text rfl, ?_⟩
    by_cases hfork : fork = .main
    · subst hfork
      exact List.not_mem_nil
    · exact (forkSuffix_eq hfork).choose_spec.2
  have hsegment : cutAt 46 (relName relNumber fork segNo) =
      (text relNumber.toNat ++ forkSuffix fork, if segNo = 0 then none else some (text segNo)) := by
    unfold relName
    split
    · rw [List.append_nil]
      exact cutAt_of_not_mem hdot
    · exact cutAt_append hdot
  have hfork : cutAt 95 (text relNumber.toNat ++ forkSuffix fork) =
      (text relNumber.toNat, if fork = .main then none else some (forkSuffix fork).tail) := by
    by_cases hmain : fork = .main
    · subst hmain
      rw [if_pos rfl]
      show cutAt 95 (_ ++ []) = _
      rw [List.append_nil]
      exact cutAt_of_not_mem (not_mem_text rfl)
    · obtain ⟨name, hname, -⟩ := forkSuffix_eq hmain
      rw [if_neg hmain, hname]
      exact cutAt_append (not_mem_text rfl)
  have hnumber : (((if segNo = 0 then none else some (text segNo)).map atoi).getD 0) =
      UInt32.ofNat segNo := by
    split
    · next hzero =>
        rw [hzero]
        rfl
    · exact atoi_text hseg
  have hforknum : (((if fork = .main then none else some (forkSuffix fork).tail).map
      env.forknameToNumber).getD (some .main)) = some fork := by
    split
    · next hmain =>
        rw [hmain]
        rfl
    · next hmain => exact henv.forks fork hmain
  unfold scanName
  rw [hskip, if_neg Bool.false_ne_true, hsegment]
  dsimp only
  rw [hnumber, hfork]
  dsimp only
  rw [hforknum, hall, if_neg, if_neg (by simp), atooid_text]
  rintro ⟨hthere, hzero⟩
  split at hthere
  · cases hthere
  · next hne =>
      have hval := congrArg UInt32.toNat hzero
      rw [UInt32.toNat_ofNat_of_lt' (by show segNo < 2 ^ 32; omega)] at hval
      exact hne hval

theorem looked_relName (relNumber : UInt32) : skipEntry (relName relNumber fork segNo) = false := by
  obtain ⟨c, t, htext, hc⟩ := text_eq_cons relNumber.toNat
  rw [relName, htext]
  exact (skip_of_digit hc).2

theorem looked_text (n : ℕ) :
    skipEntry (text n) = false ∧ ¬ (ascii "pg_tblspc").isPrefixOf (text n) = true := by
  obtain ⟨c, t, htext, hc⟩ := text_eq_cons n
  rw [htext]
  refine ⟨(skip_of_digit hc).2, fun hpre => ?_⟩
  have hhead := (List.cons_prefix_cons.1 (List.isPrefixOf_iff_prefix.1 hpre)).1
  rw [← hhead] at hc
  cases hc

/-- The file of a segment. -/
def relItem (env : DirScan) (rlocator : RelFileLocator) (fork : ForkNumber) (segNo : ℕ) : ScanItem :=
  ⟨relPath env rlocator fork segNo, rlocator, some fork, UInt32.ofNat segNo⟩

/-- The path of a segment says what it is a segment of. -/
theorem walkPath_relPath (henv : env.Ok) (hall : env.onlyFilenode = none) (hrel : rlocator.Placed)
    (hseg : segNo < 2 ^ 31) :
    ∃ start ∈ scanRoots, ∃ below, relPath env rlocator fork segNo = start.1 :: below ∧ below ≠ [] ∧
      Looked below ∧ walkPath env [start.1] start.1 start.2 below =
        [.scan (relItem env rlocator fork segNo)] := by
  have hname := @looked_relName fork segNo rlocator.relNumber
  obtain ⟨hdb, hdbPrefix⟩ := looked_text rlocator.dbOid.toNat
  obtain ⟨hspc, -⟩ := looked_text rlocator.spcOid.toNat
  obtain ⟨hversion, hversionLooked⟩ := henv.version
  by_cases hglobal : rlocator.spcOid = 1664
  · have hpath : relPath env rlocator fork segNo =
        [ascii "global", relName rlocator.relNumber fork segNo] := if_pos hglobal
    refine ⟨(ascii "global", 1664), by decide, [relName rlocator.relNumber fork segNo], hpath,
      List.cons_ne_nil _ _, fun name hmem => ?_, ?_⟩
    · rw [List.mem_singleton.1 hmem]
      exact hname
    · have hlocator : (⟨1664, atooid (ascii "global"), rlocator.relNumber⟩ : RelFileLocator) = rlocator := by
        have hzero : atooid (ascii "global") = 0 := by decide
        rw [hzero, ← hrel hglobal, ← hglobal]
      rw [walkPath, scanName_relName henv hall hseg, hlocator, relItem, hpath]
      rfl
  · by_cases hbase : rlocator.spcOid = 1663
    · have hpath : relPath env rlocator fork segNo =
          [ascii "base", text rlocator.dbOid.toNat, relName rlocator.relNumber fork segNo] := by
        rw [relPath, if_neg hglobal, if_pos hbase]
      refine ⟨(ascii "base", 1663), by decide,
        [text rlocator.dbOid.toNat, relName rlocator.relNumber fork segNo], hpath,
        List.cons_ne_nil _ _, fun name hmem => ?_, ?_⟩
      · obtain rfl | hmem := List.mem_cons.1 hmem
        · exact hdb
        · rw [List.mem_singleton.1 hmem]
          exact hname
      · have hlocator : (⟨1663, rlocator.dbOid, rlocator.relNumber⟩ : RelFileLocator) = rlocator := by
          rw [← hbase]
        have hno : ¬ (ascii "pg_tblspc").isPrefixOf (ascii "base") = true := by decide
        rw [walkPath, if_neg hno, walkPath, scanName_relName henv hall hseg, atooid_text, hlocator, relItem, hpath]
        rfl
    · have hpath : relPath env rlocator fork segNo =
          [ascii "pg_tblspc", text rlocator.spcOid.toNat, env.versionDirectory,
            text rlocator.dbOid.toNat, relName rlocator.relNumber fork segNo] := by
        rw [relPath, if_neg hglobal, if_neg hbase]
      refine ⟨(ascii "pg_tblspc", 0), by decide,
        [text rlocator.spcOid.toNat, env.versionDirectory, text rlocator.dbOid.toNat,
          relName rlocator.relNumber fork segNo], hpath, List.cons_ne_nil _ _, fun name hmem => ?_, ?_⟩
      · simp only [List.mem_cons, List.not_mem_nil, or_false] at hmem
        obtain rfl | rfl | rfl | rfl := hmem
        · exact hspc
        · exact hversionLooked
        · exact hdb
        · exact hname
      · have hyes : (ascii "pg_tblspc").isPrefixOf (ascii "pg_tblspc") = true := by decide
        have hno : ¬ (ascii "pg_tblspc").isPrefixOf env.versionDirectory = true := by
          rw [hversion]
          exact Bool.false_ne_true
        rw [walkPath, if_pos hyes, if_pos rfl, walkPath, if_neg hno, walkPath,
          scanName_relName henv hall hseg, atooid_text, atooid_text, relItem, hpath]
        rfl

/-- The files of relations are scanned, and taken for what they are. -/
theorem scanDataDirectory_rel (henv : env.Ok) (hall : env.onlyFilenode = none) (hrel : rlocator.Placed)
    (hseg : segNo < 2 ^ 31) :
    (root.Distinct → root.Has (relPath env rlocator fork segNo) →
      .scan (relItem env rlocator fork segNo) ∈ scanDataDirectory env root) ∧
    (.scan item ∈ scanDataDirectory env root → item.fn = relPath env rlocator fork segNo →
      item = relItem env rlocator fork segNo) := by
  obtain ⟨start, hstart, below, hpath, hbelow, hlooked, hwalk⟩ :=
    @walkPath_relPath env rlocator fork segNo henv hall hrel hseg
  refine ⟨fun hdistinct h => ?_, fun h hfn => ?_⟩
  · rw [hpath] at h
    obtain ⟨inner, hinner, hin, hdist⟩ := h.opendir hdistinct hbelow
    refine List.mem_flatMap.2 ⟨start, hstart, ?_⟩
    rw [hinner]
    exact (scanDirectory_complete inner hdist).1 _ _ _ _ hin hlooked hwalk
  · obtain ⟨start', hstart', below', hfn', hwalk'⟩ := scanDataDirectory_walk h
    rw [hfn', hpath] at hfn
    obtain ⟨hname, rfl⟩ := List.cons.inj hfn
    obtain rfl := scanRoots_injective start' hstart' start hstart hname
    cases hwalk'.symm.trans hwalk
    rfl

end Relations

end OpenPgTde
