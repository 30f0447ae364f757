import Mathlib.Data.List.Sort
import OpenPgTde.Rewind.Plan

/-!
The file map (`pg_rewind/filemap.c`).

Both data directories are listed, and a table has an entry for every path, with the size that the file
has in the source and in the target. Then the blocks are noted that were changed in the target, and every
file gets its action. `FileMap` says what is known of the entries whatever order they are in.
-/

namespace OpenPgTde

/-! ### The table -/

/-- `insert_filehash_entry`, and what is noted in the entry. -/
def updateFilehashEntry (hash : List FileEntry) (path : RewindPath) (note : FileEntry → FileEntry) :
    List FileEntry :=
  if path ∈ hash.map (·.path) then hash.map fun e => if e.path = path then note e else e
  else hash ++ [note ⟨path, none, none, [], .none⟩]

/-- `process_source_file`, for a regular file. -/
def processSourceFile (hash : List FileEntry) (file : RewindPath × ℕ) : Option (List FileEntry) :=
  if hash.any fun e => e.path = file.1 ∧ e.sourceSize.isSome then none
  else some (updateFilehashEntry hash file.1 fun e => { e with sourceSize := some file.2 })

/-- `process_target_file`. -/
def processTargetFile (hash : List FileEntry) (file : RewindPath × ℕ) : Option (List FileEntry) :=
  if hash.any fun e => e.path = file.1 ∧ e.targetSize.isSome then none
  else some (updateFilehashEntry hash file.1 fun e => { e with targetSize := some file.2 })

/-- `datapagemap_add`; the blocks are gone through in their order. -/
def datapagemapAdd (pages : List ℕ) (blkno : ℕ) : List ℕ :=
  if blkno ∈ pages then pages else pages.orderedInsert (· ≤ ·) blkno

/-- `process_target_wal_block_change`. -/
def processTargetWalBlockChange (hash : List FileEntry)
    (change : RelFileLocator × ForkNumber × ℕ) : List FileEntry :=
  let (rlocator, fork, blkno) := change
  let blknoInseg := blkno % relSegSize
  hash.map fun e =>
    if e.path = .rel rlocator fork (blkno / relSegSize) ∧
        (e.targetSize.any fun size => (blknoInseg + 1) * blckSz ≤ size) ∧
        e.sourceSize.any fun size => (blknoInseg + 1) * blckSz ≤ size then
      { e with targetPagesToOverwrite := datapagemapAdd e.targetPagesToOverwrite blknoInseg }
    else e

/-- `decide_file_actions`, before the entries are sorted. -/
def decideFileActions (keepwal : List (List UInt8)) (hash : List FileEntry) : List FileEntry :=
  hash.map fun e => { e with action := decideFileAction keepwal e.path e.targetSize e.sourceSize }

/-- What `main` makes of the two lists of files and the blocks that were changed. -/
def fileMap (keepwal : List (List UInt8)) (source target : List (RewindPath × ℕ))
    (changes : List (RelFileLocator × ForkNumber × ℕ)) : Option (List FileEntry) := do
  let hash ← source.foldlM processSourceFile []
  let hash ← target.foldlM processTargetFile hash
  some (decideFileActions keepwal (changes.foldl processTargetWalBlockChange hash))

/-! ### Listing a directory -/

/-- The files of a directory with these sizes, each once. -/
structure Listing (size : RewindPath → Option ℕ) (files : List (RewindPath × ℕ)) : Prop where
  nodup : (files.map Prod.fst).Nodup
  mem : ∀ path n, (path, n) ∈ files ↔ size path = some n

/-- The sizes that are known when some more files are listed. -/
def noteSizes (size : RewindPath → Option ℕ) (files : List (RewindPath × ℕ)) :
    RewindPath → Option ℕ :=
  files.foldl (fun size file => Function.update size file.1 (some file.2)) size

theorem noteSizes_of_not_mem {size : RewindPath → Option ℕ} {files : List (RewindPath × ℕ)}
    {path : RewindPath} (h : path ∉ files.map Prod.fst) : noteSizes size files path = size path := by
  induction files generalizing size with
  | nil => rfl
  | cons file files ih =>
      rw [List.map_cons, List.mem_cons, not_or] at h
      have hrest := @ih (Function.update size file.1 (some file.2)) h.2
      rwa [Function.update_of_ne h.1] at hrest

theorem noteSizes_of_mem {size : RewindPath → Option ℕ} {files : List (RewindPath × ℕ)}
    {path : RewindPath} {n : ℕ} (hnodup : (files.map Prod.fst).Nodup) (h : (path, n) ∈ files) :
    noteSizes size files path = some n := by
  induction files generalizing size with
  | nil => cases h
  | cons file files ih =>
      rw [List.map_cons, List.nodup_cons] at hnodup
      obtain rfl | h := List.mem_cons.1 h
      · have hrest := @noteSizes_of_not_mem (Function.update size path (some n)) files path hnodup.1
        rwa [Function.update_self] at hrest
      · exact ih hnodup.2 h

/-- A whole list gives the sizes of the directory. -/
theorem Listing.noteSizes {size : RewindPath → Option ℕ} {files : List (RewindPath × ℕ)}
    (h : Listing size files) : noteSizes (fun _ => none) files = size := by
  ext1 path
  cases hsize : size path with
  | some n => exact noteSizes_of_mem h.nodup ((h.mem path n).2 hsize)
  | none =>
      apply noteSizes_of_not_mem
      rw [List.mem_map]
      rintro ⟨⟨_, n⟩, hmem, rfl⟩
      rw [(h.mem _ n).1 hmem] at hsize
      cases hsize

/-- An entry for every path that was listed, with its sizes. Blocks are noted of relations only. -/
structure FileHash (source target : RewindPath → Option ℕ) (hash : List FileEntry) : Prop where
  nodup : (hash.map (·.path)).Nodup
  mem : ∀ path, path ∈ hash.map (·.path) ↔ source path ≠ none ∨ target path ≠ none
  sourceSize : ∀ e ∈ hash, e.sourceSize = source e.path
  targetSize : ∀ e ∈ hash, e.targetSize = target e.path
  pages : ∀ e ∈ hash, ∀ name, e.path = .file name → e.targetPagesToOverwrite = []

section Table

variable {source target source' target' : RewindPath → Option ℕ} {hash hash' : List FileEntry}

theorem FileHash.empty : FileHash (fun _ => none) (fun _ => none) [] :=
  ⟨List.nodup_nil, by simp, by simp, by simp, by simp⟩

/-- Changing entries without changing their paths. -/
theorem FileHash.map (h : FileHash source target hash) {f : FileEntry → FileEntry}
    (hpath : ∀ e, (f e).path = e.path)
    (hlisted : ∀ path, (source' path ≠ none ∨ target' path ≠ none) ↔
      (source path ≠ none ∨ target path ≠ none))
    (hsource : ∀ e ∈ hash, (f e).sourceSize = source' e.path)
    (htarget : ∀ e ∈ hash, (f e).targetSize = target' e.path)
    (hpages : ∀ e ∈ hash, ∀ name, e.path = .file name →
      (f e).targetPagesToOverwrite = e.targetPagesToOverwrite) :
    FileHash source' target' (hash.map f) := by
  have hpaths : (hash.map f).map (·.path) = hash.map (·.path) := by
    rw [List.map_map]
    exact List.map_congr_left fun e _ => hpath e
  refine ⟨by rw [hpaths]; exact h.nodup, fun path => by rw [hpaths, h.mem, hlisted], ?_, ?_, ?_⟩
  · intro e he
    obtain ⟨e, hmem, rfl⟩ := List.mem_map.1 he
    rw [hsource e hmem, hpath]
  · intro e he
    obtain ⟨e, hmem, rfl⟩ := List.mem_map.1 he
    rw [htarget e hmem, hpath]
  · intro e he name hname
    obtain ⟨e, hmem, rfl⟩ := List.mem_map.1 he
    rw [hpath] at hname
    rw [hpages e hmem name hname, h.pages e hmem name hname]

/-- A path is noted with the sizes that it then has. -/
theorem FileHash.update (h : FileHash source target hash) {path : RewindPath}
    {note : FileEntry → FileEntry} (hpath : ∀ e, (note e).path = e.path)
    (hlisted : ∀ path', (source' path' ≠ none ∨ target' path' ≠ none) ↔
      path' = path ∨ source path' ≠ none ∨ target path' ≠ none)
    (hsource : ∀ e, e.path = path → e.sourceSize = source path →
      (note e).sourceSize = source' path)
    (htarget : ∀ e, e.path = path → e.targetSize = target path →
      (note e).targetSize = target' path)
    (hothers : ∀ path', path' ≠ path → source' path' = source path' ∧ target' path' = target path')
    (hpages : ∀ e, (note e).targetPagesToOverwrite = e.targetPagesToOverwrite) :
    FileHash source' target' (updateFilehashEntry hash path note) := by
  unfold updateFilehashEntry
  split
  · next hmem =>
      refine h.map (fun e => ?_) (fun path' => ?_) (fun e he => ?_) (fun e he => ?_)
        fun e he name hname => ?_
      · split
        · exact hpath e
        · rfl
      · rw [hlisted]
        refine ⟨fun hor => hor.elim (fun heq => ?_) id, .inr⟩
        rw [heq]
        exact (h.mem path).1 hmem
      · split
        · next heq => rw [hsource e heq (heq ▸ h.sourceSize e he), heq]
        · next hne => rw [h.sourceSize e he, (hothers _ hne).1]
      · split
        · next heq => rw [htarget e heq (heq ▸ h.targetSize e he), heq]
        · next hne => rw [h.targetSize e he, (hothers _ hne).2]
      · split
        · exact hpages e
        · rfl
  · next hnew =>
      have hnone : source path = none ∧ target path = none := by
        rw [h.mem, not_or, not_ne_iff, not_ne_iff] at hnew
        exact hnew
      have hne : ∀ e ∈ hash, e.path ≠ path := fun e he heq =>
        hnew (heq ▸ List.mem_map_of_mem he)
      refine ⟨?_, fun path' => ?_, fun e he => ?_, fun e he => ?_, fun e he name hname => ?_⟩
      · rw [List.map_append, List.map_singleton, hpath, List.nodup_append]
        refine ⟨h.nodup, List.nodup_singleton _, fun a ha b hb => ?_⟩
        rw [List.mem_singleton.1 hb]
        rintro rfl
        exact hnew ha
      · rw [hlisted, List.map_append, List.map_singleton, hpath, List.mem_append, h.mem,
          List.mem_singleton, or_comm]
      · obtain he | he := List.mem_append.1 he
        · rw [h.sourceSize e he, (hothers _ (hne e he)).1]
        · rw [List.mem_singleton.1 he, hpath]
          exact hsource _ rfl hnone.1.symm
      · obtain he | he := List.mem_append.1 he
        · rw [h.targetSize e he, (hothers _ (hne e he)).2]
        · rw [List.mem_singleton.1 he, hpath]
          exact htarget _ rfl hnone.2.symm
      · obtain he | he := List.mem_append.1 he
        · exact h.pages e he name hname
        · rw [List.mem_singleton.1 he, hpages]

theorem processSourceFile_fileHash {file : RewindPath × ℕ} (h : FileHash source target hash)
    (hrun : processSourceFile hash file = some hash') :
    FileHash (Function.update source file.1 (some file.2)) target hash' := by
  unfold processSourceFile at hrun
  split at hrun
  · cases hrun
  · cases hrun
    refine h.update (fun _ => rfl) (fun path' => ?_) (fun e _ _ => ?_) (fun e _ he => he)
      (fun path' hne => ⟨Function.update_of_ne hne .., rfl⟩) fun _ => rfl
    · by_cases heq : path' = file.1
      · simp [heq]
      · simp [heq]
    · exact (Function.update_self file.1 (some file.2) source).symm

theorem processTargetFile_fileHash {file : RewindPath × ℕ} (h : FileHash source target hash)
    (hrun : processTargetFile hash file = some hash') :
    FileHash source (Function.update target file.1 (some file.2)) hash' := by
  unfold processTargetFile at hrun
  split at hrun
  · cases hrun
  · cases hrun
    refine h.update (fun _ => rfl) (fun path' => ?_) (fun e _ he => he) (fun e _ _ => ?_)
      (fun path' hne => ⟨rfl, Function.update_of_ne hne ..⟩) fun _ => rfl
    · by_cases heq : path' = file.1
      · simp [heq]
      · simp [heq]
    · exact (Function.update_self file.1 (some file.2) target).symm

theorem processSourceFiles_fileHash {files : List (RewindPath × ℕ)} (h : FileHash source target hash)
    (hrun : files.foldlM processSourceFile hash = some hash') :
    FileHash (noteSizes source files) target hash' := by
  induction files generalizing source hash with
  | nil =>
      cases hrun
      exact h
  | cons file files ih =>
      rw [List.foldlM_cons] at hrun
      obtain ⟨hash₁, hfile, hrun⟩ := Option.bind_eq_some_iff.1 hrun
      exact ih (processSourceFile_fileHash h hfile) hrun

theorem processTargetFiles_fileHash {files : List (RewindPath × ℕ)} (h : FileHash source target hash)
    (hrun : files.foldlM processTargetFile hash = some hash') :
    FileHash source (noteSizes target files) hash' := by
  induction files generalizing target hash with
  | nil =>
      cases hrun
      exact h
  | cons file files ih =>
      rw [List.foldlM_cons] at hrun
      obtain ⟨hash₁, hfile, hrun⟩ := Option.bind_eq_some_iff.1 hrun
      exact ih (processTargetFile_fileHash h hfile) hrun

theorem processTargetWalBlockChange_fileHash {change : RelFileLocator × ForkNumber × ℕ}
    (h : FileHash source target hash) :
    FileHash source target (processTargetWalBlockChange hash change) := by
  refine h.map (fun e => ?_) (fun _ => Iff.rfl) (fun e he => ?_) (fun e he => ?_)
    fun e he name hname => ?_
  · split
    · rfl
    · rfl
  · split
    · exact h.sourceSize e he
    · exact h.sourceSize e he
  · split
    · exact h.targetSize e he
    · exact h.targetSize e he
  · rw [if_neg]
    rintro ⟨hpath, -⟩
    rw [hname] at hpath
    cases hpath

theorem processTargetWalBlockChanges_fileHash {changes : List (RelFileLocator × ForkNumber × ℕ)}
    (h : FileHash source target hash) :
    FileHash source target (changes.foldl processTargetWalBlockChange hash) := by
  induction changes generalizing hash with
  | nil => exact h
  | cons change changes ih => exact ih (processTargetWalBlockChange_fileHash h)

end Table

/-! ### What is in the file map -/

/-- The entries of a file map: those of the table, with their actions. -/
structure FileMap (keepwal : List (List UInt8)) (source target : RewindPath → Option ℕ)
    (entries : List FileEntry) : Prop extends FileHash source target entries where
  action : ∀ e ∈ entries, e.action = decideFileAction keepwal e.path e.targetSize e.sourceSize

section Map

variable {keepwal : List (List UInt8)} {source target : RewindPath → Option ℕ}
  {entries entries' : List FileEntry}

theorem fileMap_ok {sources targets : List (RewindPath × ℕ)}
    {changes : List (RelFileLocator × ForkNumber × ℕ)} (hs : Listing source sources)
    (ht : Listing target targets) (h : fileMap keepwal sources targets changes = some entries) :
    FileMap keepwal source target entries := by
  unfold fileMap at h
  obtain ⟨hash, hsources, h⟩ := Option.bind_eq_some_iff.1 h
  obtain ⟨hash', htargets, h⟩ := Option.bind_eq_some_iff.1 h
  cases h
  have h₁ := processSourceFiles_fileHash FileHash.empty hsources
  have h₂ := processTargetFiles_fileHash h₁ htargets
  rw [hs.noteSizes, ht.noteSizes] at h₂
  have h₃ := @processTargetWalBlockChanges_fileHash source target hash' changes h₂
  refine ⟨h₃.map (fun _ => rfl) (fun _ => Iff.rfl) h₃.sourceSize h₃.targetSize fun _ _ _ _ => rfl,
    fun e he => ?_⟩
  obtain ⟨e, -, rfl⟩ := List.mem_map.1 he
  rfl

/-- The order of the entries does not matter. -/
theorem FileMap.perm (h : FileMap keepwal source target entries) (hperm : entries'.Perm entries) :
    FileMap keepwal source target entries' where
  nodup := (hperm.map _).nodup_iff.2 h.nodup
  mem path := (hperm.map _).mem_iff.trans (h.mem path)
  sourceSize e he := h.sourceSize e (hperm.mem_iff.1 he)
  targetSize e he := h.targetSize e (hperm.mem_iff.1 he)
  pages e he := h.pages e (hperm.mem_iff.1 he)
  action e he := h.action e (hperm.mem_iff.1 he)

end Map

/-! ### The blocks to overwrite -/

/-- The block `b` of the entry's file is one that was changed, and both sides have it. -/
def FileEntry.Overwrites (e : FileEntry) (change : RelFileLocator × ForkNumber × ℕ) (b : ℕ) : Prop :=
  e.path = .rel change.1 change.2.1 (change.2.2 / relSegSize) ∧ change.2.2 % relSegSize = b ∧
    (e.targetSize.any fun size => (b + 1) * blckSz ≤ size) ∧
    e.sourceSize.any fun size => (b + 1) * blckSz ≤ size

section Pages

variable {hash hash' : List FileEntry} {e : FileEntry}

theorem mem_datapagemapAdd {pages : List ℕ} {blkno b : ℕ} :
    b ∈ datapagemapAdd pages blkno ↔ b ∈ pages ∨ blkno = b := by
  unfold datapagemapAdd
  split
  · next hmem =>
      refine ⟨.inl, fun h => h.elim id fun heq => ?_⟩
      rwa [← heq]
  · rw [List.mem_orderedInsert, or_comm, eq_comm]

/-- The entries keep their sizes, and the blocks that were changed are noted. -/
theorem mem_processTargetWalBlockChanges {changes : List (RelFileLocator × ForkNumber × ℕ)}
    (he : e ∈ changes.foldl processTargetWalBlockChange hash) :
    ∃ e₀ ∈ hash, e.path = e₀.path ∧ e.targetSize = e₀.targetSize ∧ e.sourceSize = e₀.sourceSize ∧
      ∀ b, b ∈ e.targetPagesToOverwrite ↔
        b ∈ e₀.targetPagesToOverwrite ∨ ∃ change ∈ changes, e₀.Overwrites change b := by
  induction changes generalizing hash with
  | nil => exact ⟨e, he, rfl, rfl, rfl, fun b => by simp⟩
  | cons change changes ih =>
      obtain ⟨e₁, he₁, hpath, htarget, hsource, hpages⟩ := ih he
      obtain ⟨e₀, he₀, rfl⟩ := List.mem_map.1 he₁
      have hsame : ∀ change' b,
          (if e₀.path = .rel change.1 change.2.1 (change.2.2 / relSegSize) ∧
              (e₀.targetSize.any fun size => (change.2.2 % relSegSize + 1) * blckSz ≤ size) ∧
              e₀.sourceSize.any fun size => (change.2.2 % relSegSize + 1) * blckSz ≤ size then
            { e₀ with
              targetPagesToOverwrite :=
                datapagemapAdd e₀.targetPagesToOverwrite (change.2.2 % relSegSize) }
          else e₀ : FileEntry).Overwrites change' b ↔ e₀.Overwrites change' b := by
        intro change' b
        split
        · rfl
        · rfl
      refine ⟨e₀, he₀, ?_, ?_, ?_, fun b => ?_⟩
      · rw [hpath]
        split
        · rfl
        · rfl
      · rw [htarget]
        split
        · rfl
        · rfl
      · rw [hsource]
        split
        · rfl
        · rfl
      · rw [hpages]
        simp only [List.mem_cons, exists_eq_or_imp, hsame]
        rw [← or_assoc]
        refine or_congr ?_ Iff.rfl
        split
        · next hin =>
            rw [mem_datapagemapAdd]
            refine or_congr Iff.rfl ⟨fun heq => ?_, fun h => h.2.1⟩
            subst heq
            exact ⟨hin.1, rfl, hin.2⟩
        · next hout =>
            refine ⟨.inl, fun h => h.elim id fun hov => absurd ?_ hout⟩
            obtain ⟨hpath, rfl, hsizes⟩ := hov
            exact ⟨hpath, hsizes⟩

end Pages

end OpenPgTde
