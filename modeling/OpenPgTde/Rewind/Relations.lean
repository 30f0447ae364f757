import OpenPgTde.Rewind.Perform
import OpenPgTde.Smgr.Specs

/-!
The files of encrypted relations in a rewind.

A file of a relation is under the key of the source where it was copied, and under the key of the target
where some of its blocks stay. At the end one of the two keys is kept. Which key a file is under at which
time can be read off the steps alone: that is the trail of the relation (`RelTrail`). It is lost where the
steps come in an order in which a block is decrypted with the wrong key or the wrong number.

`rewind_relation_contents` says that the trail is right: a file that is under the key that is kept reads as
if the relation had been copied the same way and had never been encrypted.
-/

namespace OpenPgTde

open Lib.Splice

/-! ### Segments seen through a key -/

/-- What a reader makes of a segment. -/
def readSegment (c : PageCipher) (k : Option InternalKey) (fork : ForkNumber) (segNo : ℕ)
    (pages : List Page) : List Page :=
  pages.mapIdx fun i page => readPage c k fork (i + segNo * relSegSize) page

section Read

variable {c : PageCipher} {k : Option InternalKey} {fork : ForkNumber} {segNo : ℕ}

@[simp] theorem length_readSegment (pages : List Page) :
    (readSegment c k fork segNo pages).length = pages.length := List.length_mapIdx ..

theorem readSegment_getElem? (pages : List Page) (i : ℕ) :
    (readSegment c k fork segNo pages)[i]? =
      pages[i]?.map (readPage c k fork (i + segNo * relSegSize)) := List.getElem?_mapIdx ..

/-- A file that is extended is extended by empty pages, which nobody takes for encrypted ones. -/
theorem readSegment_extend (pages : List Page) (n : ℕ) :
    readSegment c k fork segNo (pages ++ List.replicate n 0) =
      readSegment c k fork segNo pages ++ List.replicate n 0 :=
  mapIdx_append_replicate (fun i => readPage_zero k (i + segNo * relSegSize)) pages n

theorem readSegment_writeTargetRange (file : Option (List Page)) (begin_ : ℕ) (data : List Page) :
    (writeTargetRange 0 file begin_ data).map (readSegment c k fork segNo) =
      writeTargetRange 0 (file.map (readSegment c k fork segNo)) begin_
        (data.mapIdx fun i page => readPage c k fork (begin_ + i + segNo * relSegSize) page) := by
  have hold : readSegment c k fork segNo (file.getD []) =
      (file.map (readSegment c k fork segNo)).getD [] := by
    cases file with
    | none => rfl
    | some pages => rfl
  unfold writeTargetRange
  rw [Option.map_some, ← hold]
  refine congrArg some ?_
  by_cases hdata : data = []
  · rw [if_pos hdata, if_pos (by rw [hdata]; rfl)]
  · have hne : (data.mapIdx fun i page =>
        readPage c k fork (begin_ + i + segNo * relSegSize) page) ≠ [] := by
      rwa [Ne, List.mapIdx_eq_nil_iff]
    have hlen : begin_ ≤ (file.getD [] ++
        List.replicate (begin_ - (file.getD []).length) 0).length := by
      rw [List.length_append, List.length_replicate]
      omega
    rw [if_neg hdata, if_neg hne, length_readSegment, ← readSegment_extend]
    exact mapIdx_overwrite _ hlen data

theorem readSegment_truncateTargetFile (file : Option (List Page)) (n : ℕ) :
    truncateTargetFile 0 n (file.map (readSegment c k fork segNo)) =
      (truncateTargetFile 0 n file).map (Option.map (readSegment c k fork segNo)) := by
  cases file with
  | none => rfl
  | some pages =>
      show some (some _) = some (some (readSegment c k fork segNo _))
      rw [readSegment_extend, length_readSegment, readSegment, readSegment, mapIdx_take]

theorem readSegment_fetchData (libpq : Bool) (rq : FetchRangeRequest) (src : Option (List Page)) :
    fetchData libpq rq blckSz (src.map (readSegment c k fork segNo)) =
      (fetchData libpq rq blckSz src).map (Option.map fun data => data.mapIdx fun i page =>
        readPage c k fork (rq.offset / blckSz + i + segNo * relSegSize) page) := by
  cases src with
  | none =>
      cases libpq with
      | true => rfl
      | false => rfl
  | some src =>
      have hslice : slice (readSegment c k fork segNo src) (rq.offset / blckSz) (rq.length / blckSz) =
          (slice src (rq.offset / blckSz) (rq.length / blckSz)).mapIdx fun i page =>
            readPage c k fork (rq.offset / blckSz + i + segNo * relSegSize) page := mapIdx_slice ..
      simp only [fetchData, Option.map_some, hslice]
      cases rq.encrypt with
      | true =>
          simp only [if_true, List.length_mapIdx]
          split
          · rfl
          · rfl
      | false =>
          simp only [Bool.false_eq_true, if_false, length_readSegment]
          split
          · rfl
          · rfl

/-- A page that was decrypted with one key and encrypted with the other one reads as before. -/
theorem readPage_reencrypt {old new : InternalKey} {bn : ℕ} {page : Page}
    (h : NoZeroPrefix c (some new) fork bn (readPage c (some old) fork bn page)) :
    readPage c (some new) fork bn
      (tdeEncryptSmgrBlock c new fork bn (tdeDecryptSmgrBlock c old fork bn page)) =
        readPage c (some old) fork bn page :=
  readPage_storedPage h

end Read

/-! ### Files that are not encrypted -/

/-- What a step does to a file of a relation that is not encrypted. -/
def relStep (libpq : Bool) (src file : Option (List Page)) : RewindStep → Option (Option (List Page))
  | .openTarget _ => some (some [])
  | .chunk rq => (fetchData libpq rq blckSz src).map fun data =>
    data.bind fun data => writeTargetRange 0 file (rq.offset / blckSz) data
  | .ensureTdeKeys _ => some file
  | .ensureWalSeg _ => none
  | .truncate _ newsize => truncateTargetFile 0 (newsize / blckSz) file
  | .remove _ => removeTargetFile file

/-! ### The trail of a relation -/

/-- Whose key. -/
inductive KeySide
  | source
  | target
  deriving DecidableEq, Repr

/-- Whose key the temporary directory has for a relation, which file of it `current_tde_file` is, and whose
key each of its files is under, if that is known. -/
structure RelTrail where
  side : KeySide
  current : Option (ForkNumber × ℕ)
  under : ForkNumber → ℕ → Option KeySide

/-- Nothing has been done yet. -/
def RelTrail.start : RelTrail := ⟨.source, none, fun _ _ => some .target⟩

def RelTrail.mark (t : RelTrail) (fork : ForkNumber) (segNo : ℕ) (side : Option KeySide) : RelTrail :=
  { t with under := Function.update t.under fork (Function.update (t.under fork) segNo side) }

/-- What becomes of the two other forks when the current file is left: they must be under the key that was
loaded, and their blocks must be counted from the first segment. -/
def RelTrail.flush (t : RelTrail) : RelTrail :=
  match t.current with
  | none => t
  | some (fork, segNo) =>
    let reencrypted (side : Option KeySide) : Option KeySide :=
      if side = some t.side ∧ (fork = .main → segNo = 0) then some .target else none
    { (t.mark .fsm 0 (reencrypted (t.under .fsm 0))).mark .visibilityMap 0
        (reencrypted (t.under .visibilityMap 0)) with
      side := .target
      current := none }

variable (R : RelFileLocator)

def RelTrail.ensureKeys (t : RelTrail) : RewindPath → RelTrail
  | .file _ => t.flush
  | .rel rlocator fork segNo =>
    if rlocator = R then
      if t.current = some (fork, segNo) then t
      else { t.flush with current := some (fork, segNo) }
    else t.flush

/-- Whose key a file is under when more of it has been written. -/
def RelTrail.written (t : RelTrail) (fork : ForkNumber) (segNo : ℕ) (encrypt : Bool) :
    Option KeySide :=
  if encrypt then
    if fork = .main ∧ t.side = .source ∧ t.under fork segNo = some .target then some .target else none
  else if t.under fork segNo = some .source then some .source else none

/-- Whether the source has the file. -/
def RewindEnv.hasSource (env : RewindEnv) : RewindPath → Bool
  | .file path => (env.sourceFile path).isSome
  | .rel rlocator fork segNo => (env.sourceRel rlocator fork segNo).isSome

def RelTrail.markPath (t : RelTrail) (side : ForkNumber → ℕ → Option KeySide) : RewindPath → RelTrail
  | .file _ => t
  | .rel rlocator fork segNo => if rlocator = R then t.mark fork segNo (side fork segNo) else t

def RelTrail.chunk (env : RewindEnv) (t : RelTrail) (rq : FetchRangeRequest) : RelTrail :=
  if env.hasSource rq.path then
    let t := if rq.encrypt then t.ensureKeys R rq.path else t
    t.markPath R (fun fork segNo => t.written fork segNo rq.encrypt) rq.path
  else t

def RelTrail.step (env : RewindEnv) (t : RelTrail) : RewindStep → RelTrail
  | .openTarget path => t.markPath R (fun _ _ => some .source) path
  | .chunk rq => t.chunk R env rq
  | .ensureTdeKeys path => t.ensureKeys R path
  | .ensureWalSeg _ => t
  | .truncate _ _ => t
  | .remove _ => t

/-- The trail at the end of `perform_rewind`. -/
def relTrail (env : RewindEnv) (entries : List FileEntry) : RelTrail :=
  ((scheduleEntries env.libpq entries).foldl (RelTrail.step R env) .start).flush

/-! ### What the trail says of a state -/

def KeySide.key (ks kt : InternalKey) : KeySide → InternalKey
  | .source => ks
  | .target => kt

/-- The file of the relation that is the current one. -/
def CurrentFileData.on (data : CurrentFileData) : Option (ForkNumber × ℕ) :=
  match data.path with
  | .file _ => none
  | .rel rlocator fork segNo => if rlocator = R then some (fork, segNo) else none

/-- The trail of a relation with these keys, while files that are not encrypted are treated the same way:
they have pages for which `P` holds, and a file is read as one of these with the key that it is under. -/
structure TrailOk (c : PageCipher) (ks kt : InternalKey) (P : ForkNumber → ℕ → ℕ → Page → Prop)
    (st : RewindState) (t : RelTrail) (plain : ForkNumber → ℕ → Option (List Page)) : Prop where
  key : st.tmpSource.smgrKeys R = some (t.side.key ks kt)
  current : t.current = st.current.bind (CurrentFileData.on R)
  path : ∀ data, st.current = some data →
    pathRlocator data.path = some (data.rlocator, data.segNo)
  loaded : ∀ data, st.current = some data → data.rlocator = R →
    data.sourceKey = t.side.key ks kt ∧ data.targetKey = kt
  length : ∀ fork segNo, (plain fork segNo).map List.length = (st.rel R fork segNo).map List.length
  under : ∀ fork segNo side, t.under fork segNo = some side →
    (st.rel R fork segNo).map (readSegment c (some (side.key ks kt)) fork segNo) = plain fork segNo
  pages : ∀ fork segNo pages i page, plain fork segNo = some pages → pages[i]? = some page →
    P fork segNo i page

section State

variable {R : RelFileLocator} {env : RewindEnv} {c : PageCipher} {st st' : RewindState}
  {rlocator rlocator' : RelFileLocator} {fork fork' : ForkNumber} {segNo segNo' : ℕ} {t : RelTrail}

/-- One segment of one fork is replaced. -/
theorem update_update_apply {β : Type} (f : ForkNumber → ℕ → β) (x : β) :
    Function.update f fork (Function.update (f fork) segNo x) fork' segNo' =
      if fork' = fork ∧ segNo' = segNo then x else f fork' segNo' := by
  by_cases hf : fork' = fork
  · subst hf
    rw [Function.update_self]
    by_cases hs : segNo' = segNo
    · subst hs
      rw [Function.update_self, if_pos ⟨rfl, rfl⟩]
    · rw [Function.update_of_ne hs, if_neg fun h => hs h.2]
  · rw [Function.update_of_ne hf, if_neg fun h => hf h.1]

theorem putRel_rel (st : RewindState) (f : Option (List Page)) :
    (st.putRel rlocator fork segNo f).rel rlocator' fork' segNo' =
      if rlocator' = rlocator ∧ fork' = fork ∧ segNo' = segNo then f
      else st.rel rlocator' fork' segNo' := by
  unfold RewindState.putRel
  dsimp only
  by_cases hr : rlocator' = rlocator
  · subst hr
    rw [Function.update_self, update_update_apply]
    simp only [true_and]
  · rw [Function.update_of_ne hr, if_neg fun h => hr h.1]

theorem reencryptFork_rel (data : CurrentFileData) (fork : ForkNumber) (st : RewindState) :
    (reencryptFork c data fork st).rel rlocator' fork' segNo' =
      if rlocator' = data.rlocator ∧ fork' = fork ∧ segNo' = 0 then
        (st.rel rlocator' fork' segNo').map fun pages =>
          pages.mapIdx (tdeReencryptBlock c (some data) fork)
      else st.rel rlocator' fork' segNo' := by
  unfold reencryptFork
  cases hfile : st.rel data.rlocator fork 0 with
  | none =>
      dsimp only
      split
      · next h =>
          obtain ⟨rfl, rfl, rfl⟩ := h
          rw [hfile]
          rfl
      · rfl
  | some pages =>
      dsimp only
      rw [putRel_rel]
      split
      · next h =>
          obtain ⟨rfl, rfl, rfl⟩ := h
          rw [hfile]
          rfl
      · rfl

theorem reencryptFork_tmpSource (data : CurrentFileData) (fork : ForkNumber) (st : RewindState) :
    (reencryptFork c data fork st).tmpSource = st.tmpSource := by
  unfold reencryptFork
  split
  · rfl
  · rfl

/-- Both forks are re-encrypted once. -/
theorem flushCurrentTdeRelKey_rel {data : CurrentFileData} (h : st.current = some data) :
    (flushCurrentTdeRelKey c st).rel rlocator' fork' segNo' =
      if rlocator' = data.rlocator ∧ (fork' = .fsm ∨ fork' = .visibilityMap) ∧ segNo' = 0 then
        (st.rel rlocator' fork' segNo').map fun pages =>
          pages.mapIdx (tdeReencryptBlock c (some data) fork')
      else st.rel rlocator' fork' segNo' := by
  unfold flushCurrentTdeRelKey
  rw [h]
  dsimp only
  rw [reencryptFork_rel, reencryptFork_rel]
  by_cases hv : fork' = .visibilityMap
  · subst hv
    simp only [reduceCtorEq, false_and, and_false, or_true, if_false, true_and]
  · by_cases hf : fork' = .fsm
    · subst hf
      simp only [reduceCtorEq, false_and, and_false, or_false, if_false, true_and]
    · simp only [hf, hv, false_and, and_false, or_false, if_false]

theorem mark_under (side : Option KeySide) :
    (t.mark fork segNo side).under fork' segNo' =
      if fork' = fork ∧ segNo' = segNo then side else t.under fork' segNo' :=
  update_update_apply t.under side

theorem RelTrail.flush_of_none (h : t.current = none) : t.flush = t := by
  unfold RelTrail.flush
  rw [h]

@[simp] theorem RelTrail.flush_current (t : RelTrail) : t.flush.current = none := by
  unfold RelTrail.flush
  split
  · next h => exact h
  · rfl

/-- The current file is one of the relation if its keys are. -/
theorem currentFileData_on {data : CurrentFileData}
    (h : pathRlocator data.path = some (data.rlocator, data.segNo)) :
    (data.rlocator = R → ∃ fork segNo, data.path = .rel R fork segNo ∧
      data.on R = some (fork, segNo) ∧ data.segNo = if fork = .main then segNo else 0) ∧
    (data.rlocator ≠ R → data.on R = none) := by
  unfold CurrentFileData.on
  cases hpath : data.path with
  | file path =>
      rw [hpath] at h
      cases h
  | rel rlocator fork segNo =>
      rw [hpath] at h
      obtain ⟨hr, hs⟩ := Prod.mk.inj (Option.some.inj h)
      refine ⟨fun heq => ⟨fork, segNo, ?_, ?_, hs.symm⟩, fun hne => ?_⟩
      · rw [hr, heq]
      · exact if_pos (hr.trans heq)
      · exact if_neg fun heq => hne (hr.symm.trans heq)

theorem RelTrail.flush_under (h : t.current = some (fork, segNo)) :
    t.flush.under fork' segNo' =
      if (fork' = .fsm ∨ fork' = .visibilityMap) ∧ segNo' = 0 then
        if t.under fork' segNo' = some t.side ∧ (fork = .main → segNo = 0) then some .target else none
      else t.under fork' segNo' := by
  have hmarks : t.flush.under fork' segNo' =
      ((t.mark .fsm 0 (if t.under .fsm 0 = some t.side ∧ (fork = .main → segNo = 0) then
          some .target else none)).mark .visibilityMap 0
        (if t.under .visibilityMap 0 = some t.side ∧ (fork = .main → segNo = 0) then
          some .target else none)).under fork' segNo' := by
    unfold RelTrail.flush
    rw [h]
  rw [hmarks, mark_under, mark_under]
  by_cases hv : fork' = .visibilityMap ∧ segNo' = 0
  · obtain ⟨rfl, rfl⟩ := hv
    simp only [and_self, or_true, if_true]
  · by_cases hf : fork' = .fsm ∧ segNo' = 0
    · obtain ⟨rfl, rfl⟩ := hf
      simp only [reduceCtorEq, false_and, if_false, and_self, or_false, if_true]
    · rw [if_neg hv, if_neg hf, if_neg]
      rintro ⟨hor, hseg⟩
      exact hor.elim (fun h => hf ⟨h, hseg⟩) fun h => hv ⟨h, hseg⟩

theorem RelTrail.flush_side (h : t.current = some (fork, segNo)) : t.flush.side = .target := by
  unfold RelTrail.flush
  rw [h]

end State

/-! ### Leaving a file, and turning to another one -/

section Keys

variable {R : RelFileLocator} {c : PageCipher} {ks kt : InternalKey}
  {P : ForkNumber → ℕ → ℕ → Page → Prop} {st st' : RewindState} {t : RelTrail}
  {plain : ForkNumber → ℕ → Option (List Page)}

/-- A fork of which the blocks are re-encrypted under their own numbers. -/
theorem readSegment_reencrypt {data : CurrentFileData} {fork : ForkNumber} {pages : List Page}
    (hseg : data.segNo = 0)
    (hP : ∀ i page, (readSegment c (some data.sourceKey) fork 0 pages)[i]? = some page →
      NoZeroPrefix c (some data.targetKey) fork (i + 0 * relSegSize) page) :
    readSegment c (some data.targetKey) fork 0
        (pages.mapIdx (tdeReencryptBlock c (some data) fork)) =
      readSegment c (some data.sourceKey) fork 0 pages := by
  apply List.ext_getElem?
  intro i
  have hpage := hP i
  rw [readSegment_getElem?] at hpage
  rw [readSegment_getElem?, readSegment_getElem?, List.getElem?_mapIdx]
  cases hi : pages[i]? with
  | none => rfl
  | some page =>
      rw [hi, Option.map_some] at hpage
      simp only [Option.map_some, tdeReencryptBlock, hseg]
      exact congrArg some (readPage_reencrypt (hpage _ rfl))

theorem TrailOk.flush
    (hP : ∀ fork segNo i page, P fork segNo i page →
      NoZeroPrefix c (some kt) fork (i + segNo * relSegSize) page)
    (h : TrailOk R c ks kt P st t plain) :
    TrailOk R c ks kt P (flushCurrentTdeRelKey c st) t.flush plain := by
  cases hcur : st.current with
  | none =>
      have hnone : t.current = none := by
        rw [h.current, hcur]
        rfl
      have hsame : flushCurrentTdeRelKey c st = st := by
        unfold flushCurrentTdeRelKey
        rw [hcur]
      rwa [hsame, RelTrail.flush_of_none hnone]
  | some data =>
      obtain ⟨hon, hoff⟩ := @currentFileData_on R data (h.path data hcur)
      have hkeys : (flushCurrentTdeRelKey c st).tmpSource.smgrKeys =
          Function.update st.tmpSource.smgrKeys data.rlocator (some data.targetKey) := by
        unfold flushCurrentTdeRelKey
        rw [hcur]
        dsimp only
        rw [reencryptFork_tmpSource, reencryptFork_tmpSource]
      have hcur' : (flushCurrentTdeRelKey c st).current = none := by
        unfold flushCurrentTdeRelKey
        rw [hcur]
      have hnone : ∀ data', (flushCurrentTdeRelKey c st).current ≠ some data' := by
        rw [hcur']
        exact fun _ h => (Option.some_ne_none _ h.symm).elim
      by_cases hr : data.rlocator = R
      · obtain ⟨fork, segNo, -, hone, hseg⟩ := hon hr
        obtain ⟨hsource, htarget⟩ := h.loaded data hcur hr
        have htc : t.current = some (fork, segNo) := by
          rw [h.current, hcur]
          exact hone
        have hrel : ∀ fork' segNo', (flushCurrentTdeRelKey c st).rel R fork' segNo' =
            if (fork' = .fsm ∨ fork' = .visibilityMap) ∧ segNo' = 0 then
              (st.rel R fork' segNo').map fun pages =>
                pages.mapIdx (tdeReencryptBlock c (some data) fork')
            else st.rel R fork' segNo' := by
          intro fork' segNo'
          rw [flushCurrentTdeRelKey_rel hcur]
          simp only [hr, true_and]
        refine ⟨?_, ?_, fun data' hd => absurd hd (hnone data'), fun data' hd => absurd hd (hnone data'),
          fun fork' segNo' => ?_, fun fork' segNo' side hside => ?_, h.pages⟩
        · rw [hkeys, hr, Function.update_self, htarget, RelTrail.flush_side htc]
          rfl
        · rw [RelTrail.flush_current, hcur']
          rfl
        · rw [h.length, hrel]
          split
          · rw [Option.map_map]
            refine congrArg (fun f => Option.map f _) ?_
            funext pages
            exact (List.length_mapIdx ..).symm
          · rfl
        · rw [RelTrail.flush_under htc] at hside
          rw [hrel]
          split at hside
          · next hfork =>
              obtain ⟨hfork, rfl⟩ := hfork
              rw [if_pos ⟨hfork, rfl⟩]
              split at hside
              · next hgood =>
                  obtain rfl := Option.some.inj hside
                  have hzero : data.segNo = 0 := by
                    rw [hseg]
                    split
                    · next hmain => exact hgood.2 hmain
                    · rfl
                  have hplain := h.under fork' 0 t.side hgood.1
                  cases hfile : st.rel R fork' 0 with
                  | none =>
                      rw [hfile] at hplain
                      exact hplain
                  | some pages =>
                      rw [hfile, Option.map_some, ← hsource] at hplain
                      have hread := @readSegment_reencrypt c data fork' pages hzero fun i page hpage =>
                        htarget.symm ▸ hP fork' 0 i page (h.pages fork' 0 _ i page hplain.symm hpage)
                      rw [htarget] at hread
                      rw [Option.map_some, Option.map_some, ← hplain]
                      exact congrArg some hread
              · cases hside
          · next hfork =>
              rw [if_neg hfork]
              exact h.under fork' segNo' side hside
      · have hnone' : t.current = none := by
          rw [h.current, hcur]
          exact hoff hr
        have hrel : ∀ fork' segNo',
            (flushCurrentTdeRelKey c st).rel R fork' segNo' = st.rel R fork' segNo' := by
          intro fork' segNo'
          rw [flushCurrentTdeRelKey_rel hcur, if_neg fun h => hr h.1.symm]
        rw [RelTrail.flush_of_none hnone']
        refine ⟨?_, ?_, fun data' hd => absurd hd (hnone data'), fun data' hd => absurd hd (hnone data'),
          fun fork' segNo' => ?_, fun fork' segNo' side hside => ?_, h.pages⟩
        · rw [hkeys, Function.update_of_ne (Ne.symm hr), h.key]
        · rw [hnone', hcur']
          rfl
        · rw [hrel, h.length]
        · rw [hrel]
          exact h.under fork' segNo' side hside

/-- A relation that is encrypted on both sides, when its keys are made sure of. -/
theorem TrailOk.ensureKeys {env : RewindEnv} {path : RewindPath}
    (hP : ∀ fork segNo i page, P fork segNo i page →
      NoZeroPrefix env.c (some kt) fork (i + segNo * relSegSize) page)
    (htde : env.sourceHasTde = true) (ht : env.targetTde.smgrKeys R = some kt)
    (h : TrailOk R env.c ks kt P st t plain) (hrun : ensureTdeKeys env path st = some st') :
    TrailOk R env.c ks kt P st' (t.ensureKeys R path) plain := by
  have hflush := h.flush hP
  have hflushed : (flushCurrentTdeRelKey env.c st).current = none := by
    unfold flushCurrentTdeRelKey
    split
    · next hnone => exact hnone
    · rfl
  unfold ensureTdeKeys at hrun
  rw [if_neg (by rw [htde]; exact Bool.false_ne_true.symm)] at hrun
  split at hrun
  · next hsame =>
      cases hrun
      obtain ⟨data, hcur, rfl⟩ := Option.map_eq_some_iff.1 hsame
      have htc : t.current = data.on R := by
        rw [h.current, hcur]
        rfl
      cases hpath : data.path with
      | file path =>
          have hrel := h.path data hcur
          rw [hpath] at hrel
          cases hrel
      | rel rlocator fork segNo =>
          unfold CurrentFileData.on at htc
          rw [hpath] at htc
          dsimp only at htc
          unfold RelTrail.ensureKeys
          dsimp only
          split
          · next hr =>
              rw [if_pos hr] at htc
              rw [if_pos htc]
              exact h
          · next hr =>
              rw [if_neg hr] at htc
              rwa [RelTrail.flush_of_none htc]
  · next hother =>
      dsimp only at hrun
      cases path with
      | file path =>
          cases hrun
          exact hflush
      | rel rlocator fork segNo =>
          dsimp only [pathRlocator] at hrun
          unfold RelTrail.ensureKeys
          dsimp only
          split
          · next hr =>
              subst hr
              have hne : t.current ≠ some (fork, segNo) := by
                intro htc
                rw [h.current] at htc
                obtain ⟨data, hcur, hon⟩ := Option.bind_eq_some_iff.1 htc
                apply hother
                rw [hcur, Option.map_some]
                unfold CurrentFileData.on at hon
                split at hon
                · cases hon
                · next hpath =>
                    split at hon
                    · next hr =>
                        cases hon
                        rw [hpath, hr]
                    · cases hon
              rw [hflush.key, ht] at hrun
              cases hrun
              rw [if_neg hne]
              refine ⟨hflush.key, ?_, ?_, ?_, hflush.length, hflush.under, hflush.pages⟩
              · exact (if_pos rfl).symm
              · intro data hdata
                cases hdata
                rfl
              · intro data hdata _
                cases hdata
                exact ⟨rfl, rfl⟩
          · next hr =>
              split at hrun
              · cases hrun
                exact hflush
              · cases hrun
              · cases hrun
                refine ⟨hflush.key, ?_, ?_, ?_, hflush.length, hflush.under, hflush.pages⟩
                · rw [RelTrail.flush_current]
                  exact (if_neg hr).symm
                · intro data hdata
                  cases hdata
                  rfl
                · intro data hdata hdr
                  cases hdata
                  exact absurd hdr hr

end Keys

/-! ### Steps -/

section Steps

variable {R : RelFileLocator} {c : PageCipher} {ks kt : InternalKey}
  {P : ForkNumber → ℕ → ℕ → Page → Prop} {st st' : RewindState} {t : RelTrail}
  {plain : ForkNumber → ℕ → Option (List Page)} {fork : ForkNumber} {segNo : ℕ}

/-- A file of the relation is replaced, and so is the one that is not encrypted. -/
theorem TrailOk.putRel (h : TrailOk R c ks kt P st t plain) {file plainFile : Option (List Page)}
    {side : Option KeySide} (hlength : plainFile.map List.length = file.map List.length)
    (hunder : ∀ side', side = some side' →
      file.map (readSegment c (some (side'.key ks kt)) fork segNo) = plainFile)
    (hpages : ∀ pages i page, plainFile = some pages → pages[i]? = some page → P fork segNo i page) :
    TrailOk R c ks kt P (st.putRel R fork segNo file) (t.mark fork segNo side)
      (Function.update plain fork (Function.update (plain fork) segNo plainFile)) := by
  have hplain : ∀ fork' segNo',
      Function.update plain fork (Function.update (plain fork) segNo plainFile) fork' segNo' =
        if fork' = fork ∧ segNo' = segNo then plainFile else plain fork' segNo' := by
    intro fork' segNo'
    exact update_update_apply plain plainFile
  refine ⟨h.key, h.current, h.path, h.loaded, fun fork' segNo' => ?_, fun fork' segNo' side' hside => ?_,
    fun fork' segNo' pages i page hfile hpage => ?_⟩
  · rw [hplain, putRel_rel]
    by_cases hself : fork' = fork ∧ segNo' = segNo
    · rw [if_pos hself, if_pos ⟨rfl, hself⟩, hlength]
    · rw [if_neg hself, if_neg fun h => hself h.2, h.length]
  · rw [mark_under] at hside
    rw [hplain, putRel_rel]
    by_cases hself : fork' = fork ∧ segNo' = segNo
    · rw [if_pos hself] at hside
      rw [if_pos hself, if_pos ⟨rfl, hself⟩, hself.1, hself.2]
      exact hunder side' hside
    · rw [if_neg hself] at hside
      rw [if_neg hself, if_neg fun h => hself h.2]
      exact h.under fork' segNo' side' hside
  · rw [hplain] at hfile
    split at hfile
    · next hself =>
        rw [hself.1, hself.2]
        exact hpages pages i page hfile hpage
    · exact h.pages fork' segNo' pages i page hfile hpage

theorem mark_self (t : RelTrail) : t.mark fork segNo (t.under fork segNo) = t := by
  unfold RelTrail.mark
  rw [Function.update_eq_self, Function.update_eq_self]

/-- Other files do not matter. -/
theorem TrailOk.of_same (h : TrailOk R c ks kt P st t plain) (hrel : st'.rel R = st.rel R)
    (htmp : st'.tmpSource = st.tmpSource) (hcur : st'.current = st.current) :
    TrailOk R c ks kt P st' t plain := by
  refine ⟨?_, ?_, ?_, ?_, ?_, ?_, h.pages⟩
  · rw [htmp]
    exact h.key
  · rw [hcur]
    exact h.current
  · rw [hcur]
    exact h.path
  · rw [hcur]
    exact h.loaded
  · rw [hrel]
    exact h.length
  · rw [hrel]
    exact h.under

theorem putRel_rel_of_ne {rlocator : RelFileLocator} (st : RewindState) (file : Option (List Page))
    (h : rlocator ≠ R) : (st.putRel rlocator fork segNo file).rel R = st.rel R :=
  Function.update_of_ne (Ne.symm h) ..

/-- The pages behind a write: what was written, what was there, and empty ones. -/
theorem getElem?_writeTargetRange {file : Option (List Page)} {begin_ : ℕ} {data pages : List Page}
    (h : writeTargetRange 0 file begin_ data = some pages) {i : ℕ} {page : Page}
    (hpage : pages[i]? = some page) :
    (begin_ ≤ i ∧ data[i - begin_]? = some page) ∨
      (∃ old, file = some old ∧ old[i]? = some page) ∨ page = 0 := by
  have hold : ∀ {n : ℕ}, (file.getD [] ++ List.replicate n 0)[i]? = some page →
      (∃ old, file = some old ∧ old[i]? = some page) ∨ page = 0 := by
    intro n hi
    rw [List.getElem?_append] at hi
    split at hi
    · cases file with
      | none => cases hi
      | some old => exact .inl ⟨old, rfl, hi⟩
    · exact .inr (List.eq_of_mem_replicate (List.mem_of_getElem? hi))
  unfold writeTargetRange at h
  obtain rfl := Option.some.inj h
  split at hpage
  · refine .inr (@hold 0 ?_)
    rwa [List.replicate_zero, List.append_nil]
  · have hlen : begin_ ≤ (file.getD [] ++
        List.replicate (begin_ - (file.getD []).length) (0 : Page)).length := by
      rw [List.length_append, List.length_replicate]
      omega
    rw [getElem?_overwrite hlen] at hpage
    split at hpage
    · next hin => exact .inl ⟨hin.1, hpage⟩
    · exact .inr (hold hpage)

theorem length_writeTargetRange {file file' : Option (List Page)} {begin_ : ℕ} {data data' : List Page}
    (hfile : file'.map List.length = file.map List.length) (hdata : data'.length = data.length) :
    (writeTargetRange 0 file' begin_ data').map List.length =
      (writeTargetRange 0 file begin_ data).map List.length := by
  have hold : (file'.getD []).length = (file.getD []).length := by
    have hlen := congrArg (fun n => n.getD 0) hfile
    cases file with
    | none =>
        cases file' with
        | none => rfl
        | some _ => cases hfile
    | some _ =>
        cases file' with
        | none => cases hfile
        | some _ => exact hlen
  have hlen : ∀ {l : List Page}, begin_ ≤ (l ++ List.replicate (begin_ - l.length) (0 : Page)).length := by
    intro l
    rw [List.length_append, List.length_replicate]
    omega
  unfold writeTargetRange
  rw [Option.map_some, Option.map_some]
  refine congrArg some ?_
  by_cases hnil : data = []
  · have hnil' : data' = [] := by
      rwa [← List.length_eq_zero_iff, hdata, List.length_eq_zero_iff]
    rw [if_pos hnil, if_pos hnil', hold]
  · have hnil' : data' ≠ [] := by
      rwa [Ne, ← List.length_eq_zero_iff, hdata, List.length_eq_zero_iff]
    rw [if_neg hnil, if_neg hnil', length_overwrite hlen, length_overwrite hlen, List.length_append,
      List.length_append, List.length_replicate, List.length_replicate, hold, hdata]

/-- What a step does to the files that are not encrypted. -/
def PlainMoves (R : RelFileLocator) (libpq : Bool) (src : ForkNumber → ℕ → Option (List Page))
    (step : RewindStep) (plain plain' : ForkNumber → ℕ → Option (List Page)) : Prop :=
  ∀ fork segNo,
    (step.path = .rel R fork segNo →
      relStep libpq (src fork segNo) (plain fork segNo) step = some (plain' fork segNo)) ∧
    (step.path ≠ .rel R fork segNo → plain' fork segNo = plain fork segNo)

theorem PlainMoves.other {libpq : Bool} {src : ForkNumber → ℕ → Option (List Page)} {step : RewindStep}
    (h : ∀ fork segNo, step.path ≠ .rel R fork segNo) : PlainMoves R libpq src step plain plain :=
  fun fork segNo => ⟨fun hpath => absurd hpath (h fork segNo), fun _ => rfl⟩

theorem PlainMoves.update {libpq : Bool} {src : ForkNumber → ℕ → Option (List Page)}
    {step : RewindStep} {file : Option (List Page)} (hpath : step.path = .rel R fork segNo)
    (hstep : relStep libpq (src fork segNo) (plain fork segNo) step = some file) :
    PlainMoves R libpq src step plain
      (Function.update plain fork (Function.update (plain fork) segNo file)) := by
  intro fork' segNo'
  rw [update_update_apply]
  refine ⟨fun hpath' => ?_, fun hne => ?_⟩
  · rw [hpath] at hpath'
    cases hpath'
    rw [if_pos ⟨rfl, rfl⟩]
    exact hstep
  · rw [if_neg]
    rintro ⟨rfl, rfl⟩
    exact hne hpath

/-- What may be in the files of the relation can be encrypted with the key of the target. -/
structure Encryptable (env : RewindEnv) (R : RelFileLocator) (ks kt : InternalKey)
    (P : ForkNumber → ℕ → ℕ → Page → Prop) : Prop where
  zero : ∀ fork segNo i, P fork segNo i 0
  source : ∀ fork segNo src i page, env.sourceRel R fork segNo = some src →
    (readSegment env.c (some ks) fork segNo src)[i]? = some page → P fork segNo i page
  stored : ∀ fork segNo i page, P fork segNo i page →
    NoZeroPrefix env.c (some kt) fork (i + segNo * relSegSize) page

/-- The files of the source, as they are read there. -/
def sourcePlain (env : RewindEnv) (R : RelFileLocator) (ks : InternalKey) (fork : ForkNumber)
    (segNo : ℕ) : Option (List Page) :=
  (env.sourceRel R fork segNo).map (readSegment env.c (some ks) fork segNo)

/-- Data that are written as they are, or after they were re-encrypted. -/
theorem TrailOk.write {env : RewindEnv} (he : Encryptable env R ks kt P)
    (h : TrailOk R env.c ks kt P st t plain) {src data : List Page} {begin_ n : ℕ} {side : Option KeySide}
    (hsrc : env.sourceRel R fork segNo = some src) (hdata : data.length = (slice src begin_ n).length)
    (hunder : ∀ side', side = some side' → t.under fork segNo = some side' ∧
      (data.mapIdx fun i page => readPage env.c (some (side'.key ks kt)) fork
          (begin_ + i + segNo * relSegSize) page) =
        slice (readSegment env.c (some ks) fork segNo src) begin_ n) :
    TrailOk R env.c ks kt P
      (st.putRel R fork segNo (writeTargetRange 0 (st.rel R fork segNo) begin_ data))
      (t.mark fork segNo side)
      (Function.update plain fork (Function.update (plain fork) segNo
        (writeTargetRange 0 (plain fork segNo) begin_
          (slice (readSegment env.c (some ks) fork segNo src) begin_ n)))) := by
  refine h.putRel ?_ (fun side' hside => ?_) fun pages i page hpages hpage => ?_
  · refine length_writeTargetRange (h.length fork segNo) ?_
    rw [hdata, length_slice, length_slice, length_readSegment]
  · obtain ⟨hold, hread⟩ := hunder side' hside
    rw [readSegment_writeTargetRange, hread, h.under fork segNo side' hold]
  · obtain ⟨hbegin, hin⟩ | ⟨old, hold, hin⟩ | rfl := getElem?_writeTargetRange hpages hpage
    · rw [getElem?_slice] at hin
      split at hin
      · rw [Nat.add_sub_cancel' hbegin] at hin
        exact he.source fork segNo src i page hsrc hin
      · cases hin
    · exact h.pages fork segNo old i page hold hin
    · exact he.zero fork segNo i

theorem fetchData_some {α : Type} {libpq : Bool} {rq : FetchRangeRequest} {unit : ℕ}
    {src : Option (List α)} {data : List α} (h : fetchData libpq rq unit src = some (some data)) :
    ∃ file, src = some file ∧ data = slice file (rq.offset / unit) (rq.length / unit) := by
  unfold fetchData at h
  split at h
  · split at h
    · cases h
    · cases h
  · next file =>
      dsimp only at h
      rw [Option.ite_none_left_eq_some] at h
      exact ⟨file, rfl, (Option.some.inj (Option.some.inj h.2)).symm⟩

theorem fetchData_none {α : Type} {libpq : Bool} {rq : FetchRangeRequest} {unit : ℕ}
    {src : Option (List α)} (h : fetchData libpq rq unit src = some none) : src = none := by
  unfold fetchData at h
  split at h
  · rfl
  · dsimp only at h
    rw [Option.ite_none_left_eq_some] at h
    cases h.2

theorem RelTrail.ensureKeys_current (t : RelTrail) (fork : ForkNumber) (segNo : ℕ) :
    (t.ensureKeys R (.rel R fork segNo)).current = some (fork, segNo) := by
  unfold RelTrail.ensureKeys
  dsimp only
  rw [if_pos rfl]
  split
  · next h => exact h
  · rfl

/-- The keys that are loaded when the current file is a file of the relation. -/
theorem TrailOk.loaded_on (h : TrailOk R c ks kt P st t plain) (hcur : t.current = some (fork, segNo)) :
    ∃ data, st.current = some data ∧ data.sourceKey = t.side.key ks kt ∧ data.targetKey = kt ∧
      data.segNo = if fork = .main then segNo else 0 := by
  rw [h.current] at hcur
  obtain ⟨data, hdata, hon⟩ := Option.bind_eq_some_iff.1 hcur
  obtain ⟨hself, hother⟩ := @currentFileData_on R data (h.path data hdata)
  by_cases hr : data.rlocator = R
  · obtain ⟨fork', segNo', -, hon', hseg⟩ := hself hr
    cases hon.symm.trans hon'
    obtain ⟨hsource, htarget⟩ := h.loaded data hdata hr
    exact ⟨data, hdata, hsource, htarget, hseg⟩
  · rw [hother hr] at hon
    cases hon

section Chunk

variable {env : RewindEnv} {rq : FetchRangeRequest}

theorem TrailOk.ensureChunkKeys (he : Encryptable env R ks kt P) (htde : env.sourceHasTde = true)
    (ht : env.targetTde.smgrKeys R = some kt) (h : TrailOk R env.c ks kt P st t plain)
    (hrun : ensureChunkKeys env rq st = some st') :
    TrailOk R env.c ks kt P st' (if rq.encrypt then t.ensureKeys R rq.path else t) plain := by
  unfold OpenPgTde.ensureChunkKeys at hrun
  split at hrun
  · next hencrypt =>
      rw [if_pos hencrypt]
      exact h.ensureKeys he.stored htde ht hrun
  · next hencrypt =>
      cases hrun
      rwa [if_neg hencrypt]

/-- A chunk of the relation itself. -/
theorem TrailOk.writeChunk (he : Encryptable env R ks kt P) {src : List Page}
    (h : TrailOk R env.c ks kt P st t plain) (hsrc : env.sourceRel R fork segNo = some src)
    (hcur : rq.encrypt = true → t.current = some (fork, segNo)) :
    let begin_ := rq.offset / blckSz
    let data := slice src begin_ (rq.length / blckSz)
    TrailOk R env.c ks kt P
      (st.putRel R fork segNo (writeTargetRange 0 (st.rel R fork segNo) begin_
        (if rq.encrypt then
          data.mapIdx fun i page => tdeReencryptBlock env.c st.current .main (begin_ + i) page
        else data)))
      (t.mark fork segNo (t.written fork segNo rq.encrypt))
      (Function.update plain fork (Function.update (plain fork) segNo
        (writeTargetRange 0 (plain fork segNo) begin_
          (slice (readSegment env.c (some ks) fork segNo src) begin_ (rq.length / blckSz))))) := by
  intro begin_ data
  have hread : slice (readSegment env.c (some ks) fork segNo src) begin_ (rq.length / blckSz) =
      data.mapIdx fun i page =>
        readPage env.c (some ks) fork (begin_ + i + segNo * relSegSize) page := mapIdx_slice ..
  cases hencrypt : rq.encrypt with
  | false =>
      rw [if_neg Bool.false_ne_true]
      refine h.write he hsrc rfl fun side' hside => ?_
      unfold RelTrail.written at hside
      rw [if_neg Bool.false_ne_true] at hside
      split at hside
      · next hunder =>
          cases hside
          exact ⟨hunder, hread.symm⟩
      · cases hside
  | true =>
      rw [if_pos rfl]
      refine h.write he hsrc (List.length_mapIdx ..) fun side' hside => ?_
      unfold RelTrail.written at hside
      rw [if_pos rfl] at hside
      split at hside
      · next hgood =>
          obtain ⟨rfl, hside', hunder⟩ := hgood
          cases hside
          refine ⟨hunder, ?_⟩
          obtain ⟨current, hcurrent, hsource, htarget, hseg⟩ := h.loaded_on (hcur hencrypt)
          rw [hside'] at hsource
          rw [hread, List.mapIdx_mapIdx]
          apply List.ext_getElem?
          intro i
          rw [List.getElem?_mapIdx, List.getElem?_mapIdx]
          cases hi : data[i]? with
          | none => rfl
          | some page =>
              have hin : (readSegment env.c (some ks) .main segNo src)[begin_ + i]? =
                  some (readPage env.c (some ks) .main (begin_ + i + segNo * relSegSize) page) := by
                rw [getElem?_slice] at hi
                split at hi
                · rw [readSegment_getElem?, hi]
                  rfl
                · cases hi
              have hpage := he.stored .main segNo (begin_ + i) _
                (he.source .main segNo src (begin_ + i) _ hsrc hin)
              rw [if_pos rfl] at hseg
              simp only [Option.map_some, Function.comp_apply, hcurrent, tdeReencryptBlock, hseg, htarget,
                hsource]
              exact congrArg some (readPage_reencrypt hpage)
      · cases hside

theorem TrailOk.fetchChunk (he : Encryptable env R ks kt P) (htde : env.sourceHasTde = true)
    (ht : env.targetTde.smgrKeys R = some kt) (h : TrailOk R env.c ks kt P st t plain)
    (hrun : fetchChunk env rq st = some st') :
    ∃ plain', TrailOk R env.c ks kt P st' (t.chunk R env rq) plain' ∧
      PlainMoves R env.libpq (sourcePlain env R ks) (.chunk rq) plain plain' := by
  unfold OpenPgTde.fetchChunk at hrun
  unfold RelTrail.chunk
  split at hrun
  · next path hpath =>
      have hother : PlainMoves R env.libpq (sourcePlain env R ks) (.chunk rq) plain plain := by
        refine .other fun fork segNo hrel => ?_
        cases hpath.symm.trans hrel
      obtain ⟨fetched, hdata, hrun⟩ := Option.bind_eq_some_iff.1 hrun
      cases fetched with
      | none =>
          cases hrun
          have hno : env.hasSource rq.path = false := by
            rw [hpath, RewindEnv.hasSource, fetchData_none hdata]
            rfl
          rw [if_neg (by rw [hno]; exact Bool.false_ne_true)]
          exact ⟨plain, h.of_same rfl rfl rfl, hother⟩
      | some data =>
          obtain ⟨st₁, hkeys, hrun⟩ := Option.bind_eq_some_iff.1 hrun
          cases hrun
          obtain ⟨src, hsrc, -⟩ := fetchData_some hdata
          have hyes : env.hasSource rq.path = true := by
            rw [hpath, RewindEnv.hasSource, hsrc]
            rfl
          have h₁ := h.ensureChunkKeys he htde ht hkeys
          rw [hpath] at h₁ hyes ⊢
          rw [if_pos hyes]
          exact ⟨plain, h₁.of_same rfl rfl rfl, hother⟩
  · next rlocator fork segNo hpath =>
      obtain ⟨fetched, hdata, hrun⟩ := Option.bind_eq_some_iff.1 hrun
      have hother : rlocator ≠ R →
          PlainMoves R env.libpq (sourcePlain env R ks) (.chunk rq) plain plain := by
        refine fun hr => .other fun fork' segNo' hrel => hr ?_
        cases hpath.symm.trans hrel
        rfl
      cases fetched with
      | none =>
          cases hrun
          have hnone := fetchData_none hdata
          have hno : env.hasSource rq.path = false := by
            rw [hpath, RewindEnv.hasSource, hnone]
            rfl
          rw [if_neg (by rw [hno]; exact Bool.false_ne_true)]
          by_cases hr : rlocator = R
          · subst hr
            have hput := @TrailOk.putRel rlocator env.c ks kt P st t plain fork segNo h none none
              (t.under fork segNo) rfl (fun _ _ => rfl) fun pages i page hpages =>
                absurd hpages (Option.some_ne_none _).symm
            rw [mark_self] at hput
            refine ⟨_, hput, .update hpath ?_⟩
            rw [hnone] at hdata
            simp only [relStep, sourcePlain, hnone, Option.map_none, hdata, Option.map_some,
              Option.bind_none]
          · exact ⟨plain, h.of_same (putRel_rel_of_ne st none hr) rfl rfl, hother hr⟩
      | some data =>
          obtain ⟨st₁, hkeys, hrun⟩ := Option.bind_eq_some_iff.1 hrun
          cases hrun
          obtain ⟨src, hsrc, rfl⟩ := fetchData_some hdata
          have hyes : env.hasSource rq.path = true := by
            rw [hpath, RewindEnv.hasSource, hsrc]
            rfl
          have h₁ := h.ensureChunkKeys he htde ht hkeys
          rw [if_pos hyes]
          rw [hpath] at h₁ ⊢
          by_cases hr : rlocator = R
          · subst hr
            have hview := @readSegment_fetchData env.c (some ks) fork segNo env.libpq rq (some src)
            rw [← hsrc, hdata] at hview
            have hslice : slice (readSegment env.c (some ks) fork segNo src) (rq.offset / blckSz)
                (rq.length / blckSz) = _ := mapIdx_slice ..
            have hstep : relStep env.libpq (sourcePlain env rlocator ks fork segNo) (plain fork segNo)
                (.chunk rq) = some (writeTargetRange 0 (plain fork segNo) (rq.offset / blckSz)
                  (slice (readSegment env.c (some ks) fork segNo src) (rq.offset / blckSz)
                    (rq.length / blckSz))) := by
              simp only [relStep, sourcePlain, hview, hslice, Option.map_some, Option.bind_some]
            have hput := h₁.writeChunk he hsrc fun hencrypt => by
              rw [if_pos hencrypt]
              exact t.ensureKeys_current fork segNo
            refine ⟨_, ?_, .update hpath hstep⟩
            simp only [RelTrail.markPath, if_true]
            exact hput
          · simp only [RelTrail.markPath, hr, if_false]
            exact ⟨plain, h₁.of_same (putRel_rel_of_ne st₁ _ hr) rfl rfl, hother hr⟩

end Chunk

/-- A file of the relation is replaced by what it would be replaced by if it were not encrypted. -/
theorem TrailOk.changeRel {env : RewindEnv} {step : RewindStep} {side : Option KeySide}
    {file plainFile : Option (List Page)} (h : TrailOk R env.c ks kt P st t plain)
    (hpath : step.path = .rel R fork segNo)
    (hstep : relStep env.libpq (sourcePlain env R ks fork segNo) (plain fork segNo) step =
      some plainFile)
    (hlength : plainFile.map List.length = file.map List.length)
    (hunder : ∀ side', side = some side' →
      file.map (readSegment env.c (some (side'.key ks kt)) fork segNo) = plainFile)
    (hpages : ∀ pages i page, plainFile = some pages → pages[i]? = some page → P fork segNo i page) :
    ∃ plain', TrailOk R env.c ks kt P (st.putRel R fork segNo file) (t.mark fork segNo side) plain' ∧
      PlainMoves R env.libpq (sourcePlain env R ks) step plain plain' :=
  ⟨_, h.putRel hlength hunder hpages, .update hpath hstep⟩

/-- A file of the relation is there if it is there without encryption. -/
theorem TrailOk.plain_some (h : TrailOk R c ks kt P st t plain) {pages : List Page}
    (hfile : st.rel R fork segNo = some pages) :
    ∃ pages', plain fork segNo = some pages' ∧ pages'.length = pages.length := by
  have hlen := h.length fork segNo
  rw [hfile] at hlen
  exact Option.map_eq_some_iff.1 hlen

theorem TrailOk.truncate {env : RewindEnv} (he : Encryptable env R ks kt P)
    (h : TrailOk R env.c ks kt P st t plain) {newsize : ℕ} {file : Option (List Page)}
    (hrun : truncateTargetFile 0 (newsize / blckSz) (st.rel R fork segNo) = some file) :
    ∃ plain', TrailOk R env.c ks kt P (st.putRel R fork segNo file) t plain' ∧
      PlainMoves R env.libpq (sourcePlain env R ks) (.truncate (.rel R fork segNo) newsize) plain
        plain' := by
  cases hfile : st.rel R fork segNo with
  | none =>
      rw [hfile] at hrun
      cases hrun
  | some pages =>
      obtain ⟨pages', hplain, hlen⟩ := h.plain_some hfile
      rw [hfile] at hrun
      cases hrun
      have hstep : relStep env.libpq (sourcePlain env R ks fork segNo) (plain fork segNo)
          (.truncate (.rel R fork segNo) newsize) =
            some (some (pages'.take (newsize / blckSz) ++
              List.replicate (newsize / blckSz - pages'.length) 0)) := by
        rw [hplain]
        rfl
      have hmoves := @TrailOk.changeRel R ks kt P st t plain fork segNo env
        (.truncate (.rel R fork segNo) newsize) (t.under fork segNo)
        (some (pages.take (newsize / blckSz) ++ List.replicate (newsize / blckSz - pages.length) 0))
        _ h rfl hstep ?_ (fun side hside => ?_) fun pages'' i page hpages hpage => ?_
      · rwa [mark_self] at hmoves
      · simp only [Option.map_some, List.length_append, List.length_take, List.length_replicate, hlen]
      · have hread := h.under fork segNo side hside
        have htrunc := @readSegment_truncateTargetFile env.c (some (side.key ks kt)) fork segNo
          (some pages) (newsize / blckSz)
        rw [hfile, hplain] at hread
        rw [hread] at htrunc
        exact (Option.some.inj htrunc).symm
      · cases hpages
        rw [List.getElem?_append] at hpage
        split at hpage
        · rw [List.getElem?_take] at hpage
          split at hpage
          · exact h.pages fork segNo pages' i page hplain hpage
          · cases hpage
        · rw [List.eq_of_mem_replicate (List.mem_of_getElem? hpage)]
          exact he.zero fork segNo i

theorem TrailOk.remove {env : RewindEnv} (h : TrailOk R env.c ks kt P st t plain)
    {file : Option (List Page)} (hrun : removeTargetFile (st.rel R fork segNo) = some file) :
    ∃ plain', TrailOk R env.c ks kt P (st.putRel R fork segNo file) t plain' ∧
      PlainMoves R env.libpq (sourcePlain env R ks) (.remove (.rel R fork segNo)) plain plain' := by
  cases hfile : st.rel R fork segNo with
  | none =>
      rw [hfile] at hrun
      cases hrun
  | some pages =>
      obtain ⟨pages', hplain, -⟩ := h.plain_some hfile
      rw [hfile] at hrun
      cases hrun
      have hstep : relStep env.libpq (sourcePlain env R ks fork segNo) (plain fork segNo)
          (.remove (.rel R fork segNo)) = some none := by
        rw [hplain]
        rfl
      have hmoves := @TrailOk.changeRel R ks kt P st t plain fork segNo env
        (.remove (.rel R fork segNo)) (t.under fork segNo) none none h rfl hstep rfl (fun _ _ => rfl)
        fun pages'' i page hpages => absurd hpages (Option.some_ne_none _).symm
      rwa [mark_self] at hmoves

/-- A step that only changes one file, of another relation or of none. -/
theorem TrailOk.changeOther {env : RewindEnv} {path : RewindPath} {onFile onRel} {step : RewindStep}
    (h : TrailOk R env.c ks kt P st t plain) (hpath : step.path = path)
    (hother : ∀ fork segNo, path ≠ .rel R fork segNo)
    (hrun : st.change path onFile onRel = some st') :
    ∃ plain', TrailOk R env.c ks kt P st' t plain' ∧
      PlainMoves R env.libpq (sourcePlain env R ks) step plain plain' := by
  have hmoves : PlainMoves R env.libpq (sourcePlain env R ks) step plain plain := by
    refine .other fun fork segNo hrel => hother fork segNo (hpath.symm.trans hrel)
  cases path with
  | file path =>
      obtain ⟨f, -, rfl⟩ := Option.map_eq_some_iff.1 hrun
      exact ⟨plain, h.of_same rfl rfl rfl, hmoves⟩
  | rel rlocator fork segNo =>
      obtain ⟨f, -, rfl⟩ := Option.map_eq_some_iff.1 hrun
      have hr : rlocator ≠ R := fun heq => hother fork segNo (by rw [heq])
      exact ⟨plain, h.of_same (putRel_rel_of_ne st f hr) rfl rfl, hmoves⟩

/-- A path is a file of the relation, or not. -/
theorem relPath_cases (R : RelFileLocator) (path : RewindPath) :
    (∃ fork segNo, path = .rel R fork segNo) ∨
      (∀ fork segNo, path ≠ .rel R fork segNo) ∧
        ∀ (t : RelTrail) side, t.markPath R side path = t := by
  cases path with
  | file path => exact .inr ⟨fun _ _ h => (by cases h), fun _ _ => rfl⟩
  | rel rlocator fork segNo =>
      by_cases hr : rlocator = R
      · exact .inl ⟨fork, segNo, by rw [hr]⟩
      · refine .inr ⟨fun _ _ h => hr ?_, fun t side => ?_⟩
        · cases h
          rfl
        · exact if_neg hr

theorem performStep_trail {env : RewindEnv} {step : RewindStep} (he : Encryptable env R ks kt P)
    (htde : env.sourceHasTde = true) (ht : env.targetTde.smgrKeys R = some kt)
    (h : TrailOk R env.c ks kt P st t plain) (hrun : performStep env st step = some st') :
    ∃ plain', TrailOk R env.c ks kt P st' (t.step R env step) plain' ∧
      PlainMoves R env.libpq (sourcePlain env R ks) step plain plain' := by
  cases step with
  | openTarget path =>
      rw [performStep] at hrun
      obtain ⟨fork, segNo, rfl⟩ | ⟨hother, hmark⟩ := relPath_cases R path
      · rw [RewindState.change] at hrun
        cases hrun
        have hmoves := @TrailOk.changeRel R ks kt P st t plain fork segNo env
          (.openTarget (.rel R fork segNo)) (some .source) (some []) (some []) h rfl rfl rfl
          (fun _ _ => rfl) fun pages i page hpages hpage => by
            cases hpages
            cases hpage
        rw [RelTrail.step, RelTrail.markPath, if_pos rfl]
        exact hmoves
      · rw [RelTrail.step, hmark]
        exact h.changeOther rfl hother hrun
  | chunk rq => exact h.fetchChunk he htde ht hrun
  | ensureTdeKeys path =>
      refine ⟨plain, h.ensureKeys he.stored htde ht hrun, fun fork segNo => ⟨fun _ => rfl, fun _ => rfl⟩⟩
  | ensureWalSeg path =>
      cases path with
      | file path =>
          rw [performStep] at hrun
          exact h.changeOther rfl (fun _ _ h => by cases h) hrun
      | rel => cases hrun
  | truncate path newsize =>
      rw [performStep] at hrun
      obtain ⟨fork, segNo, rfl⟩ | ⟨hother, -⟩ := relPath_cases R path
      · rw [RewindState.change] at hrun
        obtain ⟨f, hf, rfl⟩ := Option.map_eq_some_iff.1 hrun
        exact h.truncate he hf
      · exact h.changeOther rfl hother hrun
  | remove path =>
      rw [performStep] at hrun
      obtain ⟨fork, segNo, rfl⟩ | ⟨hother, -⟩ := relPath_cases R path
      · rw [RewindState.change] at hrun
        obtain ⟨f, hf, rfl⟩ := Option.map_eq_some_iff.1 hrun
        exact h.remove hf
      · exact h.changeOther rfl hother hrun

/-- The steps on a file make of it what they would make of it without encryption. -/
theorem performSteps_trail {env : RewindEnv} {steps : List RewindStep} (he : Encryptable env R ks kt P)
    (htde : env.sourceHasTde = true) (ht : env.targetTde.smgrKeys R = some kt)
    (h : TrailOk R env.c ks kt P st t plain) (hrun : steps.foldlM (performStep env) st = some st') :
    ∃ plain', TrailOk R env.c ks kt P st' (steps.foldl (RelTrail.step R env) t) plain' ∧
      ∀ fork segNo, (onPath (.rel R fork segNo) steps).foldlM
        (relStep env.libpq (sourcePlain env R ks fork segNo)) (plain fork segNo) =
          some (plain' fork segNo) := by
  induction steps generalizing st t plain with
  | nil =>
      cases hrun
      exact ⟨plain, h, fun _ _ => rfl⟩
  | cons step steps ih =>
      rw [List.foldlM_cons] at hrun
      obtain ⟨st₁, hstep, hrun⟩ := Option.bind_eq_some_iff.1 hrun
      obtain ⟨plain₁, h₁, hmoves⟩ := performStep_trail he htde ht h hstep
      obtain ⟨plain', h', hrest⟩ := ih h₁ hrun
      refine ⟨plain', h', fun fork segNo => ?_⟩
      by_cases hpath : step.path = .rel R fork segNo
      · have hon : onPath (.rel R fork segNo) (step :: steps) =
            step :: onPath (.rel R fork segNo) steps := List.filter_cons_of_pos (by simpa using hpath)
        rw [hon, List.foldlM_cons, (hmoves fork segNo).1 hpath]
        exact hrest fork segNo
      · have hon : onPath (.rel R fork segNo) (step :: steps) = onPath (.rel R fork segNo) steps :=
          List.filter_cons_of_neg (by simpa using hpath)
        rw [hon, ← (hmoves fork segNo).2 hpath]
        exact hrest fork segNo

end Steps

/-! ### The whole rewind -/

section Whole

variable {env : RewindEnv} {R : RelFileLocator} {ks kt : InternalKey}
  {file : List UInt8 → Option (List UInt8)}
  {rel : RelFileLocator → ForkNumber → ℕ → Option (List Page)}
  {keepwal archiveWalSegments : List (List UInt8)} {entries : List FileEntry} {st : RewindState}
  {dir : TdeDir}

/-- The pages that a file of the relation may have in between: those of the source and of the target, and
empty ones. -/
def RewindPage (env : RewindEnv) (R : RelFileLocator) (ks kt : InternalKey)
    (rel : RelFileLocator → ForkNumber → ℕ → Option (List Page)) (fork : ForkNumber) (segNo i : ℕ)
    (page : Page) : Prop :=
  page = 0 ∨
    (∃ src, env.sourceRel R fork segNo = some src ∧
      (readSegment env.c (some ks) fork segNo src)[i]? = some page) ∨
    ∃ old, rel R fork segNo = some old ∧
      (readSegment env.c (some kt) fork segNo old)[i]? = some page

theorem trailOk_start (hs : env.tmpSource.smgrKeys R = some ks) :
    TrailOk R env.c ks kt (RewindPage env R ks kt rel) ⟨file, rel, env.tmpSource, none⟩ .start
      fun fork segNo => (rel R fork segNo).map (readSegment env.c (some kt) fork segNo) := by
  refine ⟨hs, rfl, fun _ h => (by cases h), fun _ h => (by cases h), fun fork segNo => ?_,
    fun fork segNo side hside => ?_, fun fork segNo pages i page hpages hpage => ?_⟩
  · rw [Option.map_map]
    refine congrArg (fun f => Option.map f _) ?_
    funext pages
    exact length_readSegment pages
  · cases hside
    rfl
  · obtain ⟨old, hold, rfl⟩ := Option.map_eq_some_iff.1 hpages
    exact .inr (.inr ⟨old, hold, hpage⟩)

/-- Segments of the WAL are not files of relations. -/
theorem ensureTdeArchiveSegs_rel {st st' : RewindState}
    (h : archiveWalSegments.foldlM (ensureTdeArchiveSeg env keepwal) st = some st') :
    st'.rel = st.rel ∧ st'.tmpSource = st.tmpSource ∧ st'.current = st.current := by
  refine Lib.Schedule.foldlM_invariant
    (fun x => x.rel = st.rel ∧ x.tmpSource = st.tmpSource ∧ x.current = st.current)
    (fun {x a y} hx hstep => ?_) ⟨rfl, rfl, rfl⟩ h
  unfold ensureTdeArchiveSeg at hstep
  split at hstep
  · cases hstep
    exact hx
  · obtain ⟨f, -, hput⟩ := Option.bind_eq_some_iff.1 hstep
    cases hput
    exact hx

/-- The trail is right at the end of a rewind, whatever the order of the entries was. -/
theorem performRewind_trail (hs : env.tmpSource.smgrKeys R = some ks)
    (ht : env.targetTde.smgrKeys R = some kt)
    (hstored : ∀ fork segNo i page, RewindPage env R ks kt rel fork segNo i page →
      NoZeroPrefix env.c (some kt) fork (i + segNo * relSegSize) page)
    (h : performRewind env keepwal archiveWalSegments entries ⟨file, rel, env.tmpSource, none⟩ =
      some (st, dir)) :
    dir = st.tmpSource ∧ ∃ plain,
      TrailOk R env.c ks kt (RewindPage env R ks kt rel) st (relTrail R env entries) plain ∧
        ∀ fork segNo, (onPath (.rel R fork segNo) (scheduleEntries env.libpq entries)).foldlM
          (relStep env.libpq (sourcePlain env R ks fork segNo))
          ((rel R fork segNo).map (readSegment env.c (some kt) fork segNo)) = some (plain fork segNo) := by
  have htde : env.sourceHasTde = true := by
    unfold RewindEnv.tmpSource at hs
    unfold RewindEnv.sourceHasTde
    cases hsource : env.sourceTde with
    | none =>
        rw [hsource] at hs
        cases hs
    | some d => rfl
  have he : Encryptable env R ks kt (RewindPage env R ks kt rel) :=
    ⟨fun _ _ _ => .inl rfl, fun fork segNo src i page hsrc hpage => .inr (.inl ⟨src, hsrc, hpage⟩),
      hstored⟩
  unfold performRewind at h
  obtain ⟨st₁, hsteps, h⟩ := Option.bind_eq_some_iff.1 h
  obtain ⟨st₂, harchive, h⟩ := Option.bind_eq_some_iff.1 h
  obtain ⟨rfl, hdir⟩ : st₂ = st ∧ _ = dir := by
    simpa using h
  rw [if_pos htde] at hdir
  obtain ⟨plain, hok, hplain⟩ := performSteps_trail he htde ht (trailOk_start hs) hsteps
  obtain ⟨hrel, htmp, hcur⟩ := ensureTdeArchiveSegs_rel harchive
  exact ⟨hdir.symm, plain, (hok.flush he.stored).of_same (congrFun hrel R) htmp hcur, hplain⟩

/-- After a rewind the key of a relation is the one that the trail ends with. The files have the sizes that
they have when they are treated the same way without encryption, and a file that is under this key reads as
it does then. -/
theorem rewind_relation_contents (hs : env.tmpSource.smgrKeys R = some ks)
    (ht : env.targetTde.smgrKeys R = some kt)
    (hstored : ∀ fork segNo i page, RewindPage env R ks kt rel fork segNo i page →
      NoZeroPrefix env.c (some kt) fork (i + segNo * relSegSize) page)
    (h : performRewind env keepwal archiveWalSegments entries ⟨file, rel, env.tmpSource, none⟩ =
      some (st, dir)) :
    dir.smgrKeys R = some ((relTrail R env entries).side.key ks kt) ∧
      ∀ fork segNo, ∃ plain,
        (onPath (.rel R fork segNo) (scheduleEntries env.libpq entries)).foldlM
            (relStep env.libpq (sourcePlain env R ks fork segNo))
            ((rel R fork segNo).map (readSegment env.c (some kt) fork segNo)) = some plain ∧
          plain.map List.length = (st.rel R fork segNo).map List.length ∧
          ((relTrail R env entries).under fork segNo = some (relTrail R env entries).side →
            (st.rel R fork segNo).map (readSegment env.c (dir.smgrKeys R) fork segNo) = plain) := by
  obtain ⟨rfl, plain, hok, hplain⟩ := performRewind_trail hs ht hstored h
  refine ⟨hok.key, fun fork segNo => ⟨plain fork segNo, hplain fork segNo, hok.length fork segNo,
    fun hside => ?_⟩⟩
  rw [hok.key]
  exact hok.under fork segNo _ hside

end Whole

/-! ### A rewind of one relation -/

/-- A cipher that adds the first byte of the key. -/
theorem xor_cancel (a b : UInt8) : a ^^^ b ^^^ b = a := by
  rw [UInt8.xor_assoc, UInt8.xor_self, UInt8.xor_zero]

def sampleKeyCipher : PageCipher := fun _ key _ =>
  ⟨fun page i => page i ^^^ key.headD 0, fun page i => page i ^^^ key.headD 0,
    fun _ => funext fun _ => xor_cancel .., fun _ => funext fun _ => xor_cancel ..⟩

def sampleRelKey (b : UInt8) : InternalKey :=
  ⟨.aes128, List.replicate 16 0, List.replicate 16 b, List.length_replicate⟩

def sampleLocator : RelFileLocator := ⟨1663, 5, 16384⟩

/-- A relation that has nothing but the first segment of its main fork, with a byte for each block. -/
def sampleRel (blocks : List UInt8) (rlocator : RelFileLocator) (fork : ForkNumber) (segNo : ℕ) :
    Option (List Page) :=
  if rlocator = sampleLocator ∧ fork = .main ∧ segNo = 0 then some (blocks.map fun b _ => b) else none

/-- The relation has two blocks in the source, and the keys of the two sides differ. -/
def sampleRelEnv : RewindEnv where
  w := sampleWorld
  aes := fun _ _ _ => 1
  c := sampleKeyCipher
  sz := sampleSegSz
  libpq := false
  sourceFile _ := none
  sourceRel := sampleRel [7, 9]
  sourceTde := some ⟨sampleServer, fun _ => some (sampleRelKey 1)⟩
  targetTde := ⟨sampleServer, fun _ => some (sampleRelKey 2)⟩

/-- Its first block was changed in the target, which has no second one. -/
def sampleRelEntries : List FileEntry :=
  [⟨.rel sampleLocator .main 0, some blckSz, some (2 * blckSz), [0], .copyTail⟩]

theorem sampleKeyCipher_noZeroPrefix {fork : ForkNumber} {bn : ℕ} {page : Page} {b : UInt8}
    (h : page = fun _ => b) (hb : b ≠ 2) :
    NoZeroPrefix sampleKeyCipher (some (sampleRelKey 2)) fork bn page := by
  intro key hkey
  obtain rfl := Option.some.inj hkey
  rw [startsWithZeros, List.all_eq_false]
  refine ⟨0, List.mem_finRange 0, ?_⟩
  rw [h]
  show ¬ decide (b ^^^ 2 = 0) = true
  simpa using hb

/-- What a reader makes of a segment whose blocks consist of equal bytes. -/
theorem readSegment_sample {k : UInt8} {blocks : List UInt8} {fork : ForkNumber} {segNo : ℕ}
    (h : 0 ∉ blocks) :
    readSegment sampleKeyCipher (some (sampleRelKey k)) fork segNo (blocks.map fun b _ => b) =
      (blocks.map (· ^^^ k)).map fun b _ => b := by
  apply List.ext_getElem?
  intro i
  rw [readSegment_getElem?, List.map_map, List.getElem?_map, List.getElem?_map, Option.map_map]
  refine Option.map_congr fun b hb => ?_
  have hne : b ≠ 0 := by
    rintro rfl
    exact h (List.mem_of_getElem? hb)
  have hzeros : startsWithZeros (fun _ => b) = false := by
    rw [startsWithZeros, List.all_eq_false]
    refine ⟨0, List.mem_finRange 0, ?_⟩
    simpa using hne
  show tdeDecryptSmgrBlock _ _ _ _ _ = _
  rw [tdeDecryptSmgrBlock, hzeros, if_neg Bool.false_ne_true]
  rfl

theorem sampleRel_eq_some {blocks : List UInt8} {rlocator : RelFileLocator} {fork : ForkNumber} {segNo : ℕ}
    {pages : List Page} (h : sampleRel blocks rlocator fork segNo = some pages) :
    pages = blocks.map fun b _ => b := by
  unfold sampleRel at h
  split at h
  · exact (Option.some.inj h).symm
  · cases h

/-- No block of it gets a page that starts with zeros under the key of the target. -/
theorem sampleRel_stored (fork : ForkNumber) (segNo i : ℕ) (page : Page)
    (h : RewindPage sampleRelEnv sampleLocator (sampleRelKey 1) (sampleRelKey 2) (sampleRel [11]) fork
      segNo i page) :
    NoZeroPrefix sampleKeyCipher (some (sampleRelKey 2)) fork (i + segNo * relSegSize) page := by
  have hread : ∀ {k : UInt8} {blocks : List UInt8}, 0 ∉ blocks → 2 ∉ blocks.map (· ^^^ k) →
      (readSegment sampleKeyCipher (some (sampleRelKey k)) fork segNo (blocks.map fun b _ => b))[i]? =
        some page → ∃ b : UInt8, (page = fun _ => b) ∧ b ≠ 2 := by
    intro k blocks hzero htwo hpage
    rw [readSegment_sample hzero, List.getElem?_map, Option.map_eq_some_iff] at hpage
    obtain ⟨b, hb, rfl⟩ := hpage
    refine ⟨b, rfl, ?_⟩
    rintro rfl
    exact htwo (List.mem_of_getElem? hb)
  have hpage : ∃ b : UInt8, (page = fun _ => b) ∧ b ≠ 2 := by
    obtain rfl | ⟨src, hsrc, hpage⟩ | ⟨old, hold, hpage⟩ := h
    · exact ⟨0, rfl, by decide⟩
    · rw [sampleRel_eq_some hsrc] at hpage
      exact hread (by decide) (by decide) hpage
    · rw [sampleRel_eq_some hold] at hpage
      exact hread (by decide) (by decide) hpage
  obtain ⟨b, hb, hne⟩ := hpage
  exact sampleKeyCipher_noZeroPrefix hb hne

theorem rewind_relation_contents_sample :
    ∃ st dir, performRewind sampleRelEnv [] [] sampleRelEntries
        ⟨fun _ => none, sampleRel [11], sampleRelEnv.tmpSource, none⟩ = some (st, dir) ∧
      dir.smgrKeys sampleLocator = some (sampleRelKey 2) ∧
      (st.rel sampleLocator .main 0).map
        (readSegment sampleRelEnv.c (dir.smgrKeys sampleLocator) .main 0) =
          some [fun _ => 6, fun _ => 8] := by
  have hside : (relTrail sampleLocator sampleRelEnv sampleRelEntries).side = .target := rfl
  have hunder : (relTrail sampleLocator sampleRelEnv sampleRelEntries).under .main 0 = some .target := rfl
  obtain ⟨st, dir, hrun⟩ : ∃ st dir, performRewind sampleRelEnv [] [] sampleRelEntries
      ⟨fun _ => none, sampleRel [11], sampleRelEnv.tmpSource, none⟩ = some (st, dir) := ⟨_, _, rfl⟩
  obtain ⟨hkey, hcontents⟩ := @rewind_relation_contents sampleRelEnv sampleLocator (sampleRelKey 1)
    (sampleRelKey 2) (fun _ => none) (sampleRel [11]) [] [] sampleRelEntries st dir rfl rfl
    sampleRel_stored hrun
  obtain ⟨plain, hplain, -, hread⟩ := hcontents .main 0
  have hsource : sourcePlain sampleRelEnv sampleLocator (sampleRelKey 1) .main 0 =
      some [fun _ => 6, fun _ => 8] := congrArg some (readSegment_sample (by decide))
  have htarget : (sampleRel [11] sampleLocator .main 0).map
      (readSegment sampleRelEnv.c (some (sampleRelKey 2)) .main 0) = some [fun _ => 9] :=
    congrArg some (readSegment_sample (by decide))
  have hfetched : (onPath (.rel sampleLocator .main 0) (scheduleEntries false sampleRelEntries)).foldlM
      (relStep false (some [fun _ => 6, fun _ => 8])) (some [fun _ => 9]) =
        some (some [fun _ => 6, fun _ => 8]) := rfl
  rw [hsource, htarget] at hplain
  rw [hside] at hkey hread
  refine ⟨st, dir, hrun, hkey, ?_⟩
  rw [hread hunder]
  exact (Option.some.inj (hplain.symm.trans hfetched))

end OpenPgTde
