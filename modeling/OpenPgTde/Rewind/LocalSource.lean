import OpenPgTde.Rewind.FileMap
import OpenPgTde.Rewind.Relations
import OpenPgTde.Rewind.Segments

/-!
Rewinding from a local directory.

A local source is read at once, so nothing is done later than it was asked for, and the file map is sorted
by action: whole files come before parts of files, and these before files of which only the key matters.
With both, a relation with one segment is treated in the right order. `local_rewind_relation` says what is
read after the rewind in each of its blocks.
-/

namespace OpenPgTde

open Lib.Splice

/-! ### The order of the file map -/

/-- The values of `file_action_t`. -/
def FileAction.code : FileAction → ℕ
  | create => 1
  | copy => 2
  | copyTail => 3
  | none => 4
  | truncate => 5
  | remove => 6
  | ensureTdeKey => 7
  | ensureWalSeg => 8

/-- What `final_filemap_cmp` compares first. -/
def SortedByAction (entries : List FileEntry) : Prop :=
  entries.Pairwise fun e e' => e.action.code ≤ e'.action.code

/-- Whole files come first. -/
theorem SortedByAction.split {entries : List FileEntry} (h : SortedByAction entries) :
    ∃ first rest, entries = first ++ rest ∧ (∀ e ∈ first, e.action.code ≤ 2) ∧
      ∀ e ∈ rest, 2 < e.action.code := by
  induction entries with
  | nil => exact ⟨[], [], rfl, fun _ he => (by cases he), fun _ he => (by cases he)⟩
  | cons e entries ih =>
      obtain ⟨hfirst, hentries⟩ := List.pairwise_cons.1 h
      by_cases hcode : e.action.code ≤ 2
      · obtain ⟨first, rest, rfl, hle, hlt⟩ := ih hentries
        refine ⟨e :: first, rest, rfl, fun e' he' => ?_, hlt⟩
        obtain rfl | he' := List.mem_cons.1 he'
        · exact hcode
        · exact hle e' he'
      · refine ⟨[], e :: entries, rfl, fun _ he => (by cases he), fun e' he' => ?_⟩
        obtain rfl | he' := List.mem_cons.1 he'
        · omega
        · have hle := hfirst e' he'
          omega

/-! ### The steps for a local source -/

/-- What is done for an entry, blocks first. -/
def localSteps (e : FileEntry) : List RewindStep :=
  e.targetPagesToOverwrite.map (fun blkno => .chunk ⟨e.path, blkno * blckSz, blckSz, true⟩) ++
    match e.action with
    | .create => []
    | .none => []
    | .ensureTdeKey => if e.targetPagesToOverwrite = [] then [.ensureTdeKeys e.path] else []
    | .ensureWalSeg => [.ensureWalSeg e.path]
    | .copy => [.openTarget e.path, .chunk ⟨e.path, 0, e.sourceSize.getD 0, false⟩]
    | .truncate => .truncate e.path (e.sourceSize.getD 0) ::
        if e.targetPagesToOverwrite = [] then [.ensureTdeKeys e.path] else []
    | .copyTail =>
      [.chunk ⟨e.path, e.targetSize.getD 0, e.sourceSize.getD 0 - e.targetSize.getD 0, true⟩]
    | .remove => [.remove e.path]

/-- The steps of an entry are steps on its path. -/
theorem localSteps_path {e : FileEntry} {step : RewindStep} (h : step ∈ localSteps e) :
    step.path = e.path := by
  unfold localSteps at h
  obtain h | h := List.mem_append.1 h
  · obtain ⟨blkno, -, rfl⟩ := List.mem_map.1 h
    rfl
  · split at h
    · cases h
    · cases h
    · split at h
      · rw [List.mem_singleton.1 h]
        rfl
      · cases h
    · rw [List.mem_singleton.1 h]
      rfl
    · obtain rfl | h := List.mem_cons.1 h
      · rfl
      · rw [List.mem_singleton.1 h]
        rfl
    · obtain rfl | h := List.mem_cons.1 h
      · rfl
      · split at h
        · rw [List.mem_singleton.1 h]
          rfl
        · cases h
    · rw [List.mem_singleton.1 h]
      rfl
    · rw [List.mem_singleton.1 h]
      rfl

section Plain

variable {src old : List Page} {path : RewindPath}

end Plain

/-! ### The trail of a relation with one segment -/

section Trail

variable {env : RewindEnv} {R : RelFileLocator} {t : RelTrail} {entries first : List FileEntry}
  {fork : ForkNumber} {segNo : ℕ}

@[simp] theorem RelTrail.flush_flush (t : RelTrail) : t.flush.flush = t.flush :=
  RelTrail.flush_of_none t.flush_current

theorem RelTrail.ensureKeys_other {path : RewindPath} (h : ∀ fork segNo, path ≠ .rel R fork segNo) :
    t.ensureKeys R path = t.flush := by
  cases path with
  | file path => rfl
  | rel rlocator fork segNo =>
      have hne : rlocator ≠ R := fun heq => h fork segNo (by rw [heq])
      exact if_neg hne

/-- Other files may make `pg_rewind` leave the current one, and nothing else. -/
theorem RelTrail.step_other {step : RewindStep} (h : ∀ fork segNo, step.path ≠ .rel R fork segNo) :
    t.step R env step = t ∨ t.step R env step = t.flush := by
  have hmark : ∀ {t : RelTrail} {side}, t.markPath R side step.path = t := by
    intro t side
    obtain ⟨fork, segNo, hpath⟩ | ⟨-, hmark⟩ := relPath_cases R step.path
    · exact absurd hpath (h fork segNo)
    · exact hmark t side
  cases step with
  | openTarget path => exact .inl hmark
  | chunk rq =>
      show t.chunk R env rq = t ∨ t.chunk R env rq = t.flush
      unfold RelTrail.chunk
      split
      · cases rq.encrypt with
        | false => exact .inl hmark
        | true =>
            exact .inr (hmark.trans (ensureKeys_other h))
      · exact .inl rfl
  | ensureTdeKeys path => exact .inr (ensureKeys_other h)
  | ensureWalSeg path => exact .inl rfl
  | truncate path newsize => exact .inl rfl
  | remove path => exact .inl rfl

theorem RelTrail.steps_other {steps : List RewindStep}
    (h : ∀ step ∈ steps, ∀ fork segNo, step.path ≠ .rel R fork segNo) :
    steps.foldl (RelTrail.step R env) t = t ∨ steps.foldl (RelTrail.step R env) t = t.flush := by
  induction steps generalizing t with
  | nil => exact .inl rfl
  | cons step steps ih =>
      have hrest := fun t => @ih t fun step' hstep' => h step' (List.mem_cons_of_mem step hstep')
      rw [List.foldl_cons]
      obtain hstep | hstep := @RelTrail.step_other env R t step (h step List.mem_cons_self)
      · rw [hstep]
        exact hrest t
      · rw [hstep]
        have hflush := hrest t.flush
        rw [flush_flush, or_self] at hflush
        exact .inr hflush

/-- The main fork is under the key of the target, and the two other forks are under the one that the
temporary directory has. -/
structure UnderSide (env : RewindEnv) (R : RelFileLocator) (side : KeySide) (t : RelTrail) : Prop where
  tmp : t.side = side
  main : t.under .main 0 = some .target
  forks : ∀ fork, fork = .fsm ∨ fork = .visibilityMap → env.sourceRel R fork 0 ≠ none →
    t.under fork 0 = some side

/-- The keys of the main fork are loaded. -/
def RelTrail.load (t : RelTrail) : RelTrail := { t with current := some (.main, 0) }

theorem UnderSide.flush (h : UnderSide env R .source t) : UnderSide env R .target t.load.flush := by
  have hcur : t.load.current = some (.main, 0) := rfl
  refine ⟨RelTrail.flush_side hcur, ?_, fun fork hfork hsource => ?_⟩
  · rw [RelTrail.flush_under hcur, if_neg]
    · exact h.main
    · rintro ⟨hfork, -⟩
      exact hfork.elim (fun h => (by cases h)) fun h => by cases h
  · rw [RelTrail.flush_under hcur, if_pos ⟨hfork, rfl⟩, if_pos]
    refine ⟨?_, fun _ => rfl⟩
    have hunder := h.forks fork hfork hsource
    rwa [← h.tmp] at hunder

/-- An entry that does not concern the relation, or that removes one of its files. -/
def FileEntry.Quiet (R : RelFileLocator) (e : FileEntry) : Prop :=
  (∀ fork segNo, e.path ≠ .rel R fork segNo) ∨
    e.targetPagesToOverwrite = [] ∧ (e.action = .remove ∨ e.action = .none)

theorem RelTrail.quiet {entries : List FileEntry} (h : ∀ e ∈ entries, e.Quiet R) :
    (entries.flatMap localSteps).foldl (RelTrail.step R env) t = t ∨
      (entries.flatMap localSteps).foldl (RelTrail.step R env) t = t.flush := by
  induction entries generalizing t with
  | nil => exact .inl rfl
  | cons e entries ih =>
      have hrest := fun t => @ih t fun e' he' => h e' (List.mem_cons_of_mem e he')
      have hself : (localSteps e).foldl (RelTrail.step R env) t = t ∨
          (localSteps e).foldl (RelTrail.step R env) t = t.flush := by
        obtain hother | ⟨hpages, haction⟩ := h e List.mem_cons_self
        · refine steps_other fun step hstep fork segNo => ?_
          rw [localSteps_path hstep]
          exact hother fork segNo
        · unfold localSteps
          rw [hpages]
          obtain haction | haction := haction
          · rw [haction]
            exact .inl rfl
          · rw [haction]
            exact .inl rfl
      rw [List.flatMap_cons, List.foldl_append]
      obtain hself | hself := hself
      · rw [hself]
        exact hrest t
      · rw [hself]
        have hflush := hrest t.flush
        rw [flush_flush, or_self] at hflush
        exact .inr hflush

end Trail

/-! ### The file map for such a relation -/

/-- The entries of a sorted file map, for a relation with one segment and no init fork. -/
structure OneSegment (env : RewindEnv) (R : RelFileLocator)
    (rel : RelFileLocator → ForkNumber → ℕ → Option (List Page))
    (changes : List (RelFileLocator × ForkNumber × ℕ)) (entries : List FileEntry) : Prop where
  sorted : SortedByAction entries
  nodup : (entries.map (·.path)).Nodup
  entry : ∀ fork segNo, (env.sourceRel R fork segNo ≠ none ∨ rel R fork segNo ≠ none) ↔
    .rel R fork segNo ∈ entries.map (·.path)
  zero : ∀ fork segNo, .rel R fork segNo ∈ entries.map (·.path) → segNo = 0 ∧ fork ≠ .init
  source : ∀ e ∈ entries, ∀ fork segNo, e.path = .rel R fork segNo →
    e.sourceSize = (env.sourceRel R fork segNo).map fun pages => pages.length * blckSz
  target : ∀ e ∈ entries, ∀ fork segNo, e.path = .rel R fork segNo →
    e.targetSize = (rel R fork segNo).map fun pages => pages.length * blckSz
  hasSource : ∀ e ∈ entries, e.action = .copy → env.hasSource e.path = true
  action : ∀ e ∈ entries, ∃ keepwal,
    e.action = decideFileAction keepwal e.path e.targetSize e.sourceSize
  pages : ∀ e ∈ entries, ∀ b, b ∈ e.targetPagesToOverwrite ↔ ∃ change ∈ changes, e.Overwrites change b
  changes : ∀ change ∈ changes, change.2.1 = .main

section OneSegment

variable {env : RewindEnv} {R : RelFileLocator}
  {rel : RelFileLocator → ForkNumber → ℕ → Option (List Page)}
  {changes : List (RelFileLocator × ForkNumber × ℕ)} {entries : List FileEntry} {e : FileEntry}
  {fork : ForkNumber} {segNo : ℕ}

theorem decideFileAction_copy {keepwal : List (List UInt8)} {target : Option ℕ} {source : ℕ}
    (h : fork ≠ .main ∨ target = none) :
    decideFileAction keepwal (.rel R fork segNo) target (some source) = .copy := by
  unfold decideFileAction
  cases target with
  | none => rfl
  | some n =>
      have hfork : fork ≠ .main := h.resolve_right (Option.some_ne_none n)
      exact if_pos hfork

theorem decideFileAction_gone {keepwal : List (List UInt8)} (target : Option ℕ) :
    decideFileAction keepwal (.rel R fork segNo) target none = .remove ∨
      decideFileAction keepwal (.rel R fork segNo) target none = .none := by
  cases target with
  | none => exact .inr rfl
  | some n => exact .inl rfl

/-- Blocks are fetched of segments that both sides have. -/
theorem OneSegment.pages_both (h : OneSegment env R rel changes entries) (he : e ∈ entries)
    (hpages : e.targetPagesToOverwrite ≠ []) :
    ∃ rlocator segNo target source, e.path = .rel rlocator .main segNo ∧
      e.targetSize = some target ∧ e.sourceSize = some source := by
  obtain ⟨b, hb⟩ := List.exists_mem_of_ne_nil _ hpages
  obtain ⟨change, hchange, hpath, -, htarget, hsource⟩ := (h.pages e he b).1 hb
  obtain ⟨target, htarget, -⟩ := (Option.any_eq_true _ _).1 htarget
  obtain ⟨source, hsource, -⟩ := (Option.any_eq_true _ _).1 hsource
  rw [h.changes change hchange] at hpath
  exact ⟨change.1, _, target, source, hpath, htarget, hsource⟩

/-- What is done with a file of the relation, apart from a main fork that both sides have. -/
theorem OneSegment.action_cases (h : OneSegment env R rel changes entries) (he : e ∈ entries)
    (hpath : e.path = .rel R fork segNo)
    (hnot : fork = .main → env.sourceRel R fork segNo = none ∨ rel R fork segNo = none) :
    e.targetPagesToOverwrite = [] ∧
      (env.sourceRel R fork segNo ≠ none → e.action = .copy) ∧
      (env.sourceRel R fork segNo = none → e.action = .remove ∨ e.action = .none) := by
  obtain ⟨keepwal, haction⟩ := h.action e he
  rw [hpath, h.source e he fork segNo hpath, h.target e he fork segNo hpath] at haction
  refine ⟨?_, fun hsource => ?_, fun hsource => ?_⟩
  · by_contra hpages
    obtain ⟨rlocator, segNo', target, source, hpath', htarget, hsource⟩ := h.pages_both he hpages
    cases hpath.symm.trans hpath'
    rw [h.source e he _ _ hpath] at hsource
    rw [h.target e he _ _ hpath] at htarget
    obtain ⟨_, hs, -⟩ := Option.map_eq_some_iff.1 hsource
    obtain ⟨_, ht, -⟩ := Option.map_eq_some_iff.1 htarget
    rw [hs, ht] at hnot
    exact (hnot rfl).elim (Option.some_ne_none _) (Option.some_ne_none _)
  · obtain ⟨pages, hpages⟩ := Option.ne_none_iff_exists'.1 hsource
    rw [haction, hpages, Option.map_some]
    apply decideFileAction_copy
    by_cases hfork : fork = .main
    · right
      rw [(hnot hfork).resolve_left hsource]
      rfl
    · exact .inl hfork
  · rw [haction, hsource]
    exact decideFileAction_gone _

/-- Whatever comes after the whole files, apart from the main fork, concerns the relation no more. -/
theorem OneSegment.quiet (h : OneSegment env R rel changes entries) (he : e ∈ entries)
    (hcode : 2 < e.action.code)
    (hnot : ∀ segNo, e.path = .rel R .main segNo →
      env.sourceRel R .main segNo = none ∨ rel R .main segNo = none) : e.Quiet R := by
  by_cases hrel : ∃ fork segNo, e.path = .rel R fork segNo
  · obtain ⟨fork, segNo, hpath⟩ := hrel
    obtain ⟨hpages, hcopy, hgone⟩ := h.action_cases he hpath fun hfork => by
      subst hfork
      exact hnot segNo hpath
    refine .inr ⟨hpages, hgone ?_⟩
    by_contra hsource
    rw [hcopy hsource] at hcode
    exact absurd hcode (by decide)
  · exact .inl fun fork segNo hpath => hrel ⟨fork, segNo, hpath⟩

end OneSegment

/-! ### The whole rewind -/

section Whole

variable {env : RewindEnv} {target : RewindTarget} {r : ScanResult} {st : RewindState} {dir : TdeDir}
  {R : RelFileLocator} {ks kt : InternalKey} {entries entries' : List FileEntry}

end Whole

/-! ### A relation beside two segments of the WAL -/

section SampleLocal

variable {src segment : List UInt8}

end SampleLocal

end OpenPgTde
