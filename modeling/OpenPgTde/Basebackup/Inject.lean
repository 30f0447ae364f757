import OpenPgTde.Keyring.Options
import OpenPgTde.Lib.Pipeline

/-!
The archives of `pg_basebackup`, and how they are edited (`pg_basebackup/astreamer_inject.c`,
`pg_basebackup/bbstreamer_inject.c`).

An archive is passed from streamer to streamer in chunks, that are labelled with what they are a part of. The
contents of a member may come in any number of chunks. Two streamers edit an archive: the one writes the
recovery configuration, the other leaves the WAL keys of the source out where the backup has its own. Whatever
chunks they get, they make the same changes to the members of the archive.
-/

namespace OpenPgTde

open Lib.Pipeline

/-! ### Chunks -/

/-- `bbstreamer_member`, `astreamer_member`; the target is that of a link. -/
structure ArchiveMember where
  pathname : List UInt8
  size : ℕ
  mode : ℕ
  uid : ℕ
  gid : ℕ
  isDirectory : Bool
  linkTarget : Option (List UInt8)

/-- `bbstreamer_archive_context`. -/
inductive ArchiveContext
  | unknown
  | memberHeader
  | memberContents
  | memberTrailer
  | archiveTrailer
  deriving DecidableEq, Repr

/-- What is passed to `bbstreamer_content`. -/
structure Chunk where
  member : Option ArchiveMember
  data : List UInt8
  context : ArchiveContext

/-- `bbstreamer_inject_file`. -/
def injectMember (pathname : List UInt8) (len : ℕ) : ArchiveMember :=
  ⟨pathname, len, 0o600, 0o4000, 0o2000, false, none⟩

def injectFile (pathname data : List UInt8) : List Chunk :=
  [⟨some (injectMember pathname data.length), [], .memberHeader⟩,
    ⟨some (injectMember pathname data.length), data, .memberContents⟩,
    ⟨some (injectMember pathname data.length), [], .memberTrailer⟩]

/-! ### Writing the recovery configuration -/

/-- `bbstreamer_recovery_injector`. -/
structure RecoveryInjector where
  skipFile : Bool
  isPostgresqlAutoConf : Bool
  foundPostgresqlAutoConf : Bool
  member : Option ArchiveMember

/-- `palloc0`. -/
def RecoveryInjector.start : RecoveryInjector := ⟨false, false, false, none⟩

def standbySignal : List UInt8 := ascii "standby.signal"

def postgresqlAutoConf : List UInt8 := ascii "postgresql.auto.conf"

def recoveryConf : List UInt8 := ascii "recovery.conf"

section Recovery

variable (isRecoveryGucSupported : Bool) (recoveryconfcontents : List UInt8)

/-- The header of a member. -/
def recoveryInjectorHeader (st : RecoveryInjector) (member : ArchiveMember) (data : List UInt8) :
    RecoveryInjector × List Chunk :=
  if isRecoveryGucSupported then
    let st := { st with
      skipFile := member.pathname = standbySignal
      isPostgresqlAutoConf := member.pathname = postgresqlAutoConf
      member := some member }
    if st.isPostgresqlAutoConf then
      let member := { member with size := member.size + recoveryconfcontents.length }
      ({ st with foundPostgresqlAutoConf := true, member := some member },
        if st.skipFile then [] else [⟨some member, [], .memberHeader⟩])
    else (st, if st.skipFile then [] else [⟨st.member, data, .memberHeader⟩])
  else
    let st := { st with skipFile := member.pathname = recoveryConf, member := some member }
    (st, if st.skipFile then [] else [⟨st.member, data, .memberHeader⟩])

/-- What is added at the end of the archive. -/
def recoveryInjectorFiles (st : RecoveryInjector) : List Chunk :=
  if isRecoveryGucSupported then
    (if st.foundPostgresqlAutoConf then [] else injectFile postgresqlAutoConf recoveryconfcontents) ++
      injectFile standbySignal []
  else injectFile recoveryConf recoveryconfcontents

/-- `bbstreamer_recovery_injector_content`; a header comes with its member. -/
def recoveryInjectorContent (st : RecoveryInjector) (c : Chunk) :
    Option (RecoveryInjector × List Chunk) :=
  match c.context with
  | .memberHeader => c.member.map fun member =>
    recoveryInjectorHeader isRecoveryGucSupported recoveryconfcontents st member c.data
  | .memberContents => some (st, if st.skipFile then [] else [⟨st.member, c.data, .memberContents⟩])
  | .memberTrailer =>
    let appended : List Chunk :=
      if st.isPostgresqlAutoConf then [⟨c.member, recoveryconfcontents, .memberContents⟩] else []
    some (st, if st.skipFile then [] else appended ++ [⟨st.member, c.data, .memberTrailer⟩])
  | .archiveTrailer =>
    some (st, recoveryInjectorFiles isRecoveryGucSupported recoveryconfcontents st ++
      [⟨st.member, c.data, .archiveTrailer⟩])
  -- "unexpected state while injecting recovery settings"
  | .unknown => none

def recoveryInjector : Stage RecoveryInjector Chunk Chunk where
  content := recoveryInjectorContent isRecoveryGucSupported recoveryconfcontents
  finalize _ := some []

end Recovery

/-! ### Leaving the WAL keys out -/

def walKeysPath : List UInt8 := ascii "open_pg_tde/wal_keys"

/-- `astreamer_open_pg_tde_injector_content`; the state is `skip_file`. -/
def tdeInjectorContent (encryptedWal : Bool) (skipFile : Bool) (c : Chunk) : Option (Bool × List Chunk) :=
  match c.context with
  | .memberHeader => c.member.map fun member =>
    if member.pathname = walKeysPath then if encryptedWal then (true, []) else (false, [c])
    else if (member.pathname = ascii "open_pg_tde" ∨ member.pathname = ascii "open_pg_tde/") ∧
        encryptedWal then (true, [])
    else (false, [c])
  | .memberContents => some (skipFile, if skipFile then [] else [c])
  | .memberTrailer => some (skipFile, if skipFile then [] else [c])
  | .archiveTrailer => some (skipFile, [c])
  | .unknown => some (skipFile, [c])

def tdeInjector (encryptedWal : Bool) : Stage Bool Chunk Chunk where
  content := tdeInjectorContent encryptedWal
  finalize _ := some []

/-! ### Archives -/

/-- A member of an archive, with what is before and behind its contents. -/
structure ArchivedFile where
  member : ArchiveMember
  header : List UInt8
  contents : List UInt8
  trailer : List UInt8

/-- The member is as long as it says. -/
def ArchivedFile.Sized (m : ArchivedFile) : Prop := m.contents.length = m.member.size

/-- Chunks that the archive with these members and this trailer may come in. -/
inductive Typed : List ArchivedFile → List UInt8 → List Chunk → Prop
  | trailer (member : Option ArchiveMember) (data : List UInt8) :
      Typed [] data [⟨member, data, .archiveTrailer⟩]
  | member (m : ArchivedFile) {pieces : List Chunk} {ms : List ArchivedFile} {data : List UInt8}
      {chunks : List Chunk} (hpieces : ∀ c ∈ pieces, c.context = .memberContents)
      (hcontents : pieces.flatMap Chunk.data = m.contents) (hrest : Typed ms data chunks) :
      Typed (m :: ms) data (⟨some m.member, m.header, .memberHeader⟩ ::
        (pieces ++ ⟨some m.member, m.trailer, .memberTrailer⟩ :: chunks))

/-- A file that was injected. -/
def injected (pathname data : List UInt8) : ArchivedFile :=
  ⟨injectMember pathname data.length, [], data, []⟩

/-- `postgresql.auto.conf` gets some more settings. Its old header is not valid any more. -/
def ArchivedFile.appendConf (m : ArchivedFile) (conf : List UInt8) : ArchivedFile :=
  if m.member.pathname = postgresqlAutoConf then
    { m with
      member := { m.member with size := m.member.size + conf.length }
      header := []
      contents := m.contents ++ conf }
  else m

/-- The archive with the recovery configuration. -/
def injectRecovery (isRecoveryGucSupported : Bool) (conf : List UInt8) (ms : List ArchivedFile) :
    List ArchivedFile :=
  if isRecoveryGucSupported then
    (ms.filter fun m => m.member.pathname ≠ standbySignal).map (·.appendConf conf) ++
      (if ms.any fun m => m.member.pathname = postgresqlAutoConf then []
        else [injected postgresqlAutoConf conf]) ++ [injected standbySignal []]
  else (ms.filter fun m => m.member.pathname ≠ recoveryConf) ++ [injected recoveryConf conf]

/-- A member that the backup has of its own: the WAL keys, and the directory they are in. -/
def ownWalKeys (encryptedWal : Bool) (pathname : List UInt8) : Bool :=
  encryptedWal && (pathname = walKeysPath || pathname = ascii "open_pg_tde" || pathname = ascii "open_pg_tde/")

/-- The archive without the WAL keys of the source. -/
def withoutWalKeys (encryptedWal : Bool) (ms : List ArchivedFile) : List ArchivedFile :=
  ms.filter fun m => !ownWalKeys encryptedWal m.member.pathname

/-! ### What the streamers make of an archive -/

theorem Typed.injected {ms : List ArchivedFile} {t : List UInt8} {chunks : List Chunk}
    (h : Typed ms t chunks) (pathname data : List UInt8) :
    Typed (injected pathname data :: ms) t (injectFile pathname data ++ chunks) := by
  have hpieces : ∀ c ∈ [(⟨some (injectMember pathname data.length), data, .memberContents⟩ : Chunk)],
      c.context = .memberContents := by
    intro c hc
    rw [List.mem_singleton.1 hc]
  exact Typed.member (OpenPgTde.injected pathname data) hpieces (List.append_nil _) h

/-- A streamer gets all chunks of a member, and keeps its state behind the header. -/
theorem run_member {σ : Type} {s : Stage σ Chunk Chunk} {st st' : σ} {header trailer : Chunk}
    {pieces chunks out₁ out₃ out : List Chunk} {f : Chunk → List Chunk}
    (hheader : s.content st header = some (st', out₁))
    (hpieces : ∀ c ∈ pieces, s.content st' c = some (st', f c))
    (htrailer : s.content st' trailer = some (st', out₃)) (hrest : s.run st' chunks = some out) :
    s.run st (header :: (pieces ++ trailer :: chunks)) =
      some (out₁ ++ (pieces.flatMap f ++ (out₃ ++ out))) := by
  rw [Stage.run_cons, hheader, Option.bind_some, Stage.run_append, Stage.feed_of_const hpieces,
    Option.bind_some, Stage.run_cons, htrailer, Option.bind_some, hrest]
  rfl

section Recovery

variable {guc : Bool} {conf : List UInt8} {st : RecoveryInjector} {ms : List ArchivedFile}
  {t : List UInt8} {chunks : List Chunk}

/-- `injectRecovery`, where a `postgresql.auto.conf` may have been found before. -/
def injectRecoveryFrom (guc : Bool) (conf : List UInt8) (found : Bool) (ms : List ArchivedFile) :
    List ArchivedFile :=
  if guc then
    (ms.filter fun m => m.member.pathname ≠ standbySignal).map (·.appendConf conf) ++
      (if found || ms.any fun m => m.member.pathname = postgresqlAutoConf then []
        else [injected postgresqlAutoConf conf]) ++ [injected standbySignal []]
  else (ms.filter fun m => m.member.pathname ≠ recoveryConf) ++ [injected recoveryConf conf]

theorem recoveryInjectorFiles_typed (st : RecoveryInjector) (member : Option ArchiveMember) :
    Typed (injectRecoveryFrom guc conf st.foundPostgresqlAutoConf []) t
      (recoveryInjectorFiles guc conf st ++ [⟨member, t, .archiveTrailer⟩]) := by
  have hend := Typed.trailer member t
  rw [injectRecoveryFrom, recoveryInjectorFiles]
  cases guc with
  | false => exact hend.injected recoveryConf conf
  | true =>
      have hsignal := hend.injected standbySignal []
      cases st.foundPostgresqlAutoConf with
      | true => exact hsignal
      | false => exact hsignal.injected postgresqlAutoConf conf

/-- A member is left out, or it is passed on with what is appended to it. -/
theorem recoveryInjectorHeader_cases (hst : guc = false → st.isPostgresqlAutoConf = false)
    (m : ArchivedFile) {st' : RecoveryInjector} {out : List Chunk}
    (h : recoveryInjectorHeader guc conf st m.member m.header = (st', out)) :
    (guc = false → st'.isPostgresqlAutoConf = false) ∧
      ((st'.skipFile = true ∧ out = [] ∧
          ∀ ms, injectRecoveryFrom guc conf st.foundPostgresqlAutoConf (m :: ms) =
            injectRecoveryFrom guc conf st'.foundPostgresqlAutoConf ms) ∨
        ∃ m' : ArchivedFile, st'.skipFile = false ∧ st'.member = some m'.member ∧
          out = [⟨some m'.member, m'.header, .memberHeader⟩] ∧ m'.trailer = m.trailer ∧
          m'.contents = m.contents ++ (if st'.isPostgresqlAutoConf then conf else []) ∧
          ∀ ms, injectRecoveryFrom guc conf st.foundPostgresqlAutoConf (m :: ms) =
            m' :: injectRecoveryFrom guc conf st'.foundPostgresqlAutoConf ms) := by
  cases guc with
  | false =>
      have hauto := hst rfl
      rw [recoveryInjectorHeader, if_neg Bool.false_ne_true] at h
      cases h
      refine ⟨fun _ => hauto, ?_⟩
      by_cases hskip : m.member.pathname = recoveryConf
      · exact .inl ⟨decide_eq_true hskip, if_pos (decide_eq_true hskip),
          fun ms => by simp [injectRecoveryFrom, hskip]⟩
      · refine .inr ⟨m, decide_eq_false hskip, rfl, if_neg (by simp [hskip]), rfl, ?_, fun ms => ?_⟩
        · simp [hauto]
        · simp [injectRecoveryFrom, hskip]
  | true =>
      refine ⟨fun hfalse => (by cases hfalse), ?_⟩
      rw [recoveryInjectorHeader, if_pos rfl] at h
      by_cases hauto : m.member.pathname = postgresqlAutoConf
      · have hskip : postgresqlAutoConf ≠ standbySignal := by decide
        simp only [hauto, hskip, decide_true, decide_false, if_true, Bool.false_eq_true, if_false] at h
        cases h
        refine .inr ⟨m.appendConf conf, rfl, ?_, ?_, ?_, ?_, fun ms => ?_⟩
        all_goals simp [ArchivedFile.appendConf, hauto, hskip, injectRecoveryFrom]
      · simp only [hauto, decide_false, Bool.false_eq_true, if_false] at h
        cases h
        by_cases hskip : m.member.pathname = standbySignal
        · refine .inl ⟨decide_eq_true hskip, if_pos (decide_eq_true hskip), fun ms => ?_⟩
          have hne : standbySignal ≠ postgresqlAutoConf := by decide
          simp [injectRecoveryFrom, hskip, hne]
        · refine .inr ⟨m, decide_eq_false hskip, rfl, if_neg (by simp [hskip]), rfl, ?_, fun ms => ?_⟩
          · simp
          · simp [injectRecoveryFrom, hskip, hauto, ArchivedFile.appendConf]

/-- The chunks of a member that is passed on. -/
theorem Typed.appended {m' : ArchivedFile} {pieces : List Chunk} {contents appended : List UInt8}
    {ms' : List ArchivedFile} {out : List Chunk} (hcontents : pieces.flatMap Chunk.data = contents)
    (hm' : m'.contents = contents ++ appended) (member : Option ArchiveMember)
    (hrest : Typed ms' t out) (extra : List Chunk) (hextra : ∀ c ∈ extra, c.context = .memberContents)
    (hdata : extra.flatMap Chunk.data = appended) :
    Typed (m' :: ms') t (⟨some m'.member, m'.header, .memberHeader⟩ ::
      (pieces.flatMap (fun c => [⟨member, c.data, .memberContents⟩]) ++ extra ++
        ⟨some m'.member, m'.trailer, .memberTrailer⟩ :: out)) := by
  apply Typed.member m' _ _ hrest
  · intro c hc
    rcases List.mem_append.1 hc with hc | hc
    · obtain ⟨piece, -, hc⟩ := List.mem_flatMap.1 hc
      rw [List.mem_singleton.1 hc]
    · exact hextra c hc
  · rw [List.flatMap_append, hdata, hm', ← hcontents, List.flatMap_assoc]
    simp

theorem recoveryInjector_run (h : Typed ms t chunks) (hst : guc = false → st.isPostgresqlAutoConf = false) :
    ∃ out, (recoveryInjector guc conf).run st chunks = some out ∧
      Typed (injectRecoveryFrom guc conf st.foundPostgresqlAutoConf ms) t out := by
  induction h generalizing st with
  | trailer member data =>
      have hend := @recoveryInjectorFiles_typed guc conf data st st.member
      rw [← List.append_nil (recoveryInjectorFiles guc conf st ++ _)] at hend
      refine ⟨_, rfl, ?_⟩
      simpa using hend
  | @member m pieces ms data chunks hpieces hcontents hrest ih =>
      obtain ⟨st', out₁, hheader⟩ :
          ∃ st' out₁, recoveryInjectorHeader guc conf st m.member m.header = (st', out₁) := ⟨_, _, rfl⟩
      obtain ⟨hst', hcases⟩ := recoveryInjectorHeader_cases hst m hheader
      obtain ⟨out, hrun, htyped⟩ := ih hst'
      have hcontent : (recoveryInjector guc conf).content st ⟨some m.member, m.header, .memberHeader⟩ =
          some (st', out₁) := congrArg some hheader
      have hmembers : ∀ c ∈ pieces, (recoveryInjector guc conf).content st' c =
          some (st', if st'.skipFile then [] else [⟨st'.member, c.data, .memberContents⟩]) := by
        intro c hc
        simp only [recoveryInjector, recoveryInjectorContent, hpieces c hc]
      have htrailer' : (recoveryInjector guc conf).content st'
          ⟨some m.member, m.trailer, .memberTrailer⟩ = some (st', if st'.skipFile then [] else
            (if st'.isPostgresqlAutoConf then [⟨some m.member, conf, .memberContents⟩] else []) ++
              [⟨st'.member, m.trailer, .memberTrailer⟩]) := rfl
      refine ⟨_, run_member hcontent hmembers htrailer' hrun, ?_⟩
      rcases hcases with ⟨hskip, rfl, hms⟩ | ⟨m', hskip, hmember, rfl, htrailer, hm', hms⟩
      · have hnone : pieces.flatMap (fun _ => ([] : List Chunk)) = [] :=
          List.flatMap_eq_nil_iff.2 fun _ _ => rfl
        rw [hms]
        simpa [hskip, hnone] using htyped
      · rw [hms]
        simp only [hskip, Bool.false_eq_true, if_false, hmember]
        have happended := htyped.appended hcontents hm' (some m'.member)
          (if st'.isPostgresqlAutoConf then [⟨some m.member, conf, .memberContents⟩] else [])
          (by split <;> simp) (by split <;> simp)
        rw [htrailer] at happended
        simpa using happended

end Recovery

section WalKeys

variable {encryptedWal skipFile : Bool} {ms : List ArchivedFile} {t : List UInt8} {chunks : List Chunk}

theorem tdeInjector_header (member : ArchiveMember) (data : List UInt8) :
    (tdeInjector encryptedWal).content skipFile ⟨some member, data, .memberHeader⟩ =
      some (ownWalKeys encryptedWal member.pathname,
        if ownWalKeys encryptedWal member.pathname then [] else [⟨some member, data, .memberHeader⟩]) := by
  simp only [tdeInjector, tdeInjectorContent, Option.map_some, ownWalKeys]
  cases encryptedWal with
  | false => simp
  | true =>
      by_cases hkeys : member.pathname = walKeysPath
      · simp [hkeys]
      · by_cases hdir : member.pathname = ascii "open_pg_tde" ∨ member.pathname = ascii "open_pg_tde/"
        · simp [hkeys, hdir]
        · rw [not_or] at hdir
          simp [hkeys, hdir]

theorem tdeInjector_run (h : Typed ms t chunks) :
    ∃ out, (tdeInjector encryptedWal).run skipFile chunks = some out ∧
      Typed (withoutWalKeys encryptedWal ms) t out := by
  induction h generalizing skipFile with
  | trailer member data => exact ⟨_, rfl, Typed.trailer member data⟩
  | @member m pieces ms data chunks hpieces hcontents hrest ih =>
      obtain ⟨out, hrun, htyped⟩ := @ih (ownWalKeys encryptedWal m.member.pathname)
      have hmembers : ∀ c ∈ pieces,
          (tdeInjector encryptedWal).content (ownWalKeys encryptedWal m.member.pathname) c =
            some (ownWalKeys encryptedWal m.member.pathname,
              if ownWalKeys encryptedWal m.member.pathname then [] else [c]) := by
        intro c hc
        simp only [tdeInjector, tdeInjectorContent, hpieces c hc]
      have htrailer : (tdeInjector encryptedWal).content (ownWalKeys encryptedWal m.member.pathname)
          ⟨some m.member, m.trailer, .memberTrailer⟩ = some (ownWalKeys encryptedWal m.member.pathname,
            if ownWalKeys encryptedWal m.member.pathname then []
            else [⟨some m.member, m.trailer, .memberTrailer⟩]) := rfl
      refine ⟨_, run_member (tdeInjector_header m.member m.header) hmembers htrailer hrun, ?_⟩
      rw [withoutWalKeys, List.filter_cons]
      cases ownWalKeys encryptedWal m.member.pathname with
      | true =>
          have hnone : pieces.flatMap (fun _ => ([] : List Chunk)) = [] :=
            List.flatMap_eq_nil_iff.2 fun _ _ => rfl
          simpa [hnone, withoutWalKeys] using htyped
      | false =>
          have hkept := htyped.member m hpieces hcontents
          simpa [withoutWalKeys] using hkept

/-- Where the archive is not parsed, it is passed on as it is. -/
theorem tdeInjector_unknown (h : ∀ c ∈ chunks, c.context = .unknown) :
    (tdeInjector encryptedWal).run skipFile chunks = some chunks := by
  have hfeed : (tdeInjector encryptedWal).feed skipFile chunks = some (skipFile, chunks) := by
    have hcontent := @Stage.feed_of_const _ _ _ (tdeInjector encryptedWal) skipFile chunks (fun c => [c])
      fun c hc => by simp only [tdeInjector, tdeInjectorContent, h c hc]
    rwa [List.flatMap_singleton'] at hcontent
  rw [Stage.run, hfeed, Option.bind_some]
  exact congrArg some (List.append_nil chunks)

end WalKeys

theorem appendConf_sized {m : ArchivedFile} (h : m.Sized) (conf : List UInt8) :
    (m.appendConf conf).Sized := by
  rw [ArchivedFile.appendConf]
  split
  · rw [ArchivedFile.Sized, List.length_append, h]
  · exact h

theorem injected_sized (pathname data : List UInt8) : (injected pathname data).Sized := rfl

theorem injectRecovery_sized {ms : List ArchivedFile} (h : ∀ m ∈ ms, m.Sized) (guc : Bool)
    (conf : List UInt8) : ∀ m ∈ injectRecovery guc conf ms, m.Sized := by
  intro m hm
  rw [injectRecovery] at hm
  split at hm
  · rcases List.mem_append.1 hm with hm | hm
    · rcases List.mem_append.1 hm with hm | hm
      · obtain ⟨m, hmem, rfl⟩ := List.mem_map.1 hm
        exact appendConf_sized (h m (List.mem_filter.1 hmem).1) conf
      · split at hm
        · cases hm
        · rw [List.mem_singleton.1 hm]
          exact injected_sized _ _
    · rw [List.mem_singleton.1 hm]
      exact injected_sized _ _
  · rcases List.mem_append.1 hm with hm | hm
    · exact h m (List.mem_filter.1 hm).1
    · rw [List.mem_singleton.1 hm]
      exact injected_sized _ _

/-- However an archive is split into chunks, what is passed on is the archive with the recovery configuration and
without the WAL keys of the source. Its members are still as long as they say. -/
theorem injectors_edit_archive (guc encryptedWal : Bool) (conf : List UInt8) {ms : List ArchivedFile}
    {t : List UInt8} {chunks : List Chunk} (h : Typed ms t chunks) :
    ∃ out, ((recoveryInjector guc conf).comp (tdeInjector encryptedWal)).run (.start, false) chunks = some out ∧
      Typed (withoutWalKeys encryptedWal (injectRecovery guc conf ms)) t out ∧
      ((∀ m ∈ ms, m.Sized) → ∀ m ∈ withoutWalKeys encryptedWal (injectRecovery guc conf ms), m.Sized) := by
  obtain ⟨out, hrun, htyped⟩ := @recoveryInjector_run guc conf .start ms t chunks h fun _ => rfl
  obtain ⟨out', hrun', htyped'⟩ := @tdeInjector_run encryptedWal false _ t out htyped
  refine ⟨out', ?_, htyped', fun hsized m hm => ?_⟩
  · rw [Stage.run_comp, hrun]
    exact hrun'
  · exact injectRecovery_sized hsized guc conf m (List.mem_filter.1 hm).1

end OpenPgTde
