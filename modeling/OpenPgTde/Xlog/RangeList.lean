import Mathlib.Data.List.Nodup
import OpenPgTde.Xlog.Runs

/-!
The list of WAL ranges, in the key file and in the memory of the processes.

An entry of the file is created at the start of the server and given its start by a write, wherever
that write is. What keeps the starts in order is that the write compares its location with the last
range that its process knows, and that no process can lack a range as long as the new one has no
start. A list in memory is the list of the file, or that list without its last range, with the ends
filled in.
-/

namespace OpenPgTde

open Lib.Effect Lib.Breakpoints

/-! ### Well-formed lists -/

/-- The entries of the file that are not marked and have a start, in file order. -/
def countedEntries (s : Server) : List WalKeyFileEntry :=
  (walEntries s).filter fun e => e.rangeType ≠ .invalid && walLocationValid e.rangeStart

/-- The list of a process: no entry twice, the starts increase, each entry ends where the next one
starts, and the last one at the maximum. -/
structure ListFormed (cache : List WalEncryptionRange) : Prop where
  nodup : cache.Nodup
  follow : cache.IsChain fun r r' => r.start < r'.start ∧ r.stop = r'.start
  last : ∀ r ∈ cache.getLast?, r.stop = maxWalLocation

/-- Where entry `i` of the file starts; an entry that is not there yet has no start. -/
def startAt (s : Server) (i : ℕ) : WalLocation := (walStarts s)[i]?.getD invalidWalLocation

/-- The timeline of a write is one of 32 bits. -/
def WalOp.Typed : WalOp → Prop
  | write _ a _ _ => a.tli < 2 ^ 32
  | _ => True

def WalOp.isStart : WalOp → Bool
  | start .. => true
  | _ => false

variable {w : World} {aes : BlockCipher} {sz : WalSegSz} {y : WalSystem} {s t u : Server}
  {x : WalState}

theorem chain_formed {ranges : List WalEncryptionRange} (h : Increasing (·.start) ranges) :
    ListFormed (chain ranges) := by
  have hfollow : (chain ranges).IsChain fun r r' => r.start < r'.start ∧ r.stop = r'.start :=
    (List.isChain_map _).2 (h.isChain_spans maxWalLocation)
  refine ⟨?_, hfollow, fun r hr => ?_⟩
  · have hlt : (chain ranges).IsChain fun r r' => r.start < r'.start :=
      hfollow.imp fun _ _ h => h.1
    have htrans : IsTrans WalEncryptionRange fun r r' => r.start < r'.start :=
      ⟨fun _ _ _ h h' => h.trans h'⟩
    refine hlt.pairwise.imp fun {r r'} h heq => ?_
    rw [heq] at h
    exact lt_irrefl _ h
  · rw [chain, List.getLast?_map] at hr
    obtain ⟨z, hz, rfl⟩ := Option.map_eq_some_iff.1 hr
    exact getLast?_spans hz

theorem ProcessOk.listFormed {p : WalProcess} {encKey : WalLocation} (h : ProcessOk w s encKey p)
    (hinc : Increasing (·.start) (walRanges w s)) : ListFormed p.cache := by
  obtain (hc | ⟨-, hc⟩) | ⟨ranges, r, hr, -, hc⟩ := h.cache
  · rw [hc]
    exact chain_formed hinc
  · rw [hc]
    exact ⟨List.nodup_singleton _, .singleton _, fun r hr => by cases hr; rfl⟩
  · rw [hr] at hinc
    rw [hc]
    exact chain_formed (List.pairwise_append.1 hinc).1

/-- The ranges with a start are those of the entries that count. -/
theorem WalFileOk.map_start_walRanges (hs : WalFileOk w s) :
    (walRanges w s).map (·.start) = (countedEntries s).map (·.rangeStart) := by
  by_cases hne : walEntries s = []
  · rw [walRanges_of_nil hne, countedEntries, hne]
    rfl
  obtain ⟨info, k, -, hk, -⟩ := hs.exists_key hne
  have hfilter : countedEntries s = (walEntries s).filter (isFetched firstWalLocation) := by
    refine List.filter_congr fun e _ => ?_
    rw [Bool.eq_iff_iff, isFetched_first]
    simp
  rw [walRanges, hk, hfilter]
  dsimp only [rangesFrom]
  rw [List.map_filterMap]
  refine List.filterMap_eq_map_iff_forall_eq_some.2 fun e he => ?_
  obtain ⟨hmem, hfetch⟩ := List.mem_filter.1 he
  obtain ⟨key, hkey, -⟩ := (hs.stamped k hk e hmem).unwrap (isFetched_first.1 hfetch).1
  simp [walRangeOfEntry, hkey]

theorem WalFileOk.countedEntries_pairwise (hs : WalFileOk w s)
    (hinc : Increasing (·.start) (walRanges w s)) :
    (countedEntries s).Pairwise fun e e' => e.rangeStart < e'.rangeStart := by
  have hpair : ((walRanges w s).map (·.start)).Pairwise (· < ·) := List.pairwise_map.2 hinc
  rw [hs.map_start_walRanges] at hpair
  exact List.pairwise_map.1 hpair

/-! ### Steps -/

/-- Only the last of the entries is given another start. -/
def LastStart (s t : Server) : Prop :=
  walStarts t = walStarts s ∨
    walStarts s ≠ [] ∧ ∃ loc, walStarts t = (walStarts s).dropLast ++ [loc]

theorem LastStart.length (h : LastStart s t) : (walStarts t).length = (walStarts s).length := by
  obtain h | ⟨hne, loc, h⟩ := h
  · rw [h]
  · have := List.length_pos_of_ne_nil hne
    rw [h, List.length_append, List.length_dropLast]
    simp
    omega

theorem LastStart.startAt_eq (h : LastStart s t) {i : ℕ} (hi : i + 1 ≠ (walStarts s).length) :
    startAt t i = startAt s i := by
  unfold startAt
  congr 1
  obtain hlt | hge := Nat.lt_or_ge (i + 1) (walStarts s).length
  · obtain h | ⟨-, loc, h⟩ := h
    · rw [h]
    · rw [h, List.getElem?_append_left (by rw [List.length_dropLast]; omega),
        List.getElem?_dropLast, if_pos (by omega)]
  · rw [List.getElem?_eq_none (by rw [h.length]; omega), List.getElem?_eq_none (by omega)]

theorem WalStep.lastStart {encKey encKey' : WalLocation} (h : WalStep w s encKey t encKey') :
    LastStart s t := by
  cases h with
  | kept hk _ => exact .inl hk.starts
  | located r _ h₂ _ _ _ _ _ h₈ =>
      refine .inr ⟨fun hnil => walEntries_ne_nil_of_lastRange h₂ ?_, _, h₈⟩
      exact List.map_eq_nil_iff.1 hnil

theorem location_le_max {a : SegPos} (h : a.tli < 2 ^ 32) : a.location sz ≤ maxWalLocation := by
  have hlsn : (a.location sz).lsn < 2 ^ 64 := Nat.mod_lt _ (by decide)
  have htli : (a.location sz).tli = a.tli := rfl
  rw [WalLocation.le_iff, htli]
  simp only [maxWalLocation]
  omega

theorem xLogCryptBuffer_refreshed (h : x.Ok w) (a : SegPos) (inPlace : Bool) (buf : List UInt8) :
    wp (xLogCryptBuffer w aes sz a inPlace buf) (fun _ y => Refreshed w x y)
      (fun _ y => Refreshed w x y) x := by
  refine (wp_bind ..).2 ((refreshWalKeys_spec h).mono (fun _ y hy => ?_) fun _ _ hy => hy)
  simp only [wp_bind, wp_get, wp_pure]
  exact hy.1

/-- A write at any location. -/
theorem tdeheapXlogSegWrite_stepped (h : x.Ok w) {a : SegPos} (ha : a.tli < 2 ^ 32)
    (crashRecovery : Bool) (buf : List UInt8) :
    wp (tdeheapXlogSegWrite w aes sz a crashRecovery buf) (fun _ y => Stepped w x y)
      (fun _ y => Stepped w x y) x := by
  refine (wp_bind ..).2 ((ensureXlogKeyLocation_spec h (location_le_max ha) crashRecovery).mono
    (fun usable y hy => ?_) fun _ _ hy => hy.1)
  simp only [wp_bind, wp_get, wp_ite, wp_pure]
  refine ⟨fun _ => ?_, fun _ => ⟨fun _ => hy.1, fun _ => hy.1⟩⟩
  exact (xLogCryptBuffer_refreshed hy.1.1 a false buf).mono (fun _ z hz => hy.1.refreshed hz)
    fun _ z hz => hy.1.refreshed hz

theorem WalSystem.Formed.write (h : y.Formed w) (pid : ℕ) {a : SegPos} (ha : a.tli < 2 ^ 32)
    (crashRecovery : Bool) (buf : List UInt8) :
    (y.write w aes sz pid a crashRecovery buf).Formed w ∧
      LastStart y.server (y.write w aes sz pid a crashRecovery buf).server := by
  unfold WalSystem.write
  cases hp : y.procs pid with
  | none => exact ⟨h, .inl rfl⟩
  | some p =>
      have hspec : wp (tdeheapXlogSegWrite w aes sz a crashRecovery buf) _ _ (y.view p) :=
        tdeheapXlogSegWrite_stepped (h.running pid p hp) ha crashRecovery buf
      dsimp only
      cases hrun : tdeheapXlogSegWrite w aes sz a crashRecovery buf (y.view p) with
      | ok bytes x =>
          have hx := hspec.of_ok hrun
          exact ⟨(h.stepped hx pid).congr rfl rfl rfl, hx.2.lastStart⟩
      | error e x =>
          have hx := hspec.of_error hrun
          exact ⟨(h.stepped hx pid).congr rfl rfl rfl, hx.2.lastStart⟩

theorem WalSystem.Formed.read (h : y.Formed w) (pid : ℕ) (a : SegPos) (count : ℕ) :
    (y.read w aes sz pid a count).Formed w ∧
      LastStart y.server (y.read w aes sz pid a count).server := by
  unfold WalSystem.read
  cases hp : y.procs pid with
  | none => exact ⟨h, .inl rfl⟩
  | some p =>
      dsimp only
      generalize (List.range count).map (fun i => y.disk (a.advance i)) = buf
      have hspec : wp (tdeheapXlogSegRead w aes sz a buf) _ _ (y.view p) :=
        xLogCryptBuffer_refreshed (h.running pid p hp) a true buf
      cases hrun : tdeheapXlogSegRead w aes sz a buf (y.view p) with
      | ok bytes x =>
          have hx := (hspec.of_ok hrun).stepped
          exact ⟨(h.stepped hx pid).congr rfl rfl rfl, hx.2.lastStart⟩
      | error e x =>
          have hx := (hspec.of_error hrun).stepped
          exact ⟨h.stepped hx pid, hx.2.lastStart⟩

theorem WalOp.exec_formed (aes : BlockCipher) (sz : WalSegSz) (op : WalOp) (hop : op.Typed) (h : y.Formed w) :
    (op.exec w aes sz y).Formed w ∧
      (op.isStart = false → LastStart y.server (op.exec w aes sz y).server) := by
  cases op with
  | start r soft encryptXlog keyLen =>
      exact ⟨(h.start r soft encryptXlog keyLen).1, fun hs => by cases hs⟩
  | fork parent child =>
      obtain ⟨hformed, hserver⟩ := h.fork parent child
      exact ⟨hformed, fun _ => .inl (congrArg walStarts hserver)⟩
  | execChild child encryptXlog keyLen =>
      obtain ⟨hformed, hkept⟩ := h.execChild child encryptXlog keyLen
      exact ⟨hformed, fun _ => .inl hkept.starts⟩
  | write pid a crashRecovery buf =>
      obtain ⟨hformed, hlast⟩ := h.write pid hop crashRecovery buf
      exact ⟨hformed, fun _ => hlast⟩
  | read pid a count =>
      obtain ⟨hformed, hlast⟩ := h.read pid a count
      exact ⟨hformed, fun _ => hlast⟩

/-! ### Runs -/

theorem walRun_formed (aes : BlockCipher) (sz : WalSegSz) (ops : List WalOp) (hops : ∀ op ∈ ops, op.Typed) (h : y.Formed w) :
    (walRun w aes sz ops y).Formed w := by
  induction ops generalizing y with
  | nil => exact h
  | cons op ops ih =>
      exact ih (fun op' hop' => hops op' (List.mem_cons_of_mem op hop'))
        (op.exec_formed aes sz (hops op List.mem_cons_self) h).1

/-- As long as the server runs, no entry but the last one is given another start. -/
theorem walRun_startAt (ops : List WalOp) (hops : ∀ op ∈ ops, op.Typed)
    (hrun : ∀ op ∈ ops, op.isStart = false) (h : y.Formed w) {i : ℕ}
    (hi : i + 1 ≠ (walStarts y.server).length) :
    startAt (walRun w aes sz ops y).server i = startAt y.server i := by
  induction ops generalizing y with
  | nil => rfl
  | cons op ops ih =>
      obtain ⟨hformed, hlast⟩ := op.exec_formed aes sz
        (hops op List.mem_cons_self) h
      have hstep := hlast (hrun op List.mem_cons_self)
      have hrest := ih (fun op' hop' => hops op' (List.mem_cons_of_mem op hop'))
        (fun op' hop' => hrun op' (List.mem_cons_of_mem op hop')) hformed
        (by rw [hstep.length]; exact hi)
      exact hrest.trans (hstep.startAt_eq hi)

/-- The start of the server gives no entry a start. -/
theorem FileStarted.startAt_eq (h : FileStarted w s t) (i : ℕ) : startAt t i = startAt s i := by
  unfold startAt
  obtain heq | heq := h.2.2
  · rw [heq]
  · rw [heq, List.getElem?_append]
    split
    · rfl
    · next hi =>
        rw [List.getElem?_eq_none (not_lt.1 hi), List.getElem?_singleton]
        split <;> rfl

/-- The list of ranges stays well-formed. In every run of starts, children, writes at any locations
and reads, the entries of the file that count are in order and the list of every process is formed;
and from one start of the server to the next there is at most one entry whose start changes. -/
theorem wal_range_list_formed (w : World) (aes : BlockCipher) (sz : WalSegSz) (y : WalSystem)
    (hy : y.Fresh w) (ops : List WalOp) (hops : ∀ op ∈ ops, op.Typed) :
    ((countedEntries (walRun w aes sz ops y).server).Pairwise
      fun e e' => e.rangeStart < e'.rangeStart) ∧
    (∀ pid p, (walRun w aes sz ops y).procs pid = some p → ListFormed p.cache) ∧
    ∀ before r soft encryptXlog keyLen run,
      ops = before ++ .start r soft encryptXlog keyLen :: run →
      (∀ op ∈ run, op.isStart = false) →
      ∃ n, ∀ k i, i ≠ n →
        startAt (walRun w aes sz (before ++ .start r soft encryptXlog keyLen :: run.take k)
          y).server i = startAt (walRun w aes sz before y).server i := by
  have hformed := walRun_formed aes sz ops hops hy.formed
  refine ⟨hformed.fileOk.countedEntries_pairwise hformed.increasing, fun pid p hp => ?_, ?_⟩
  · exact (hformed.running pid p hp).process.listFormed hformed.increasing
  · rintro before r soft encryptXlog keyLen run rfl hrun
    have hbefore := walRun_formed aes sz before
      (fun op hop => hops op (List.mem_append_left _ hop)) hy.formed
    obtain ⟨hstart, hfile⟩ := hbefore.start r soft encryptXlog keyLen
    refine ⟨(walStarts ((walRun w aes sz before y).start w r soft encryptXlog keyLen).server).length
      - 1, fun k i hi => ?_⟩
    have hsplit : walRun w aes sz (before ++ .start r soft encryptXlog keyLen :: run.take k) y =
        walRun w aes sz (run.take k)
          ((walRun w aes sz before y).start w r soft encryptXlog keyLen) := by
      rw [walRun, List.foldl_append]
      rfl
    rw [hsplit]
    refine (walRun_startAt _ (fun op hop => ?_) (fun op hop => hrun op (List.mem_of_mem_take hop))
      hstart (by omega)).trans (hfile.startAt_eq i)
    exact hops op (by simp [List.mem_of_mem_take hop])

/-- Two runs of the server. In the first one a write at the position that stands for none is followed
by another one. -/
def sampleTwoRuns : List WalOp :=
  [.start (sampleRestart fun _ => true) false true 16, .fork 0 1, .write 0 ⟨1, 0, 0⟩ false [7],
    .write 0 ⟨1, 1, 16⟩ false [7], .read 1 ⟨1, 1, 16⟩ 1,
    .start (sampleRestart fun _ => true) false true 16, .write 0 ⟨2, 1, 0⟩ false [7]]

theorem wal_range_list_formed_two_runs :
    (countedEntries (walRun sampleWorld (fun _ _ _ => 1) sampleSegSz sampleTwoRuns
      sampleSystem).server).map (·.rangeStart) = [⟨2 ^ 20 + 16, 1⟩, ⟨2 ^ 20, 2⟩] ∧
    (countedEntries (walRun sampleWorld (fun _ _ _ => 1) sampleSegSz sampleTwoRuns
      sampleSystem).server).Pairwise fun e e' => e.rangeStart < e'.rangeStart := by
  refine ⟨by decide +kernel, (wal_range_list_formed sampleWorld (fun _ _ _ => 1) sampleSegSz
    sampleSystem sampleSystem_fresh sampleTwoRuns ?_).1⟩
  simp [sampleTwoRuns, WalOp.Typed]

end OpenPgTde
