import OpenPgTde.Lib.SlotLog
import OpenPgTde.Providers.File

/-!
Replay of the records of provider operations.

A standby replays the records onto the files it had before them; crash recovery replays them onto
files that have most of them already. Both end with the same files, wherever in the log the replay
starts. If the last write of a run failed after its record was written, replay makes up for it.
-/

namespace OpenPgTde

open Lib.Effect Lib.SlotArray Lib.SlotLog

variable {w : World} {s t u p q : Server}

/-! ### Runs and their records -/

/-- The provider operations one after the other; one that fails leaves what it has done so far. -/
def providerCalls (w : World) (ops : List ProviderOp) (s : Server) : Server :=
  ops.foldl (fun s op => after (op.exec w) s) s

/-- The record that is logged for a write. -/
def writeRecord (r : SlotRecord Oid KeyringProviderRecord) : XLogRecord :=
  .writeKeyProvider r.file r.slot r.value

/-- From `p` to `q` the writes `rs` were logged. All the slots in which the files differ are among
them, and none lies beyond the end of its file. -/
structure ProviderWrites (p q : Server) (rs : List (SlotRecord Oid KeyringProviderRecord)) : Prop where
  xlog : q.xlog = p.xlog ++ rs.map writeRecord
  fits : Fits p.providers rs
  grown : ∀ x, (p.providers x).length ≤ (q.providers x).length
  replayed : ∀ x, (q.providers x).length ≤ (replay p.providers rs x).length
  agree : ∀ x i, (∀ r ∈ rs, r.file = x → r.slot ≠ i) →
    (p.providers x)[i]? = (q.providers x)[i]?
  sysOk : p.SysOk → q.SysOk ∧ q.providers = replay p.providers rs

theorem ProviderWrites.refl (p : Server) : ProviderWrites p p [] :=
  ⟨by simp, trivial, fun _ => le_rfl, fun _ => le_rfl, fun _ _ _ => rfl, fun h => ⟨h, rfl⟩⟩

section Step

variable {rs : List (SlotRecord Oid KeyringProviderRecord)}
  {r : SlotRecord Oid KeyringProviderRecord}

/-- A step that logs nothing and leaves the files alone. -/
theorem ProviderWrites.quiet (h : ProviderWrites p q rs) (hp : t.providers = q.providers) (hx : t.xlog = q.xlog)
    (hok : q.SysOk → t.SysOk) : ProviderWrites p t rs where
  xlog := hx.trans h.xlog
  fits := h.fits
  grown x := by rw [hp]; exact h.grown x
  replayed x := by rw [hp]; exact h.replayed x
  agree x i hxi := by rw [hp]; exact h.agree x i hxi
  sysOk hs := ⟨hok (h.sysOk hs).1, by rw [hp]; exact (h.sysOk hs).2⟩

/-- The lengths of the files when one more write is replayed. -/
theorem ProviderWrites.length_le_replay (h : ProviderWrites p q rs) (hr : r.slot ≤ (q.providers r.file).length)
    (x : Oid) : (redo q.providers r x).length ≤ (replay p.providers (rs ++ [r]) x).length := by
  have hr' : r.slot ≤ (replay p.providers rs r.file).length := hr.trans (h.replayed r.file)
  rw [replay_append]
  show _ ≤ (redo (replay p.providers rs) r x).length
  rw [length_redo hr, length_redo hr']
  have := h.replayed x
  split <;> omega

/-- A write that was logged and not made. -/
theorem ProviderWrites.logged (h : ProviderWrites p q rs) (hr : r.slot ≤ (q.providers r.file).length)
    (hp : t.providers = q.providers) (hx : t.xlog = q.xlog ++ [writeRecord r]) (hbad : ¬p.SysOk) :
    ProviderWrites p t (rs ++ [r]) where
  xlog := by rw [hx, h.xlog, List.map_append, List.append_assoc]; rfl
  fits := fits_snoc.2 ⟨h.fits, hr.trans (h.replayed r.file)⟩
  grown x := by rw [hp]; exact h.grown x
  replayed x := by
    have hlen : (q.providers x).length ≤ (redo q.providers r x).length := by
      rw [length_redo hr]
      split <;> omega
    rw [hp]
    exact hlen.trans (h.length_le_replay hr x)
  agree x i hxi := by
    rw [hp]
    exact h.agree x i fun r' hr' => hxi r' (List.mem_append_left _ hr')
  sysOk hs := absurd hs hbad

/-- A write that was logged and made. -/
theorem ProviderWrites.written (h : ProviderWrites p q rs) (hr : r.slot ≤ (q.providers r.file).length)
    (hp : t.providers = redo q.providers r) (hx : t.xlog = q.xlog ++ [writeRecord r])
    (hok : q.SysOk → t.SysOk) : ProviderWrites p t (rs ++ [r]) where
  xlog := by rw [hx, h.xlog, List.map_append, List.append_assoc]; rfl
  fits := fits_snoc.2 ⟨h.fits, hr.trans (h.replayed r.file)⟩
  grown x := by
    rw [hp, length_redo hr]
    have := h.grown x
    split <;> omega
  replayed x := by rw [hp]; exact h.length_le_replay hr x
  agree x i hxi := by
    have hne : ¬(x = r.file ∧ i = r.slot) := fun hxr =>
      hxi r (by simp) hxr.1.symm hxr.2.symm
    rw [hp, getElem?_redo hr, if_neg hne]
    exact h.agree x i fun r' hr' => hxi r' (List.mem_append_left _ hr')
  sysOk hs := by
    obtain ⟨hq, hfiles⟩ := h.sysOk hs
    refine ⟨hok hq, ?_⟩
    rw [hp, hfiles, replay_append]
    rfl

end Step

/-- The slot of an operation is in its file or right behind it. -/
theorem SlotWrite.offset_le {dbOid : Oid} {file : List KeyringProviderRecord} {name : List UInt8}
    {offset : ℕ} {r : KeyringProviderRecord} (h : SlotWrite dbOid file name offset r) :
    offset ≤ file.length := by
  obtain ⟨ho, -⟩ | ⟨pre, old, post, hfile, ho, -⟩ := h.file_eq
  · omega
  · rw [hfile, List.length_append]
    omega

/-- One more operation. -/
theorem ProviderWrites.exec {rs : List (SlotRecord Oid KeyringProviderRecord)} (h : ProviderWrites p q rs)
    (op : ProviderOp) : ∃ rs', ProviderWrites p (after (op.exec w) q) (rs ++ rs') := by
  apply wp.after (P := fun t : Server => ∃ rs', ProviderWrites p t (rs ++ rs'))
  refine op.exec_spec.mono (fun _ t ht => ?_) fun _ t ht => ?_
  · obtain ⟨u, offset, r, hu, ⟨name, -, hw, -⟩, hq⟩ := ht
    have hle := hw.offset_le
    rw [← hu.providers] at hle
    have hqu : ProviderWrites p u rs := h.quiet hu.providers hu.xlog hu.sysOk
    refine ⟨[⟨op.dbOid, offset, r⟩], hqu.written hle ?_ ?_ fun hok => hq.sysOk hok⟩
    · rw [hq.providers]
      rfl
    · rw [hq.xlog]
      rfl
  · obtain ht | ⟨u, offset, r, hu, ⟨name, -, hw, -⟩, hf, hbad⟩ := ht
    · refine ⟨[], ?_⟩
      rw [List.append_nil]
      exact h.quiet ht.providers ht.xlog ht.sysOk
    · have hle := hw.offset_le
      rw [← hu.providers] at hle
      have hqu : ProviderWrites p u rs := h.quiet hu.providers hu.xlog hu.sysOk
      cases hf with
      | before hq =>
          refine ⟨[], ?_⟩
          rw [List.append_nil]
          exact hqu.quiet hq.providers hq.xlog hq.sysOk
      | logged hq =>
          refine ⟨[⟨op.dbOid, offset, r⟩], hqu.logged hle hq.providers hq.xlog fun hok => ?_⟩
          exact hbad (h.sysOk hok).1
      | written hq =>
          refine ⟨[⟨op.dbOid, offset, r⟩], hqu.written hle ?_ ?_ fun hok => hq.sysOk hok⟩
          · rw [hq.providers]
            rfl
          · rw [hq.xlog]
            rfl

theorem providerCalls_writes (ops : List ProviderOp) {rs : List (SlotRecord Oid KeyringProviderRecord)}
    (h : ProviderWrites p q rs) : ∃ rs', ProviderWrites p (providerCalls w ops q) rs' := by
  induction ops generalizing q rs with
  | nil => exact ⟨rs, h⟩
  | cons op ops ih =>
      obtain ⟨rs', h'⟩ := h.exec (w := w) op
      exact ih h'

/-! ### Replay -/

/-- Replay of the records of writes where no system call fails: it comes to its end, with the writes
made again. -/
theorem redo_replay (rs : List (SlotRecord Oid KeyringProviderRecord)) (hok : t.SysOk) :
    wp (forM (rs.map writeRecord) (tdeheapRmgrRedo w))
      (fun _ u => u.providers = replay t.providers rs) (fun _ _ => False) t := by
  induction rs generalizing t with
  | nil => exact rfl
  | cons r rs ih =>
      rw [List.map_cons, List.forM_cons]
      refine (wp_bind ..).2 ((redoKeyProviderInfo_spec r.file r.slot r.value).mono
        (fun _ u hu => ?_) fun _ u hu => hu.2 hok)
      have hp : u.providers = redo t.providers r := hu.providers
      refine (ih (hu.sysOk hok)).mono (fun _ v hv => ?_) fun _ _ h => h
      rw [hv, hp]
      rfl

/-- The records of the operations of any end of a run, replayed onto the files as they were before
them and onto the files as they are after them, give the same files; and if no system call failed in
the run, these are the files at its end. -/
theorem provider_records_replay (w : World) (s : Server) (ops ops' : List ProviderOp) :
    ∃ rs files, (providerCalls w ops' (providerCalls w ops s)).xlog =
        (providerCalls w ops s).xlog ++ rs ∧
      (∀ t : Server, t.SysOk → (t.providers = (providerCalls w ops s).providers ∨
          t.providers = (providerCalls w ops' (providerCalls w ops s)).providers) →
        wp (forM rs (tdeheapRmgrRedo w)) (fun _ u => u.providers = files) (fun _ _ => False) t) ∧
      (s.SysOk → files = (providerCalls w ops' (providerCalls w ops s)).providers) := by
  obtain ⟨rs₀, h₀⟩ := providerCalls_writes (w := w) ops (ProviderWrites.refl s)
  obtain ⟨rs, h⟩ := providerCalls_writes (w := w) ops' (ProviderWrites.refl (providerCalls w ops s))
  refine ⟨rs.map writeRecord, replay (providerCalls w ops s).providers rs, h.xlog,
    fun t hok ht => ?_, fun hok => ?_⟩
  · refine (redo_replay rs hok).mono (fun _ u hu => ?_) fun _ _ h => h
    rw [hu]
    obtain ht | ht := ht
    · rw [ht]
    · rw [ht]
      refine (replay_eq_of_agree h.fits (h.fits.mono h.grown) h.agree).symm
  · exact (h.sysOk (h₀.sysOk hok).1).2.symm

end OpenPgTde
