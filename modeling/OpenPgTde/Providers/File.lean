import OpenPgTde.Providers.Specs

/-!
The invariant of a provider file.

Principal-key headers refer to a provider by its id for ever, so an id must never come to mean
another provider. `ProviderFileOk` is what every sequence of operations keeps: the ids, those of the
deleted records included, are distinct and have the sign of their scope, and the names of the live
records are distinct. A record never moves and never changes its id, so the ids of a file are a
prefix of the ids of every later state of the file.
-/

namespace OpenPgTde

open Lib.Effect Lib.SlotArray

variable {w : World} {s t u : Server} {scope dbOid : Oid} {file : List KeyringProviderRecord}

/-! ### Files -/

def providerIds (file : List KeyringProviderRecord) : List ℤ := file.map (·.providerId)

/-- The names of the records that are not deleted. -/
def liveNames (file : List KeyringProviderRecord) : List (List UInt8) :=
  (file.filter (·.live)).map (·.providerName)

structure ProviderFileOk (dbOid : Oid) (file : List KeyringProviderRecord) : Prop where
  ids : (providerIds file).Nodup
  sign : ∀ r ∈ file, r.providerId ≠ 0 ∧ (r.providerId < 0 ↔ dbOid = globalDataTdeOid)
  bound : ∀ r ∈ file, r.providerId.natAbs ≤ pgInt32Max
  names : (liveNames file).Nodup

theorem ProviderFileOk.nil : ProviderFileOk dbOid [] :=
  ⟨List.nodup_nil, by simp, by simp, List.nodup_nil⟩

theorem le_foldl_max (file : List KeyringProviderRecord) (n : ℕ) :
    n ≤ file.foldl (fun n r => max n r.providerId.natAbs) n ∧
      ∀ r ∈ file, r.providerId.natAbs ≤ file.foldl (fun n r => max n r.providerId.natAbs) n := by
  induction file generalizing n with
  | nil => exact ⟨le_rfl, by simp⟩
  | cons a file ih =>
      obtain ⟨hn, hmem⟩ := ih (max n a.providerId.natAbs)
      refine ⟨(le_max_left _ _).trans hn, fun r hr => ?_⟩
      obtain rfl | hr := List.mem_cons.1 hr
      · exact (le_max_right _ _).trans hn
      · exact hmem r hr

theorem natAbs_le_maxProviderId {r : KeyringProviderRecord} (h : r ∈ file) :
    r.providerId.natAbs ≤ maxProviderId file :=
  (le_foldl_max file 0).2 r h

theorem maxProviderId_le {n : ℕ} (h : ∀ r ∈ file, r.providerId.natAbs ≤ n) :
    maxProviderId file ≤ n := by
  have key : ∀ m, m ≤ n → file.foldl (fun n r => max n r.providerId.natAbs) m ≤ n := by
    induction file with
    | nil => exact fun m hm => hm
    | cons a file ih =>
        intro m hm
        exact ih (fun r hr => h r (List.mem_cons_of_mem a hr)) _
          (max_le hm (h a List.mem_cons_self))
  exact key 0 n.zero_le

@[simp] theorem providerIds_append (file file' : List KeyringProviderRecord) :
    providerIds (file ++ file') = providerIds file ++ providerIds file' := List.map_append

@[simp] theorem providerIds_cons (r : KeyringProviderRecord) (file : List KeyringProviderRecord) :
    providerIds (r :: file) = r.providerId :: providerIds file := rfl

@[simp] theorem liveNames_append (file file' : List KeyringProviderRecord) :
    liveNames (file ++ file') = liveNames file ++ liveNames file' := by
  simp [liveNames]

theorem liveNames_cons_live {r : KeyringProviderRecord} (h : r.live = true)
    (file : List KeyringProviderRecord) : liveNames (r :: file) = r.providerName :: liveNames file := by
  simp [liveNames, h]

theorem liveNames_cons_erased (r : KeyringProviderRecord) (file : List KeyringProviderRecord) :
    liveNames (r.erased :: file) = liveNames file := by
  simp [liveNames, KeyringProviderRecord.live, KeyringProviderRecord.erased]

theorem named_iff {name : List UInt8} {r : KeyringProviderRecord} :
    Named name r = true ↔ r.live = true ∧ r.providerName = name := by
  simp [Named]

/-! ### One write -/

/-- What a write makes of a file. -/
theorem SlotWrite.file_eq {name : List UInt8} {offset : ℕ} {r : KeyringProviderRecord}
    (h : SlotWrite dbOid file name offset r) :
    (offset = file.length ∧ writeAt file offset r = file ++ [r]) ∨
      ∃ pre old post, file = pre ++ old :: post ∧ offset = pre.length ∧ Named name old = true ∧
        r.providerId = old.providerId ∧ writeAt file offset r = pre ++ r :: post := by
  cases h with
  | add => exact .inl ⟨rfl, writeAt_length file r⟩
  | change hfile hnamed _ _ hid =>
      subst hfile
      exact .inr ⟨_, _, _, rfl, rfl, hnamed, hid, writeAt_append ..⟩
  | erase hfile hnamed _ =>
      subst hfile
      exact .inr ⟨_, _, _, rfl, rfl, hnamed, rfl, writeAt_append ..⟩

/-- A record keeps its place and its id. -/
theorem SlotWrite.ids_prefix {name : List UInt8} {offset : ℕ} {r : KeyringProviderRecord}
    (h : SlotWrite dbOid file name offset r) :
    providerIds file <+: providerIds (writeAt file offset r) := by
  obtain ⟨-, hw⟩ | ⟨pre, old, post, hfile, -, -, hid, hw⟩ := h.file_eq
  · rw [hw, providerIds_append]
    exact List.prefix_append _ _
  · rw [hw, hfile]
    simp [hid]

/-- The id of a new record is new, has the sign of the scope and is in the range of ids. -/
theorem ProviderFileOk.add {r : KeyringProviderRecord} (hf : ProviderFileOk dbOid file)
    (hlive : r.live = true) (hnew : ∀ r' ∈ file, Named r.providerName r' = false)
    (hmax : maxProviderId file ≠ pgInt32Max)
    (hid : r.providerId = if dbOid = globalDataTdeOid then -(maxProviderId file + 1 : ℤ)
      else maxProviderId file + 1) : ProviderFileOk dbOid (file ++ [r]) := by
  have habs : r.providerId.natAbs = maxProviderId file + 1 := by
    rw [hid]
    split <;> omega
  have hle : maxProviderId file ≤ pgInt32Max := maxProviderId_le hf.bound
  refine ⟨?_, fun r' hr' => ?_, fun r' hr' => ?_, ?_⟩
  · rw [providerIds_append, List.nodup_append]
    refine ⟨hf.ids, by simp [providerIds], fun a ha b hb heq => ?_⟩
    obtain ⟨r', hr', rfl⟩ := List.mem_map.1 ha
    obtain rfl : b = r.providerId := by simpa [providerIds] using hb
    have hr'' := natAbs_le_maxProviderId hr'
    rw [heq, habs] at hr''
    omega
  · obtain hr' | hr' := List.mem_append.1 hr'
    · exact hf.sign r' hr'
    · obtain rfl : r' = r := by simpa using hr'
      rw [hid]
      split <;> refine ⟨by omega, ?_⟩
      · next h => exact ⟨fun _ => h, fun _ => by omega⟩
      · next h => exact ⟨fun _ => by omega, fun h' => absurd h' h⟩
  · obtain hr' | hr' := List.mem_append.1 hr'
    · exact hf.bound r' hr'
    · obtain rfl : r' = r := by simpa using hr'
      omega
  · rw [liveNames_append, List.nodup_append]
    refine ⟨hf.names, by simp [liveNames, hlive], fun a ha b hb heq => ?_⟩
    obtain ⟨r', hr', rfl⟩ := List.mem_map.1 ha
    obtain ⟨hr', hl'⟩ := List.mem_filter.1 hr'
    obtain rfl : b = r.providerName := by simpa [liveNames, hlive] using hb
    have hno := hnew r' hr'
    rw [Bool.eq_false_iff] at hno
    exact hno (named_iff.2 ⟨hl', heq⟩)

/-- Overwriting a record by one of the same id, with the same name or erased, keeps the file in
order. -/
theorem ProviderFileOk.replace {pre post : List KeyringProviderRecord}
    {old r : KeyringProviderRecord} (hf : ProviderFileOk dbOid (pre ++ old :: post))
    (hid : r.providerId = old.providerId)
    (hnames : (liveNames (r :: post)).Sublist (liveNames (old :: post))) :
    ProviderFileOk dbOid (pre ++ r :: post) := by
  have hmem : ∀ r' ∈ pre ++ r :: post, ∃ r'' ∈ pre ++ old :: post, r'.providerId = r''.providerId := by
    intro r' hr'
    obtain hr' | hr' := List.mem_append.1 hr'
    · exact ⟨r', by simp [hr'], rfl⟩
    · obtain rfl | hr' := List.mem_cons.1 hr'
      · exact ⟨old, by simp, hid⟩
      · exact ⟨r', by simp [hr'], rfl⟩
  refine ⟨?_, fun r' hr' => ?_, fun r' hr' => ?_, ?_⟩
  · have := hf.ids
    simpa [hid] using this
  · obtain ⟨r'', hr'', heq⟩ := hmem r' hr'
    rw [heq]
    exact hf.sign r'' hr''
  · obtain ⟨r'', hr'', heq⟩ := hmem r' hr'
    rw [heq]
    exact hf.bound r'' hr''
  · have := hf.names
    rw [liveNames_append] at this ⊢
    exact this.sublist ((List.Sublist.refl _).append hnames)

theorem SlotWrite.fileOk {name : List UInt8} {offset : ℕ} {r : KeyringProviderRecord}
    (h : SlotWrite dbOid file name offset r) (hf : ProviderFileOk dbOid file) :
    ProviderFileOk dbOid (writeAt file offset r) := by
  cases h with
  | add hlive hname hnew hmax hid =>
      subst hname
      rw [writeAt_length]
      exact hf.add hlive hnew hmax hid
  | @change pre post old _ hfile hnamed hlive hname hid =>
      subst hfile
      rw [writeAt_append]
      obtain ⟨hlold, hnold⟩ := named_iff.1 hnamed
      refine hf.replace hid ?_
      rw [liveNames_cons_live hlive, liveNames_cons_live hlold, hname, hnold]
  | @erase pre post old hfile hnamed _ =>
      subst hfile
      rw [writeAt_append]
      refine hf.replace rfl ?_
      rw [liveNames_cons_erased, liveNames_cons_live (named_iff.1 hnamed).1]
      exact List.sublist_cons_self _ _

/-- In a file in order, a live record is what its id leads to. -/
theorem ProviderFileOk.getKeyProviderByID_iff {files : Oid → List KeyringProviderRecord} {id : ℤ}
    {r : KeyringProviderRecord} (hf : ProviderFileOk scope (files scope))
    (hs : providerScope id dbOid = scope) :
    getKeyProviderByID files id dbOid = some r ↔
      r ∈ files scope ∧ r.live = true ∧ r.providerId = id := by
  constructor
  · intro h
    have hmem := List.mem_of_mem_head? (Option.mem_def.2 h)
    rw [hs, scanKeyProviderFile, List.mem_filter] at hmem
    simpa [KeyringProviderRecord.live] using hmem
  · rintro ⟨hmem, hlive, hid⟩
    refine getKeyProviderByID_of_mem (by rw [hs]; exact hf.ids) (by rw [hs]; exact hmem) hid ?_
    simpa [KeyringProviderRecord.live] using hlive

/-! ### Runs -/

/-- A run of provider operations. Between them anything may happen to the rest of the server. -/
inductive ProviderEvent
  | call (op : ProviderOp)
  | elsewhere (t : Server)

def ProviderEvent.exec (w : World) : ProviderEvent → Server → Server
  | call op, s => after (op.exec w) s
  | elsewhere t, s => { t with providers := s.providers }

def providerRun (w : World) (es : List ProviderEvent) (s : Server) : Server :=
  es.foldl (fun s e => e.exec w s) s

/-- What an operation can make of the file of a scope. -/
inductive FileStep (op : ProviderOp) (scope : Oid) (before : List KeyringProviderRecord) :
    List KeyringProviderRecord → Prop
  | unchanged : FileStep op scope before before
  | added {c : ProviderCall} {r : KeyringProviderRecord} : op = .add c scope → r.live = true →
      c.providerName = some r.providerName → FileStep op scope before (before ++ [r])
  | changed {c : ProviderCall} {pre post : List KeyringProviderRecord}
      {old r : KeyringProviderRecord} : op = .change c scope → before = pre ++ old :: post →
      old.live = true → c.providerName = some old.providerName → r.live = true →
      r.providerName = old.providerName → r.providerId = old.providerId →
      FileStep op scope before (pre ++ r :: post)
  | deleted {c : ProviderCall} {pre post : List KeyringProviderRecord}
      {old : KeyringProviderRecord} : op = .delete c scope → before = pre ++ old :: post →
      old.live = true → c.providerName = some old.providerName →
      FileStep op scope before (pre ++ old.erased :: post)

theorem ProviderOp.Writes.fileStep {op : ProviderOp} {offset : ℕ} {r : KeyringProviderRecord}
    (h : op.Writes file offset r) : FileStep op op.dbOid file (writeAt file offset r) := by
  obtain ⟨name, hname, hw, hkind⟩ := h
  cases op with
  | add c dbOid =>
      cases hw with
      | add hlive hr =>
          rw [writeAt_length]
          exact .added rfl hlive (by rw [hr]; exact hname)
      | change hfile =>
          rw [hfile, List.length_append, List.length_cons] at hkind
          omega
      | erase hfile =>
          rw [hfile, List.length_append, List.length_cons] at hkind
          omega
  | change c dbOid =>
      cases hw with
      | add => exact absurd hkind.2 (lt_irrefl _)
      | change hfile hnamed hlive hr hid =>
          obtain ⟨hlold, hnold⟩ := named_iff.1 hnamed
          subst hfile
          rw [writeAt_append]
          exact .changed rfl rfl hlold (by rw [hnold]; exact hname) hlive (by rw [hr, hnold]) hid
      | erase => cases hkind.1
  | delete c dbOid =>
      cases hw with
      | add hlive => rw [hlive] at hkind; cases hkind
      | change _ _ hlive => rw [hlive] at hkind; cases hkind
      | erase hfile hnamed =>
          obtain ⟨hlold, hnold⟩ := named_iff.1 hnamed
          subst hfile
          rw [writeAt_append]
          exact .deleted rfl rfl hlold (by rw [hnold]; exact hname)

/-- After an operation the files are as before, or one slot is written. -/
theorem ProviderOp.exec_providers (op : ProviderOp) (s : Server) :
    (after (op.exec w) s).providers = s.providers ∨
      ∃ offset r, op.Writes (s.providers op.dbOid) offset r ∧
        (after (op.exec w) s).providers = Function.update s.providers op.dbOid
          (writeAt (s.providers op.dbOid) offset r) := by
  apply wp.after (P := fun t : Server => t.providers = s.providers ∨
    ∃ offset r, op.Writes (s.providers op.dbOid) offset r ∧
      t.providers = Function.update s.providers op.dbOid (writeAt (s.providers op.dbOid) offset r))
  refine op.exec_spec.mono (fun _ t ht => ?_) fun _ t ht => ?_
  · obtain ⟨u, offset, r, hu, hw, hq⟩ := ht
    refine .inr ⟨offset, r, hw, ?_⟩
    rw [hq.providers, ← hu.providers]
    rfl
  · obtain ht | ⟨u, offset, r, hu, hw, hf, -⟩ := ht
    · exact .inl ht.providers
    · cases hf with
      | before hq => exact .inl (hq.providers.trans hu.providers)
      | logged hq => exact .inl (hq.providers.trans hu.providers)
      | written hq =>
          refine .inr ⟨offset, r, hw, ?_⟩
          rw [hq.providers, ← hu.providers]
          rfl

theorem ProviderOp.exec_fileStep (op : ProviderOp) (s : Server) (scope : Oid) :
    FileStep op scope (s.providers scope) ((after (op.exec w) s).providers scope) := by
  obtain h | ⟨offset, r, hw, h⟩ := op.exec_providers (w := w) s
  · rw [h]
    exact .unchanged
  · rw [h]
    by_cases hs : scope = op.dbOid
    · subst hs
      rw [Function.update_self]
      exact hw.fileStep
    · rw [Function.update_of_ne hs]
      exact .unchanged

/-- One event keeps the file in order and the ids where they are. -/
theorem ProviderEvent.exec_fileOk (e : ProviderEvent) (hf : ProviderFileOk scope (s.providers scope)) :
    ProviderFileOk scope ((e.exec w s).providers scope) ∧
      providerIds (s.providers scope) <+: providerIds ((e.exec w s).providers scope) := by
  cases e with
  | elsewhere t => exact ⟨hf, List.prefix_rfl⟩
  | call op =>
      rw [ProviderEvent.exec]
      obtain h | ⟨offset, r, ⟨name, -, hw, -⟩, h⟩ := op.exec_providers (w := w) s
      · rw [h]
        exact ⟨hf, List.prefix_rfl⟩
      · rw [h]
        by_cases hs : scope = op.dbOid
        · subst hs
          rw [Function.update_self]
          exact ⟨hw.fileOk hf, hw.ids_prefix⟩
        · rw [Function.update_of_ne hs]
          exact ⟨hf, List.prefix_rfl⟩

theorem providerRun_fileOk (es : List ProviderEvent)
    (hf : ProviderFileOk scope (s.providers scope)) :
    ProviderFileOk scope ((providerRun w es s).providers scope) ∧
      providerIds (s.providers scope) <+: providerIds ((providerRun w es s).providers scope) := by
  induction es generalizing s with
  | nil => exact ⟨hf, List.prefix_rfl⟩
  | cons e es ih =>
      obtain ⟨hf', hp⟩ := e.exec_fileOk (w := w) hf
      obtain ⟨hok, hp'⟩ := ih hf'
      exact ⟨hok, hp.trans hp'⟩

/-- In every state of every run the ids of a file are distinct and signed by the scope, the live
names are distinct, and an id leads to the live record that has it; a record keeps its place and its
id for ever, and an operation touches at most the record of exactly its name. -/
theorem provider_file_invariant (w : World) (s : Server) (scope : Oid)
    (hs : s.providers scope = []) (es : List ProviderEvent) :
    (providerIds ((providerRun w es s).providers scope)).Nodup ∧
    (∀ r ∈ (providerRun w es s).providers scope,
      r.providerId ≠ 0 ∧ (r.providerId < 0 ↔ scope = globalDataTdeOid)) ∧
    (liveNames ((providerRun w es s).providers scope)).Nodup ∧
    (∀ es', providerIds ((providerRun w es s).providers scope) <+:
      providerIds ((providerRun w es' (providerRun w es s)).providers scope)) ∧
    (∀ op : ProviderOp, FileStep op scope ((providerRun w es s).providers scope)
      ((after (op.exec w) (providerRun w es s)).providers scope)) ∧
    (∀ id dbOid, providerScope id dbOid = scope → ∀ r,
      getKeyProviderByID (providerRun w es s).providers id dbOid = some r ↔
        r ∈ (providerRun w es s).providers scope ∧ r.live = true ∧ r.providerId = id) := by
  have hnil : ProviderFileOk scope (s.providers scope) := by
    rw [hs]
    exact ProviderFileOk.nil
  have hf := (providerRun_fileOk (w := w) es hnil).1
  refine ⟨hf.ids, hf.sign, hf.names, fun es' => ?_, fun op => ?_, fun id dbOid hid r => ?_⟩
  · exact (providerRun_fileOk es' hf).2
  · exact op.exec_fileStep _ scope
  · exact hf.getKeyProviderByID_iff hid

/-- A call for a file provider of this name. -/
def sampleProviderCall (name : List UInt8) : ProviderCall :=
  ⟨true, some [102, 105, 108, 101], some name, some [], true, true⟩

/-- Providers `A` and `a`; then `A` is deleted and added again. -/
def sampleProviderEvents : List ProviderEvent :=
  [.call (.add (sampleProviderCall [65]) 5), .call (.add (sampleProviderCall [97]) 5),
    .call (.delete (sampleProviderCall [65]) 5), .call (.add (sampleProviderCall [65]) 5)]

theorem provider_file_invariant_readded :
    sampleServer.providers 5 = [] ∧
    providerIds ((providerRun sampleWorld sampleProviderEvents sampleServer).providers 5) =
      [1, 2, 3] ∧
    (providerIds ((providerRun sampleWorld sampleProviderEvents sampleServer).providers 5)).Nodup :=
  ⟨by decide, by decide +kernel,
    (provider_file_invariant sampleWorld sampleServer 5 (by decide) sampleProviderEvents).1⟩

end OpenPgTde
