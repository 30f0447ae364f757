import OpenPgTde.EventCapture.Stack
import OpenPgTde.Lib.Effect

/-!
The stack of events along the nesting of statements and subtransactions.

A session is in a transaction, possibly in subtransactions of it, and statements run in each: a
statement may call a function that runs further statements, or opens a subtransaction and runs them
there. An error ends the innermost transaction with everything that runs in it, and no end trigger
fires for any of that.

The stack belongs to one transaction at a time. A statement that pushes onto it in a subtransaction
throws away what it finds of the enclosing ones, whether the statements that put it there failed or
are still running. So the entries are those of the running statements as long as no statement pushes
while one that has pushed is running in an enclosing transaction.
-/

namespace OpenPgTde

open Lib.Effect

/-! ### Steps of a session -/

/-- The error that ends the innermost transaction, with the statements that run in it. -/
def Session.unwind (s : Session) : Session := { s with xacts := s.xacts.tail }

/-- The parse trees of all running statements. -/
def Session.parsetrees (s : Session) : List ℕ :=
  s.xacts.flatMap fun x => x.commands.map RunningCommand.parsetree

/-- A statement that the session runs: `parsetree` is the address of its parse tree. -/
structure Statement where
  ctx : DdlContext
  parsetree : ℕ
  stmt : Parsetree

/-- The statement `command` runs directly in the innermost transaction. -/
def Session.enter (s : Session) (command : RunningCommand) : Session :=
  match s.xacts with
  | [] => s
  | x :: xs => { s with xacts := { x with commands := command :: x.commands } :: xs }

inductive SessionStep
  /-- A transaction begins, or a subtransaction of the current one. -/
  | beginXact
  /-- The current one commits; no statement runs in it. -/
  | commitXact
  /-- An error, or a rollback. -/
  | abort
  /-- The current transaction is given an id. -/
  | assignTid
  /-- Another session is given one. -/
  | otherTid
  | start (st : Statement)
  /-- The innermost statement comes to its end. -/
  | finish (ctx : DdlContext)

/-- The session after the start of a statement. If the trigger fails, so does the statement. -/
def Session.start (s : Session) (st : Statement) : Session :=
  match ddlCommandStartCapture st.ctx st.parsetree st.stmt s, capturedEvent st.ctx st.parsetree st.stmt with
  | .ok _ t, .ok event => t.enter ⟨st.parsetree, event⟩
  | .ok _ t, .error _ => t.unwind
  | .error _ t, _ => t.unwind

/-- One step, where it is possible. Parse trees of statements that run at the same time have
different addresses. -/
def Session.step (s : Session) : SessionStep → Option Session
  | .beginXact => some { s with xacts := {} :: s.xacts }
  | .commitXact =>
      match s.xacts with
      | ⟨_, []⟩ :: xs => some { s with xacts := xs }
      | _ => none
  | .abort => some s.unwind
  | .assignTid => some s.assigned
  | .otherTid => some { s with nextTid := s.nextTid + 1 }
  | .start st =>
      if s.xacts = [] ∨ st.parsetree ∈ s.parsetrees then none else some (s.start st)
  | .finish ctx =>
      match s.xacts with
      | ⟨tid, c :: cs⟩ :: xs =>
          some { after (ddlCommandEndCapture ctx c.parsetree) s with xacts := ⟨tid, cs⟩ :: xs }
      | _ => none

/-- The states of a run of steps, the first one included. -/
inductive SessionRun (ok : Session → SessionStep → Prop) : Session → Prop
  | init : SessionRun ok {}
  | step {s t : Session} (run : SessionRun ok s) (a : SessionStep) (meets : ok s a)
      (next : s.step a = some t) : SessionRun ok t

/-- The state after a list of steps, if every one of them is possible and meets `ok`. -/
def Session.runMeeting (ok : Session → SessionStep → Prop) [∀ s a, Decidable (ok s a)] :
    Session → List SessionStep → Option Session
  | s, [] => some s
  | s, a :: as => if ok s a then (s.step a).bind fun t => t.runMeeting ok as else none

theorem SessionRun.extend {ok : Session → SessionStep → Prop} [∀ s a, Decidable (ok s a)]
    {s t : Session} (run : SessionRun ok s) (as : List SessionStep)
    (h : s.runMeeting ok as = some t) : SessionRun ok t := by
  induction as generalizing s with
  | nil =>
      cases h
      exact run
  | cons a as ih =>
      unfold Session.runMeeting at h
      split at h
      · rename_i meets
        obtain ⟨u, hu, hrest⟩ := Option.bind_eq_some_iff.mp h
        exact ih (run.step a meets hu) hrest
      · cases h

/-! ### What the stack should be -/

/-- The mode that the start of a statement set. -/
def RunningCommand.mode (c : RunningCommand) : TDEEncryptMode := topMode c.event.toList

/-- The events that the running statements put on the stack, innermost first. -/
def eventsOf (commands : List RunningCommand) : List TdeDdlEvent :=
  commands.flatMap fun c => c.event.toList

/-- The storage manager would be told the mode of the statement, and its end would take off its own
entry and do the work of that, or do nothing if there is no entry. -/
structure Session.Serves (s : Session) (c : RunningCommand) : Prop where
  mode : currentTdeEncryptModeValidated s = c.mode
  pops : ∀ event, c.event = some event → ∃ rest, s.ddlEventStack = event :: rest ∧
    ∀ ctx, ddlCommandEndCapture ctx c.parsetree s =
      .ok (rebuiltSequences ctx event) { s with ddlEventStack := rest }
  keeps : c.event = none → ∀ ctx, ddlCommandEndCapture ctx c.parsetree s = .ok [] s

/-- The innermost running statement, if control is directly in it, is served. -/
def Session.Sound (s : Session) : Prop :=
  ∀ x ∈ s.xacts.head?, ∀ c ∈ x.commands.head?, s.Serves c

/-- The steps that the stack is made for. A statement that pushes does so with no statement that has
pushed running in an enclosing transaction. One that does not push starts where the innermost
statement of its own transaction that did has no mode to set, and its parse tree is not where that of
a leftover entry was. -/
def Session.Fits (s : Session) : SessionStep → Prop
  | .start st =>
      match capturedEvent st.ctx st.parsetree st.stmt with
      | .error _ => True
      | .ok (some _) => ∀ x ∈ s.xacts.tail, eventsOf x.commands = []
      | .ok none =>
          (∀ x ∈ s.xacts.head?, topMode (eventsOf x.commands) = .retain) ∧
          ∀ event ∈ s.ddlEventStack.head?, event.parsetree ≠ st.parsetree
  | _ => True

instance (s : Session) (a : SessionStep) : Decidable (s.Fits a) :=
  match a with
  | .beginXact => isTrue trivial
  | .commitXact => isTrue trivial
  | .abort => isTrue trivial
  | .assignTid => isTrue trivial
  | .otherTid => isTrue trivial
  | .finish _ => isTrue trivial
  | .start st =>
      match h : capturedEvent st.ctx st.parsetree st.stmt with
      | .error _ => isTrue (by simp only [Session.Fits, h])
      | .ok (some _) =>
          decidable_of_iff (∀ x ∈ s.xacts.tail, eventsOf x.commands = [])
            (by simp only [Session.Fits, h])
      | .ok none =>
          decidable_of_iff
            ((∀ x ∈ s.xacts.head?, topMode (eventsOf x.commands) = .retain) ∧
              ∀ event ∈ s.ddlEventStack.head?, event.parsetree ≠ st.parsetree)
            (by simp only [Session.Fits, h])

/-! ### The invariant -/

/-- A statement that pushed nothing finds no mode below it. -/
def Modeless : List RunningCommand → Prop
  | [] => True
  | c :: cs => (c.event = none → topMode (eventsOf cs) = .retain) ∧ Modeless cs

/-- The part of a transaction in the stack: the entries are those of its running statements if the
stack is its own, and no running statement has an entry otherwise. -/
structure Xact.Holds (x : Xact) (stackTid : ℕ) (stack : List TdeDdlEvent) : Prop where
  pushed : eventsOf x.commands ≠ [] → x.tid ≠ 0 ∧ x.tid = stackTid
  entries : x.tid ≠ 0 → x.tid = stackTid → stack = eventsOf x.commands
  named : ∀ c ∈ x.commands, ∀ event, c.event = some event → event.parsetree = c.parsetree
  modeless : Modeless x.commands
  unclaimed : ∀ c ∈ x.commands, c.event = none →
    ∀ event ∈ stack.head?, event.parsetree ≠ c.parsetree

/-- The entries of the stack are those of the running statements, or leftovers of a transaction
that is over. -/
structure Session.Nested (s : Session) : Prop where
  holds : ∀ x ∈ s.xacts, x.Holds s.ddlEventStackTid s.ddlEventStack
  tids : ∀ x ∈ s.xacts, x.tid < s.nextTid
  distinct : s.xacts.Pairwise fun x y => x.tid ≠ 0 → x.tid ≠ y.tid
  stackTid : s.ddlEventStackTid < s.nextTid
  untouched : s.ddlEventStackTid = 0 → s.ddlEventStack = []
  trees : s.parsetrees.Nodup

/-! ### Transaction ids -/

theorem assignTids_le (xs : List Xact) (n : ℕ) : n ≤ (assignTids xs n).2 := by
  induction xs with
  | nil => exact le_rfl
  | cons x xs ih =>
      unfold assignTids
      split
      · exact le_rfl
      · show n ≤ (assignTids xs n).2 + 1
        omega

theorem assignTids_commands (xs : List Xact) (n : ℕ) :
    (assignTids xs n).1.map Xact.commands = xs.map Xact.commands := by
  induction xs with
  | nil => rfl
  | cons x xs ih =>
      unfold assignTids
      split
      · rfl
      · rw [List.map_cons, List.map_cons, ih]

/-- A transaction keeps its statements and the id that it has; a new id is not below `n`. -/
theorem mem_assignTids {xs : List Xact} {n : ℕ} {y : Xact} (h : y ∈ (assignTids xs n).1) :
    ∃ x ∈ xs, y.commands = x.commands ∧ (x.tid ≠ 0 → y.tid = x.tid) ∧
      (x.tid = 0 → y.tid = 0 ∨ n ≤ y.tid) := by
  induction xs with
  | nil => simp [assignTids] at h
  | cons x xs ih =>
      unfold assignTids at h
      split at h
      · exact ⟨y, h, rfl, fun _ => rfl, Or.inl⟩
      · rename_i hx
        rcases List.mem_cons.mp h with rfl | h
        · exact ⟨x, List.mem_cons_self, rfl, fun h0 => absurd h0 hx,
            fun _ => Or.inr (assignTids_le xs n)⟩
        · obtain ⟨x', hx', hrest⟩ := ih h
          exact ⟨x', List.mem_cons_of_mem x hx', hrest⟩

/-- The ids stay below the next one and different from each other. -/
theorem assignTids_distinct {xs : List Xact} {n : ℕ} (hlt : ∀ x ∈ xs, x.tid < n)
    (hd : xs.Pairwise fun x y => x.tid ≠ 0 → x.tid ≠ y.tid) :
    (∀ y ∈ (assignTids xs n).1, y.tid < (assignTids xs n).2) ∧
      (assignTids xs n).1.Pairwise fun x y => x.tid ≠ 0 → x.tid ≠ y.tid := by
  induction xs with
  | nil => exact ⟨fun y hy => absurd hy List.not_mem_nil, List.Pairwise.nil⟩
  | cons x xs ih =>
      unfold assignTids
      split
      · exact ⟨hlt, hd⟩
      · obtain ⟨hbelow, hpair⟩ := ih (fun y hy => hlt y (List.mem_cons_of_mem x hy))
          (List.pairwise_cons.mp hd).2
        constructor
        · intro y hy
          show y.tid < (assignTids xs n).2 + 1
          rcases List.mem_cons.mp hy with rfl | hy
          · exact Nat.lt_succ_self _
          · exact Nat.lt_succ_of_lt (hbelow y hy)
        · refine List.pairwise_cons.mpr ⟨fun y hy _ => ?_, hpair⟩
          exact (Nat.ne_of_lt (hbelow y hy)).symm

/-- The current transaction is given an id, and the statements of the others are what they were. -/
theorem assignTids_cons (x : Xact) (xs : List Xact) {n : ℕ} (hn : 0 < n) :
    ∃ y ys, (assignTids (x :: xs) n).1 = y :: ys ∧ y.tid ≠ 0 ∧
      ys.map Xact.commands = xs.map Xact.commands := by
  unfold assignTids
  split
  · rename_i hx
    exact ⟨x, xs, rfl, hx, rfl⟩
  · have hle := assignTids_le xs n
    refine ⟨_, _, rfl, ?_, assignTids_commands xs n⟩
    show (assignTids xs n).2 ≠ 0
    omega

theorem Session.parsetrees_eq (s : Session) :
    s.parsetrees = ((s.xacts.map Xact.commands).flatten).map RunningCommand.parsetree := by
  unfold parsetrees
  rw [List.flatMap_def, List.map_flatten, List.map_map]
  rfl

@[simp] theorem Session.parsetrees_assigned (s : Session) : s.assigned.parsetrees = s.parsetrees := by
  rw [parsetrees_eq, parsetrees_eq]
  show (((assignTids s.xacts s.nextTid).1.map Xact.commands).flatten).map _ = _
  rw [assignTids_commands]

theorem Session.mem_parsetrees {s : Session} {x : Xact} {c : RunningCommand} (hx : x ∈ s.xacts)
    (hc : c ∈ x.commands) : c.parsetree ∈ s.parsetrees :=
  List.mem_flatMap.mpr ⟨x, hx, List.mem_map.mpr ⟨c, hc, rfl⟩⟩

/-! ### Steps that leave the stack alone -/

namespace Session.Nested

variable {s : Session}

theorem init : Nested {} where
  holds := by simp
  tids := by simp
  distinct := List.Pairwise.nil
  stackTid := by decide
  untouched _ := rfl
  trees := List.nodup_nil

theorem beginXact (h : s.Nested) : Nested { s with xacts := {} :: s.xacts } where
  holds := by
    intro x hx
    rcases List.mem_cons.mp hx with rfl | hx
    · exact ⟨fun hne => absurd rfl hne, fun h0 => absurd rfl h0, by simp, trivial, by simp⟩
    · exact h.holds x hx
  tids := by
    intro x hx
    rcases List.mem_cons.mp hx with rfl | hx
    · exact Nat.lt_of_le_of_lt (Nat.zero_le _) h.stackTid
    · exact h.tids x hx
  distinct := List.pairwise_cons.mpr ⟨fun _ _ h0 => absurd rfl h0, h.distinct⟩
  stackTid := h.stackTid
  untouched := h.untouched
  trees := h.trees

theorem unwind (h : s.Nested) : s.unwind.Nested where
  holds x hx := h.holds x (List.mem_of_mem_tail hx)
  tids x hx := h.tids x (List.mem_of_mem_tail hx)
  distinct := h.distinct.sublist (List.tail_sublist _)
  stackTid := h.stackTid
  untouched := h.untouched
  trees := h.trees.sublist ((List.tail_sublist _).flatMap _)

theorem otherTid (h : s.Nested) : Nested { s with nextTid := s.nextTid + 1 } where
  holds := h.holds
  tids x hx := Nat.lt_succ_of_lt (h.tids x hx)
  distinct := h.distinct
  stackTid := Nat.lt_succ_of_lt h.stackTid
  untouched := h.untouched
  trees := h.trees

theorem assigned (h : s.Nested) : s.assigned.Nested := by
  obtain ⟨hbelow, hpair⟩ := assignTids_distinct h.tids h.distinct
  refine ⟨?_, hbelow, hpair, ?_, h.untouched, ?_⟩
  · intro y hy
    obtain ⟨x, hx, hcom, hkeep, hnew⟩ := mem_assignTids hy
    have hold := h.holds x hx
    refine ⟨?_, ?_, hcom ▸ hold.named, hcom ▸ hold.modeless, hcom ▸ hold.unclaimed⟩
    · intro hne
      obtain ⟨h0, htid⟩ := hold.pushed (by rwa [hcom] at hne)
      rw [hkeep h0]
      exact ⟨h0, htid⟩
    · intro h0 htid
      -- the stack's own id is an old one, so the transaction had it before
      have hlt : y.tid < s.nextTid := htid ▸ h.stackTid
      have hx0 : x.tid ≠ 0 := by
        intro hx0
        have := hnew hx0
        omega
      rw [hcom]
      exact hold.entries hx0 ((hkeep hx0).symm.trans htid)
  · exact Nat.lt_of_lt_of_le h.stackTid (assignTids_le s.xacts s.nextTid)
  · rw [parsetrees_assigned]
    exact h.trees

end Session.Nested

/-! ### The start of a statement -/

/-- The event of a statement carries its parse tree. -/
theorem capturedEvent_parsetree {ctx : DdlContext} {tree : ℕ} {stmt : Parsetree}
    {event : TdeDdlEvent} (h : capturedEvent ctx tree stmt = .ok (some event)) :
    event.parsetree = tree := by
  cases stmt with
  | indexStmt relation =>
      simp only [capturedEvent, indexStmtEvent, bind, Except.bind, Functor.map, Except.map] at h
      grind
  | createStmt accessMethod partitionOf =>
      simp only [capturedEvent, createStmtEvent, bind, Except.bind, Functor.map, Except.map] at h
      grind
  | createTableAsStmt accessMethod =>
      simp only [capturedEvent] at h
      grind
  | alterTableStmt relation cmds =>
      simp only [capturedEvent, alterTableStmtEvent, bind, Except.bind, Functor.map,
        Except.map] at h
      grind
  | createSeqStmt options =>
      simp only [capturedEvent, createSeqStmtEvent, bind, Except.bind, Functor.map, Except.map] at h
      grind
  | alterSeqStmt sequence options =>
      simp only [capturedEvent, alterSeqStmtEvent, bind, Except.bind, Functor.map, Except.map] at h
      grind
  | other => cases h

/-- The session after `verify_event_stack`. -/
def Session.verified (s : Session) : Session :=
  if s.assigned.ddlEventStackTid ≠ s.assigned.currentTidIfAny then
    { s.assigned with ddlEventStack := [], ddlEventStackTid := s.assigned.currentTidIfAny }
  else s.assigned

def Session.push (s : Session) (event : TdeDdlEvent) : Session :=
  { s with ddlEventStack := event :: s.ddlEventStack }

/-- The mode that was pushed last is the one the storage manager is told. -/
theorem Session.mode_push (s : Session) (event : TdeDdlEvent) :
    currentTdeEncryptModeValidated (s.verified.push event) = event.encryptMode := by
  have htid : s.verified.ddlEventStackTid = s.verified.currentTidIfAny := by
    unfold verified
    split
    · rfl
    · rename_i h
      exact not_not.mp h
  have hpush : (s.verified.push event).ddlEventStackTid =
      (s.verified.push event).currentTidIfAny := htid
  rw [currentTdeEncryptModeValidated, if_neg (not_not.mpr hpush)]
  rfl

theorem pushEventStack_spec (s : Session) (event : TdeDdlEvent) (E : DdlError → Session → Prop) :
    wp (pushEventStack event) (fun _ t => t = s.verified.push event) E s := by
  simp only [pushEventStack, verifyEventStack, wp_bind, wp_modify, wp_get, wp_ite, wp_set, wp_pure]
  constructor
  · intro h
    rw [Session.verified, if_pos h]
    rfl
  · intro h
    rw [Session.verified, if_neg h]
    rfl

theorem checkEncryptionStatus_spec (ctx : DdlContext) (s : Session) :
    wp (checkEncryptionStatus ctx) (fun _ t => t = s) (fun _ t => t = s) s := by
  simp [checkEncryptionStatus]

/-- A statement that pushes does so whether or not it is refused by the check after that. -/
theorem ddlCommandStartCapture_spec {ctx : DdlContext} {tree : ℕ} {stmt : Parsetree}
    {event : TdeDdlEvent} (s : Session) (h : capturedEvent ctx tree stmt = .ok (some event)) :
    wp (ddlCommandStartCapture ctx tree stmt) (fun _ t => t = s.verified.push event)
      (fun _ t => t = s.verified.push event) s := by
  unfold ddlCommandStartCapture
  rw [h]
  refine (wp_bind _ _ _ _ _).mpr ((pushEventStack_spec s event _).mono ?_ fun _ _ h => h)
  rintro _ t rfl
  simp only [wp_ite, wp_pure, implies_true, and_true]
  exact fun _ => checkEncryptionStatus_spec ctx _

theorem Session.start_pushes {s : Session} {st : Statement} {event : TdeDdlEvent}
    (h : capturedEvent st.ctx st.parsetree st.stmt = .ok (some event)) :
    s.start st = (s.verified.push event).enter ⟨st.parsetree, some event⟩ ∨
      s.start st = (s.verified.push event).unwind := by
  have hspec := ddlCommandStartCapture_spec s h
  unfold start
  rw [h]
  cases hm : ddlCommandStartCapture st.ctx st.parsetree st.stmt s with
  | ok a t =>
      rw [hspec.of_ok hm]
      exact Or.inl rfl
  | error e t =>
      rw [hspec.of_error hm]
      exact Or.inr rfl

/-- A statement that does not push. -/
theorem Session.start_silent {s : Session} {st : Statement}
    (h : capturedEvent st.ctx st.parsetree st.stmt = .ok none) :
    s.start st = s.enter ⟨st.parsetree, none⟩ := by
  unfold start ddlCommandStartCapture
  rw [h]
  rfl

/-- A statement that is refused before it pushes. -/
theorem Session.start_refused {s : Session} {st : Statement} {e : DdlError}
    (h : capturedEvent st.ctx st.parsetree st.stmt = .error e) : s.start st = s.unwind := by
  unfold start ddlCommandStartCapture
  rw [h]
  rfl

namespace Session.Nested

variable {s : Session} {x : Xact} {xs : List Xact} {tree : ℕ} {event : TdeDdlEvent}

/-- The other transactions have other ids than the one that owns the stack, so they keep their part
whatever the stack becomes, as long as they have no entry and none looks like theirs. -/
theorem holds_other {y : Xact} {stack : List TdeDdlEvent} (h : s.Nested)
    (hx : s.xacts = x :: xs) (h0 : x.tid ≠ 0) (hy : y ∈ xs) (hnone : eventsOf y.commands = [])
    (hstack : ∀ c ∈ y.commands, c.event = none → ∀ e ∈ stack.head?, e.parsetree ≠ c.parsetree) :
    y.Holds x.tid stack := by
  have hmem : y ∈ s.xacts := hx ▸ List.mem_cons_of_mem x hy
  have hdistinct := h.distinct
  rw [hx] at hdistinct
  have hne : x.tid ≠ y.tid := (List.pairwise_cons.mp hdistinct).1 y hy h0
  exact ⟨fun hev => absurd hnone hev, fun _ htid => absurd htid.symm hne, (h.holds y hmem).named,
    (h.holds y hmem).modeless, hstack⟩

/-- The current transaction and the stack change, the ids do not. -/
theorem withHead {x' : Xact} {stack : List TdeDdlEvent} (h : s.Nested) (hx : s.xacts = x :: xs)
    (htid : x'.tid = x.tid) (hhead : x'.Holds s.ddlEventStackTid stack)
    (hrest : ∀ y ∈ xs, y.Holds s.ddlEventStackTid stack)
    (huntouched : s.ddlEventStackTid = 0 → stack = [])
    (htrees : ({ s with ddlEventStack := stack, xacts := x' :: xs } : Session).parsetrees.Nodup) :
    Nested { s with ddlEventStack := stack, xacts := x' :: xs } := by
  have hdistinct := h.distinct
  rw [hx] at hdistinct
  obtain ⟨hfirst, hpair⟩ := List.pairwise_cons.mp hdistinct
  refine ⟨?_, ?_, ?_, h.stackTid, huntouched, htrees⟩
  · intro y hy
    rcases List.mem_cons.mp hy with rfl | hy
    · exact hhead
    · exact hrest y hy
  · intro y hy
    rcases List.mem_cons.mp hy with rfl | hy
    · rw [htid]
      exact h.tids x (hx ▸ List.mem_cons_self)
    · exact h.tids y (hx ▸ List.mem_cons_of_mem x hy)
  · refine List.pairwise_cons.mpr ⟨fun y hy => ?_, hpair⟩
    rw [htid]
    exact hfirst y hy

/-- After `verify_event_stack` the stack belongs to the current transaction. -/
theorem verified (h : s.Nested) (hne : s.xacts ≠ [])
    (hfits : ∀ y ∈ s.xacts.tail, eventsOf y.commands = []) :
    s.verified.Nested ∧ s.verified.parsetrees = s.parsetrees ∧
      ∃ x xs, s.verified.xacts = x :: xs ∧ x.tid ≠ 0 ∧ s.verified.ddlEventStackTid = x.tid ∧
        ∀ y ∈ xs, eventsOf y.commands = [] := by
  have hassigned := h.assigned
  obtain ⟨x, xs, hxs, h0, hrest⟩ : ∃ x xs, s.assigned.xacts = x :: xs ∧ x.tid ≠ 0 ∧
      ∀ y ∈ xs, eventsOf y.commands = [] := by
    cases hs : s.xacts with
    | nil => exact absurd hs hne
    | cons x₀ xs₀ =>
        obtain ⟨x, xs, hxs, h0, hcom⟩ :=
          assignTids_cons x₀ xs₀ (Nat.lt_of_le_of_lt (Nat.zero_le _) h.stackTid)
        refine ⟨x, xs, by rw [← hxs, ← hs]; rfl, h0, fun y hy => ?_⟩
        have hmem : y.commands ∈ xs₀.map Xact.commands := hcom ▸ List.mem_map_of_mem hy
        obtain ⟨z, hz, heq⟩ := List.mem_map.mp hmem
        rw [← heq]
        exact hfits z (by rw [hs]; exact hz)
  have hcur : s.assigned.currentTidIfAny = x.tid := by
    unfold currentTidIfAny
    rw [hxs]
    rfl
  unfold Session.verified
  split
  · rename_i htid
    rw [hcur] at htid ⊢
    refine ⟨⟨?_, hassigned.tids, hassigned.distinct, ?_, fun _ => rfl, ?_⟩,
      parsetrees_assigned s, x, xs, hxs, h0, rfl, hrest⟩
    · intro y hy
      rcases List.mem_cons.mp (hxs ▸ hy) with rfl | hy'
      · have hold := hassigned.holds y hy
        -- the stack is not its own, so none of its statements has an entry
        have hnone : eventsOf y.commands = [] := by
          by_contra hev
          exact htid (hold.pushed hev).2.symm
        exact ⟨fun hev => absurd hnone hev, fun _ _ => hnone.symm, hold.named, hold.modeless,
          by simp⟩
      · exact hassigned.holds_other hxs h0 hy' (hrest y hy') (by simp)
    · exact hassigned.tids x (hxs ▸ List.mem_cons_self)
    · exact hassigned.trees
  · rename_i htid
    rw [hcur, not_not] at htid
    exact ⟨hassigned, parsetrees_assigned s, x, xs, hxs, h0, htid, hrest⟩

theorem enter_trees (h : s.Nested) (hx : s.xacts = x :: xs) (hfresh : tree ∉ s.parsetrees)
    (ev : Option TdeDdlEvent) (stack : List TdeDdlEvent) :
    ({ s with
        ddlEventStack := stack
        xacts := { x with commands := ⟨tree, ev⟩ :: x.commands } :: xs } : Session).parsetrees.Nodup := by
  have htrees := h.trees
  unfold parsetrees at htrees hfresh ⊢
  rw [hx] at htrees hfresh
  exact List.nodup_cons.mpr ⟨hfresh, htrees⟩

/-- The entry on top is that of the statement that starts. -/
theorem enter_pushed (h : s.Nested) (hx : s.xacts = x :: xs) (h0 : x.tid ≠ 0)
    (htid : s.ddlEventStackTid = x.tid) (hrest : ∀ y ∈ xs, eventsOf y.commands = [])
    (hfresh : tree ∉ s.parsetrees) (hev : event.parsetree = tree) :
    ((s.push event).enter ⟨tree, some event⟩).Nested := by
  have hold := h.holds x (hx ▸ List.mem_cons_self)
  have hclaimed : ∀ y ∈ s.xacts, ∀ c ∈ y.commands, event.parsetree ≠ c.parsetree := by
    rintro y hy c hc heq
    exact hfresh (hev ▸ heq ▸ mem_parsetrees hy hc)
  have henter : (s.push event).enter ⟨tree, some event⟩ = { s with
      ddlEventStack := event :: s.ddlEventStack
      xacts := { x with commands := ⟨tree, some event⟩ :: x.commands } :: xs } := by
    unfold enter push
    rw [hx]
  rw [henter]
  refine h.withHead hx rfl ⟨fun _ => ⟨h0, htid.symm⟩, fun _ _ => ?_, ?_, ⟨by simp, hold.modeless⟩, ?_⟩
    ?_ ?_ (h.enter_trees hx hfresh _ _)
  · rw [hold.entries h0 htid.symm]
    rfl
  · intro c hc e he
    rcases List.mem_cons.mp hc with rfl | hc
    · cases he
      exact hev
    · exact hold.named c hc e he
  · intro c hc hnone e he
    rcases List.mem_cons.mp hc with rfl | hc
    · cases hnone
    · cases he
      exact hclaimed x (hx ▸ List.mem_cons_self) c hc
  · intro y hy
    rw [htid]
    refine h.holds_other hx h0 hy (hrest y hy) fun c hc _ e he => ?_
    cases he
    exact hclaimed y (hx ▸ List.mem_cons_of_mem x hy) c hc
  · intro hzero
    exact absurd (htid.symm.trans hzero) h0

/-- The entry of a statement that is refused after it was pushed is a leftover. -/
theorem unwind_pushed (h : s.Nested) (hx : s.xacts = x :: xs) (h0 : x.tid ≠ 0)
    (htid : s.ddlEventStackTid = x.tid) (hrest : ∀ y ∈ xs, eventsOf y.commands = [])
    (hfresh : tree ∉ s.parsetrees) (hev : event.parsetree = tree) :
    (s.push event).unwind.Nested := by
  have hunwind : (s.push event).unwind = ((s.push event).enter ⟨tree, some event⟩).unwind := by
    unfold enter Session.unwind push
    rw [hx]
    rfl
  rw [hunwind]
  exact (h.enter_pushed hx h0 htid hrest hfresh hev).unwind

theorem enter_silent (h : s.Nested) (hx : s.xacts = x :: xs)
    (hmode : topMode (eventsOf x.commands) = .retain)
    (hleft : ∀ e ∈ s.ddlEventStack.head?, e.parsetree ≠ tree) (hfresh : tree ∉ s.parsetrees) :
    (s.enter ⟨tree, none⟩).Nested := by
  have hold := h.holds x (hx ▸ List.mem_cons_self)
  have henter : s.enter ⟨tree, none⟩ = { s with
      ddlEventStack := s.ddlEventStack
      xacts := { x with commands := ⟨tree, none⟩ :: x.commands } :: xs } := by
    unfold enter
    rw [hx]
  rw [henter]
  refine h.withHead hx rfl ⟨hold.pushed, hold.entries, ?_, ⟨fun _ => hmode, hold.modeless⟩, ?_⟩
    (fun y hy => h.holds y (hx ▸ List.mem_cons_of_mem x hy)) h.untouched (h.enter_trees hx hfresh _ _)
  · intro c hc e he
    rcases List.mem_cons.mp hc with rfl | hc
    · cases he
    · exact hold.named c hc e he
  · intro c hc hnone e he
    rcases List.mem_cons.mp hc with rfl | hc
    · exact hleft e he
    · exact hold.unclaimed c hc hnone e he

theorem start (h : s.Nested) {st : Statement} (hne : s.xacts ≠ [])
    (hfresh : st.parsetree ∉ s.parsetrees) (hfits : s.Fits (.start st)) : (s.start st).Nested := by
  cases hev : capturedEvent st.ctx st.parsetree st.stmt with
  | error e =>
      rw [start_refused hev]
      exact h.unwind
  | ok captured =>
      simp only [Fits, hev] at hfits
      cases captured with
      | none =>
          rw [start_silent hev]
          cases hs : s.xacts with
          | nil => exact absurd hs hne
          | cons x xs => exact h.enter_silent hs (hfits.1 x (by rw [hs]; rfl)) hfits.2 hfresh
      | some event =>
          obtain ⟨hverified, htrees, x, xs, hx, h0, htid, hrest⟩ := h.verified hne hfits
          have htree := capturedEvent_parsetree hev
          rw [← htrees] at hfresh
          rcases start_pushes hev with hstart | hstart
          · rw [hstart]
            exact hverified.enter_pushed hx h0 htid hrest hfresh htree
          · rw [hstart]
            exact hverified.unwind_pushed hx h0 htid hrest hfresh htree

end Session.Nested

/-! ### The end of a statement -/

theorem ddlCommandEndCapture_own {ctx : DdlContext} {s : Session} {event : TdeDdlEvent}
    {rest : List TdeDdlEvent} (h : s.ddlEventStack = event :: rest) :
    ddlCommandEndCapture ctx event.parsetree s =
      .ok (rebuiltSequences ctx event) { s with ddlEventStack := rest } := by
  rw [ddlCommandEndCapture, get_bind_apply, h]
  simp only [ne_eq, not_true, if_false]
  rfl

theorem ddlCommandEndCapture_other {ctx : DdlContext} {s : Session} {tree : ℕ}
    (h : ∀ event ∈ s.ddlEventStack.head?, event.parsetree ≠ tree) :
    ddlCommandEndCapture ctx tree s = .ok [] s := by
  rw [ddlCommandEndCapture, get_bind_apply]
  cases hs : s.ddlEventStack with
  | nil => rfl
  | cons e rest =>
      rw [hs] at h
      simp only [h e rfl, ne_eq, not_false_eq_true, if_true]
      rfl

namespace Session.Nested

variable {s : Session} {x : Xact} {xs : List Xact} {c : RunningCommand} {cs : List RunningCommand}

/-- The innermost statement is told its own mode, and its end finds its own entry. -/
theorem sound (h : s.Nested) : s.Sound := by
  intro x hx c hc
  obtain ⟨xs, hxs⟩ : ∃ xs, s.xacts = x :: xs := List.head?_eq_some_iff.mp hx
  obtain ⟨cs, hcs⟩ : ∃ cs, x.commands = c :: cs := List.head?_eq_some_iff.mp hc
  have hold := h.holds x (hxs ▸ List.mem_cons_self)
  have hcur : s.currentTidIfAny = x.tid := by
    unfold currentTidIfAny
    rw [hxs]
    rfl
  have hmem : c ∈ x.commands := hcs ▸ List.mem_cons_self
  cases hev : c.event with
  | some event =>
      have hevents : eventsOf x.commands = event :: eventsOf cs := by
        rw [hcs]
        simp [eventsOf, hev]
      obtain ⟨h0, htid⟩ := hold.pushed (by rw [hevents]; exact List.cons_ne_nil _ _)
      have hstack : s.ddlEventStack = event :: eventsOf cs := (hold.entries h0 htid).trans hevents
      refine ⟨?_, fun e he => ?_, fun hnone => ?_⟩
      · rw [currentTdeEncryptModeValidated, hcur, htid, if_neg (not_not.mpr rfl),
          currentTdeEncryptMode, hstack, RunningCommand.mode, hev]
        rfl
      · rw [hev] at he
        cases he
        refine ⟨eventsOf cs, hstack, fun ctx => ?_⟩
        rw [← hold.named c hmem event hev]
        exact ddlCommandEndCapture_own hstack
      · rw [hev] at hnone
        cases hnone
  | none =>
      have hevents : eventsOf x.commands = eventsOf cs := by
        rw [hcs]
        simp [eventsOf, hev]
      have hmode : topMode (eventsOf cs) = .retain := by
        have := hold.modeless
        rw [hcs] at this
        exact this.1 hev
      refine ⟨?_, fun e he => ?_, fun _ ctx => ?_⟩
      · rw [RunningCommand.mode, hev, currentTdeEncryptModeValidated, hcur]
        split
        · rfl
        · rename_i htid
          rw [not_not] at htid
          -- either the stack is that of the transaction, or nothing was ever pushed
          by_cases h0 : x.tid = 0
          · rw [currentTdeEncryptMode, h.untouched (htid.trans h0)]
            rfl
          · rw [currentTdeEncryptMode, hold.entries h0 htid.symm, hevents, hmode]
            rfl
      · rw [hev] at he
        cases he
      · exact ddlCommandEndCapture_other (hold.unclaimed c hmem hev)

/-- The parse trees of running statements are all different. -/
theorem tree_inj {y : Xact} {d : RunningCommand} (h : s.Nested) (hx : x ∈ s.xacts)
    (hc : c ∈ x.commands) (hy : y ∈ s.xacts) (hd : d ∈ y.commands)
    (heq : c.parsetree = d.parsetree) : c = d := by
  have htrees := h.trees
  rw [parsetrees_eq] at htrees
  exact List.inj_on_of_nodup_map htrees
    (List.mem_flatten.mpr ⟨_, List.mem_map_of_mem hx, hc⟩)
    (List.mem_flatten.mpr ⟨_, List.mem_map_of_mem hy, hd⟩) heq

theorem finish_trees (h : s.Nested) (hx : s.xacts = x :: xs) (hcs : x.commands = c :: cs)
    (stack : List TdeDdlEvent) :
    ({ s with
        ddlEventStack := stack
        xacts := { x with commands := cs } :: xs } : Session).parsetrees.Nodup := by
  have htrees := h.trees
  unfold parsetrees at htrees ⊢
  rw [hx, List.flatMap_cons, hcs] at htrees
  exact (List.nodup_cons.mp htrees).2

/-- The end of a statement leaves the entries of those that still run. -/
theorem finish (h : s.Nested) (hx : s.xacts = x :: xs) (hcs : x.commands = c :: cs)
    (ctx : DdlContext) :
    Nested { after (ddlCommandEndCapture ctx c.parsetree) s with
      xacts := { x with commands := cs } :: xs } := by
  have hmem : x ∈ s.xacts := hx ▸ List.mem_cons_self
  have hold := h.holds x hmem
  have hserves := h.sound x (by rw [hx]; rfl) c (by rw [hcs]; rfl)
  have hsub : ∀ d ∈ cs, d ∈ x.commands := fun d hd => hcs ▸ List.mem_cons_of_mem c hd
  have hmodeless : Modeless cs := by
    have := hold.modeless
    rw [hcs] at this
    exact this.2
  cases hev : c.event with
  | none =>
      have hevents : eventsOf x.commands = eventsOf cs := by
        rw [hcs]
        simp [eventsOf, hev]
      have hafter : after (ddlCommandEndCapture ctx c.parsetree) s = s := by
        unfold after
        rw [hserves.keeps hev ctx]
      rw [hafter]
      exact h.withHead hx rfl ⟨hevents ▸ hold.pushed, hevents ▸ hold.entries,
          fun d hd => hold.named d (hsub d hd), hmodeless, fun d hd => hold.unclaimed d (hsub d hd)⟩
        (fun y hy => h.holds y (hx ▸ List.mem_cons_of_mem x hy)) h.untouched
        (h.finish_trees hx hcs _)
  | some event =>
      obtain ⟨rest, hstack, hend⟩ := hserves.pops event hev
      have hevents : eventsOf x.commands = event :: eventsOf cs := by
        rw [hcs]
        simp [eventsOf, hev]
      obtain ⟨h0, htid⟩ := hold.pushed (by rw [hevents]; exact List.cons_ne_nil _ _)
      have hrest : rest = eventsOf cs := by
        have := (hold.entries h0 htid).symm.trans hstack
        rw [hevents] at this
        exact (List.cons.inj this).2.symm
      have hafter : after (ddlCommandEndCapture ctx c.parsetree) s =
          { s with ddlEventStack := eventsOf cs } := by
        unfold after
        rw [hend ctx, hrest]
      -- the entry that comes to the top is that of a running statement
      have hclaimed : ∀ y ∈ s.xacts, ∀ d ∈ y.commands, d.event = none →
          ∀ e ∈ (eventsOf cs).head?, e.parsetree ≠ d.parsetree := by
        intro y hy d hd hnone e he heq
        obtain ⟨d', hd', he'⟩ := List.mem_flatMap.mp (List.mem_of_mem_head? he)
        have hev' : d'.event = some e := Option.mem_toList.mp he'
        have htree : d'.parsetree = d.parsetree :=
          (hold.named d' (hsub d' hd') e hev').symm.trans heq
        rw [h.tree_inj hmem (hsub d' hd') hy hd htree, hnone] at hev'
        cases hev'
      rw [hafter]
      refine h.withHead hx rfl ⟨fun _ => ⟨h0, htid⟩, fun _ _ => rfl,
          fun d hd => hold.named d (hsub d hd), hmodeless,
          fun d hd => hclaimed x hmem d (hsub d hd)⟩
        (fun y hy => ?_) (fun hzero => absurd (htid.trans hzero) h0) (h.finish_trees hx hcs _)
      have hmemy : y ∈ s.xacts := hx ▸ List.mem_cons_of_mem x hy
      have hnone : eventsOf y.commands = [] := by
        by_contra hne
        have hdistinct := h.distinct
        rw [hx] at hdistinct
        exact (List.pairwise_cons.mp hdistinct).1 y hy h0
          (htid.trans ((h.holds y hmemy).pushed hne).2.symm)
      rw [← htid]
      exact h.holds_other hx h0 hy hnone (hclaimed y hmemy)

end Session.Nested

/-- One step. -/
theorem Session.step_nested {s t : Session} {a : SessionStep} (h : s.Nested) (hfits : s.Fits a)
    (hstep : s.step a = some t) : t.Nested := by
  cases a with
  | beginXact =>
      cases hstep
      exact h.beginXact
  | commitXact =>
      simp only [step] at hstep
      split at hstep
      · rename_i tid xs hs
        cases hstep
        have hunwind := h.unwind
        unfold unwind at hunwind
        rwa [hs] at hunwind
      · cases hstep
  | abort =>
      cases hstep
      exact h.unwind
  | assignTid =>
      cases hstep
      exact h.assigned
  | otherTid =>
      cases hstep
      exact h.otherTid
  | start st =>
      simp only [step] at hstep
      split at hstep
      · cases hstep
      · rename_i hne
        rw [not_or] at hne
        cases hstep
        exact h.start hne.1 hne.2 hfits
  | finish ctx =>
      simp only [step] at hstep
      split at hstep
      · rename_i tid c cs xs hs
        cases hstep
        exact h.finish hs rfl ctx
      · cases hstep

/-- In every run whose steps are of the kind that the stack is made for, the innermost statement is
told the mode that its own start set whenever it makes storage, and its end takes its own entry off
the stack and does the work of that. -/
theorem event_stack_matches_nesting {s : Session} (run : SessionRun Session.Fits s) : s.Sound := by
  have hnested : s.Nested := by
    induction run with
    | init => exact Session.Nested.init
    | step run a meets next ih => exact Session.step_nested ih meets next
  exact hnested.sound

/-- The catalogs with one table, which is not encrypted and has a sequence. -/
def sampleCatalog : Catalog where
  oids := [16384]
  pgClass _ := { relkind := .relation, relam := 2 }
  findInheritanceChildren _ := []
  getOwnedSequences _ := [16390]
  relid name := if name = ["t"] then some 16384 else none
  tdeTableAmOid := 16400
  rank _ := 0
  rank_inherits := by simp
  rank_typed := by simp

def sampleDdl : DdlContext where
  catalog := sampleCatalog
  defaultTableAccessMethod := "heap"
  enforceEncryption := false
  principalKeyConfigured := true

/-- `ALTER TABLE t SET ACCESS METHOD tde_heap, ALTER COLUMN c TYPE int USING f(c)`. -/
def sampleAlter : Statement :=
  ⟨sampleDdl, 1, .alterTableStmt ["t"] [.setAccessMethod (some "tde_heap"), .other]⟩

/-- `CREATE TEMP TABLE u ()`, run by the function `f`. -/
def sampleCreate : Statement := ⟨sampleDdl, 2, .createStmt none none⟩

/-- The session once `f` is done and the statement goes on to rewrite the indexes. -/
def sampleSession (stackTid nextTid : ℕ) (stack : List TdeDdlEvent) (tid : ℕ) : Session where
  ddlEventStackTid := stackTid
  ddlEventStack := stack
  xacts := [⟨tid, [⟨1, some ⟨1, .encrypt, 16384, 0⟩⟩]⟩]
  nextTid := nextTid

/-- A statement fails in a transaction of its own; after that the function runs its statement in the
transaction of the statement that called it. -/
theorem event_stack_matches_nesting_plain_call :
    (sampleSession 2 3 [⟨1, .encrypt, 16384, 0⟩] 2).Sound :=
  event_stack_matches_nesting (SessionRun.init.extend
    [.beginXact, .start sampleCreate, .abort, .beginXact, .start sampleAlter, .start sampleCreate,
      .finish sampleDdl] (by decide +kernel))

/-- The function runs its statement in a subtransaction, which commits. The entry of the statement
that called it is gone: the indexes are made in whatever mode they had, and the sequences of the
table are not rewritten. -/
theorem event_stack_lost_in_subtransaction :
    ∃ s, SessionRun (fun _ _ => True) s ∧ ¬s.Sound := by
  refine ⟨sampleSession 2 3 [] 1, SessionRun.init.extend
    [.beginXact, .start sampleAlter, .beginXact, .start sampleCreate, .finish sampleDdl,
      .commitXact] (by decide +kernel), ?_⟩
  intro h
  have hmode := (h _ rfl _ rfl).mode
  revert hmode
  decide +kernel

end OpenPgTde
