/-
How the use cases that write tasks talk to the database.

An edit or a toggle reads its task twice and flushes against the second read;
a delete and the worker's job each write once.  The protocol `editing` keeps
the two reads as ghost state and says which values a transaction may write and
commit:

* **`meets_updateTask`**, **`meets_toggleTask`** — first read, second read, a
  flush of `UserEdit.assign`, commit;
* **`meets_deleteTask`**, **`meets_processTaskCreated`** — one write, commit.
-/
import Lsstack.TaskSystem

namespace Lsstack

open Concurrency

/-! ### The edits of a user -/

/-- What a user asks of a task, texts normalized. -/
inductive UserEdit where
  | edit (title : String) (description : Option String)
  | toggle
  deriving DecidableEq

namespace UserEdit

/-- The attributes assigned to the row `l` of the second read, from the task `s`
of the first. -/
def assign (op : UserEdit) (s l : TaskModel) (stamp : Instant) : TaskModel :=
  match op with
  | .edit title description =>
    { l with
      title := title
      description := description
      isCompleted := s.isCompleted
      backgroundProcessedAt := s.backgroundProcessedAt
      updatedAt := stamp }
  | .toggle =>
    { l with
      title := s.title
      description := s.description
      isCompleted := !s.isCompleted
      backgroundProcessedAt := s.backgroundProcessedAt
      updatedAt := stamp }

@[simp] theorem assign_backgroundProcessedAt (op : UserEdit) (s l : TaskModel)
    (stamp : Instant) :
    (op.assign s l stamp).backgroundProcessedAt = s.backgroundProcessedAt := by
  cases op <;> rfl

/-- A new time stamp is all that a later `now` changes. -/
theorem assign_stamp (op : UserEdit) (s l : TaskModel) (stamp stamp' : Instant) :
    { op.assign s l stamp with updatedAt := stamp' } = op.assign s l stamp' := by
  cases op <;> rfl

end UserEdit

/-- The edit a request makes, unless its texts are refused. -/
def Request.userEdit : Request → Option (Except Exn UserEdit)
  | .edit _ _ title description => some do
    let title ← normalizeTitle title
    let description ← normalizeDescription description
    return .edit title description
  | .toggle _ _ => some (.ok .toggle)
  | _ => none

/-- The one task a request may write. -/
def Request.task : Request → Option ℕ
  | .edit _ taskId _ _ => some taskId
  | .toggle _ taskId => some taskId
  | .delete _ taskId => some taskId
  | .process taskId => some taskId
  | .job payload => (validatePayload payload).toOption
  | _ => none

/-- The request comes from the worker. -/
def Request.marks : Request → Bool
  | .process _ => true
  | .job _ => true
  | _ => false

/-- The row the worker's UPDATE leaves. -/
def TaskModel.marked (stamp : Instant) (row : TaskModel) : TaskModel :=
  { row with backgroundProcessedAt := some stamp, updatedAt := stamp }

/-! ### The protocol -/

/-- How far a transaction has come: what it has read, flushed, marked or
removed, until its end. -/
inductive EditPhase where
  | start
  | first (s : TaskModel)
  | second (s l : TaskModel)
  | flushed (s l : TaskModel)
  | marked
  | removed
  | closed

/-- The user's edit behind a transaction, its task, whether it is the worker's,
and how far it has come. -/
structure EditGhost where
  op : Option (Except Exn UserEdit)
  task : Option ℕ
  marks : Bool
  phase : EditPhase

/-- At its arrival. -/
def Request.editGhost (q : Request) : EditGhost := ⟨q.userEdit, q.task, q.marks, .start⟩

/-- Before it. -/
def EditGhost.idle : EditGhost := ⟨none, none, false, .start⟩

/-- The results such a transaction may report. -/
def EditGhost.Reports (g : EditGhost) : Outcome → Prop
  | .taskUpdated _ => g.op.isSome
  | .taskToggled _ => g.op.isSome
  | .taskDeleted _ _ => g.marks = false
  | .taskProcessed taskId _ => g.marks = true ∧ g.task = some taskId
  | _ => False

/-- The statements of the transaction. -/
def editGuard (g : EditGhost) : Command → Prop
  | .select (.task taskId) _ => g.task = some taskId ∧
    match g.phase with
    | .start => True
    | .marked => True
    | .first _ => True
    | _ => False
  | .update (.task taskId) p f => g.task = some taskId ∧
    match g.phase with
    | .start => g.op = none ∧ g.marks = true ∧ p = (fun row => row.backgroundProcessedAt.isNone) ∧
        ∃ stamp, f = TaskModel.marked stamp
    | .second s l => ∃ op stamp, g.op = some (.ok op) ∧ f = TaskModel.merge l (op.assign s l stamp)
    | _ => False
  | .delete (.task taskId) _ =>
    g.task = some taskId ∧ g.op = none ∧ g.marks = false ∧ g.phase = .start
  | .commit out => g.Reports out ∧
    match g.phase with
    | .start => g.op = none
    | .second s l => ∃ op stamp, g.op = some (.ok op) ∧ op.assign s l stamp = l
    | .flushed _ _ => True
    | .marked => True
    | .removed => True
    | _ => False
  | .rollback => True
  | .ext (.enqueue _) => False
  | .ext _ => True
  | _ => False

/-- How a reply moves it on. -/
def EditGhost.next (g : EditGhost) : (c : Command) → Except Exn c.Reply → EditGhost
  | .select (.task _) _, .ok (some row) =>
    match g.op, g.phase with
    | some _, .start => { g with phase := .first row }
    | some _, .first s => { g with phase := .second s row }
    | _, _ => g
  | .update (.task _) _ _, .ok (some _) =>
    match g.phase with
    | .start => { g with phase := .marked }
    | .second s l => { g with phase := .flushed s l }
    | _ => g
  | .delete (.task _) _, .ok (some _) => { g with phase := .removed }
  | .commit _, _ => { g with phase := .closed }
  | .rollback, _ => { g with phase := .closed }
  | _, _ => g

/-- The protocol of the transactions that write tasks. -/
def editing : Protocol Command Command.Reply Exn EditGhost :=
  .automaton editGuard EditGhost.next

/-! ### The use cases keep to it -/

section Meets

/-- What may be committed is all that is left to check of a transaction. -/
theorem settled_editing {α : Type} {outcome : α → Outcome} {r : Except Exn α} {g : EditGhost}
    (h : ∀ a, r = .ok a → editGuard g (.commit (outcome a))) :
    settled editing outcome (fun _ _ => True) r g :=
  settled_automaton (fun _ _ => trivial) (fun _ => trivial) h

@[simp] theorem settled_editing_error {α : Type} {outcome : α → Outcome} {e : Exn}
    {g : EditGhost} : settled editing outcome (fun _ _ => True) (.error e) g :=
  settled_editing fun _ h => nomatch h

/-- A flush writes the assigned values, or finds that none has changed. -/
theorem meets_flush {op : UserEdit} {taskId : ℕ} {s l : TaskModel} {stamp : Instant}
    {Q : Except Exn TaskModel → EditGhost → Prop}
    (hsame : op.assign s l stamp = l → Q (.ok l) ⟨some (.ok op), some taskId, false, .second s l⟩)
    (hok : ∀ model, Q (.ok model) ⟨some (.ok op), some taskId, false, .flushed s l⟩)
    (herror : ∀ e, Q (.error e) ⟨some (.ok op), some taskId, false, .second s l⟩) :
    (TaskModel.flush taskId l (op.assign s l stamp)).Meets editing
      ⟨some (.ok op), some taskId, false, .second s l⟩ Q := by
  have hupdate : ∀ stamp', (TaskModel.write taskId l (op.assign s l stamp) stamp').Meets editing
      ⟨some (.ok op), some taskId, false, .second s l⟩ Q := by
    intro stamp'
    unfold TaskModel.write
    rw [UserEdit.assign_stamp]
    refine Program.meets_bind.mpr (meets_update.mpr ⟨⟨rfl, op, stamp', rfl, rfl⟩, fun r => ?_⟩)
    rcases r with e | _ | row
    · exact herror e
    · exact herror _
    · exact hok _
  rw [TaskModel.flush_eq]
  split
  · rename_i h
    rw [h]
    exact hsame h
  · split
    · refine Program.meets_bind.mpr (meets_outside.mpr ⟨trivial, fun r => ?_⟩)
      rcases r with e | stamp'
      · exact herror e
      · exact hupdate stamp'
    · rw [Program.pure_eq, Program.bind_eq, Program.ret_bind]
      exact hupdate _

/-- `SqlAlchemyTaskRepository.update` of a task that stands for an edit of the
first read: the second read, the flush, and a result that may be committed. -/
theorem meets_updated (op : UserEdit) (stamp : Instant) {taskId : ℕ} {s : TaskModel}
    {task : Task} {outcome : TaskResult → Outcome} (hid : task.id = some taskId)
    (hreports : ∀ result phase, EditGhost.Reports ⟨some (.ok op), some taskId, false, phase⟩
      (outcome result))
    (hassign : ∀ l : TaskModel,
      { l with
        title := task.title
        description := task.description
        isCompleted := task.isCompleted
        backgroundProcessedAt := task.backgroundProcessedAt
        updatedAt := task.updatedAt } = op.assign s l stamp) :
    (do let updated ← TaskRepository.update task
        liftExcept (taskResult updated)).Meets editing ⟨some (.ok op), some taskId, false, .first s⟩
      (settled editing outcome fun _ _ => True) := by
  unfold TaskRepository.update TaskRepository.ownedQuery
  rw [hid]
  -- the row is read again, without a lock
  refine Program.meets_bind.mpr
    (Program.meets_bind.mpr (meets_select.mpr ⟨⟨rfl, trivial⟩, fun r => ?_⟩))
  rcases r with e | _ | l
  · simp
  · simp
  · simp only [Program.onOk_ok, hassign]
    refine Program.meets_bind.mpr (meets_flush ?_ ?_ ?_)
    · intro h
      simp only [Program.pure_eq, Program.onOk_ok, Program.meets_ret, meets_liftExcept]
      exact settled_editing fun _ _ => ⟨hreports _ _, op, stamp, rfl, h⟩
    · intro model
      simp only [Program.pure_eq, Program.onOk_ok, Program.meets_ret, meets_liftExcept]
      exact settled_editing fun _ _ => ⟨hreports _ _, trivial⟩
    · intro e
      simp

/-- The first read, and what follows if it finds the task. -/
theorem meets_getOwned {α : Type} {op : Option (Except Exn UserEdit)} {taskId userId : ℕ}
    {K : Task → Tx α} {Q : Except Exn α → EditGhost → Prop}
    (hrow : ∀ s : TaskModel, (K (s.detach taskId)).Meets editing
      (EditGhost.next ⟨op, some taskId, false, .start⟩
        (.select (.task taskId) fun row => row.userId == userId)
        (.ok (some s))) Q)
    (herror : ∀ e, Q (.error e) ⟨op, some taskId, false, .start⟩) :
    Program.Meets editing (do
      match ← TaskRepository.getOwned taskId userId with
      | none => throw (.taskNotFoundError "Task not found.")
      | some task => K task) ⟨op, some taskId, false, .start⟩ Q := by
  unfold TaskRepository.getOwned TaskRepository.ownedQuery
  refine Program.meets_bind.mpr (Program.meets_bind.mpr (meets_select.mpr
    ⟨⟨rfl, trivial⟩, fun r => ?_⟩))
  rcases r with e | _ | s
  · exact herror e
  · exact herror _
  · exact hrow s

/-- **An edit keeps to the protocol.** -/
theorem meets_updateTask (userId taskId : ℕ) (title : String) (description : Option String) :
    (transactionRunner .taskUpdated (updateTask userId taskId title description)).Meets editing
      (Request.edit userId taskId title description).editGhost fun _ _ => True := by
  unfold updateTask
  refine meets_transactionRunner.mpr (meets_getOwned (fun s => ?_) (by simp))
  refine Program.meets_bind.mpr (meets_outside.mpr ⟨trivial, fun r => ?_⟩)
  rcases r with e | stamp
  · simp
  · rw [Program.onOk_ok, Program.bind_eq, Program.meets_bind, meets_liftExcept]
    rcases he : (s.detach taskId).edited title description stamp with e | task
    · simp
    · obtain ⟨t, d, ht, hd, rfl⟩ := Task.edited_ok he
      have hop : (Request.edit userId taskId title description).userEdit =
          some (.ok (.edit t d)) := by
        simp only [Request.userEdit, ht, hd]
        rfl
      rw [hop]
      exact meets_updated (.edit t d) stamp rfl (fun _ _ => rfl) fun l => rfl

/-- **A toggle keeps to the protocol.** -/
theorem meets_toggleTask (userId taskId : ℕ) :
    (transactionRunner .taskToggled (toggleTask userId taskId)).Meets editing
      (Request.toggle userId taskId).editGhost fun _ _ => True := by
  unfold toggleTask
  refine meets_transactionRunner.mpr (meets_getOwned (fun s => ?_) (by simp))
  refine Program.meets_bind.mpr (meets_outside.mpr ⟨trivial, fun r => ?_⟩)
  rcases r with e | stamp
  · simp
  · exact meets_updated .toggle stamp rfl (fun _ _ => rfl) fun l => rfl

/-- **A delete keeps to the protocol.** -/
theorem meets_deleteTask (userId taskId : ℕ) :
    (transactionRunner (fun _ => .taskDeleted userId taskId) (deleteTask userId taskId)).Meets
      editing (Request.delete userId taskId).editGhost fun _ _ => True := by
  refine meets_transactionRunner.mpr (Program.meets_bind.mpr (Program.meets_bind.mpr
    (meets_delete.mpr ⟨⟨rfl, rfl, rfl, rfl⟩, fun r => ?_⟩)))
  rcases r with e | _ | row
  · simp
  · simp
  · simp only [Program.onOk_ok, Program.pure_eq, Program.meets_ret, Option.isSome_some,
      Bool.true_eq_false, if_false]
    exact settled_editing fun _ _ => ⟨rfl, trivial⟩

/-- **The worker's job keeps to the protocol.** -/
theorem meets_processTaskCreated (taskId : ℕ) :
    (transactionRunner (.taskProcessed taskId) (processTaskCreated taskId)).Meets editing
      (Request.process taskId).editGhost fun _ _ => True := by
  -- the row may be read before the mark, when there is none, and after it
  have hread : ∀ phase, phase = .start ∨ phase = .marked →
      ∀ {Q : Except Exn (Option TaskModel) → EditGhost → Prop},
      (∀ e, Q (.error e) ⟨none, some taskId, true, phase⟩) →
      (∀ r, Q (.ok r) ⟨none, some taskId, true, phase⟩) →
      (select (.task taskId) fun _ => true).Meets editing ⟨none, some taskId, true, phase⟩ Q := by
    intro phase hphase Q herror hok
    refine meets_select.mpr ⟨⟨rfl, ?_⟩, fun r => ?_⟩
    · rcases hphase with rfl | rfl <;> trivial
    · rcases r with e | _ | row
      · exact herror e
      · exact hok _
      · exact hok _
  -- what is reported does not depend on the row that is read
  have hcommit : ∀ phase, phase = .start ∨ phase = .marked → ∀ r,
      settled editing (.taskProcessed taskId) (fun _ _ => True) r
        ⟨none, some taskId, true, phase⟩ := by
    intro phase hphase r
    refine settled_editing fun a _ => ?_
    rcases hphase with rfl | rfl
    · exact ⟨⟨rfl, rfl⟩, rfl⟩
    · exact ⟨⟨rfl, rfl⟩, trivial⟩
  unfold processTaskCreated TaskRepository.markBackgroundProcessed
  refine meets_transactionRunner.mpr (Program.meets_bind.mpr (meets_outside.mpr
    ⟨trivial, fun r => ?_⟩))
  rcases r with e | stamp
  · simp
  · simp only [Program.onOk_ok, Program.bind_eq]
    refine Program.meets_bind.mpr (Program.meets_bind.mpr (meets_update.mpr
      ⟨⟨rfl, rfl, rfl, rfl, stamp, rfl⟩, fun r => ?_⟩))
    rcases r with e | _ | row
    · simp
    · refine Program.meets_bind.mpr (hread .start (.inl rfl) (by simp) fun r => ?_)
      rcases r with _ | row
      · simpa using hcommit .start (.inl rfl) _
      · simpa [taskResult, TaskModel.detach] using hcommit .start (.inl rfl) _
    · refine Program.meets_bind.mpr (hread .marked (.inr rfl) (by simp) fun r => ?_)
      rcases r with _ | row
      · simpa using hcommit .marked (.inr rfl) _
      · simpa [taskResult, TaskModel.detach] using hcommit .marked (.inr rfl) _

/-- A single transaction answers what its runner returns. -/
theorem meets_transaction {α : Type} {outcome : α → Outcome} {operation : Tx α} {g : EditGhost}
    (h : (transactionRunner outcome operation).Meets editing g fun _ _ => True) :
    (transaction outcome operation).Meets editing g fun _ _ => True := by
  refine Program.meets_bind.mpr (h.mono fun r g' _ => ?_)
  rcases r with e | a <;> trivial

end Meets

/-! ### What is known of a transaction -/

/-- The task rows a process has read, newest first. -/
def taskReads (calls : List ((c : Command) × Except Exn c.Reply)) : List TaskModel :=
  calls.filterMap fun
    | ⟨.select (.task _) _, .ok (some row)⟩ => some row
    | _ => none

namespace EditGhost

/-- The reads of an edit or a toggle are the ones its calls show. -/
def Reads (g : EditGhost) (reads : List TaskModel) : Prop :=
  g.op = none ∨
  match g.phase with
  | .start => reads = []
  | .first s => reads = [s]
  | .second s l => reads = [l, s]
  | .flushed s l => reads = [l, s]
  | .closed => True
  | _ => False

/-- What a transaction of session `i` has written under its locks. -/
def Holds (g : EditGhost) (i : ℕ) : (k : Key) → Cell (Row k) → Prop
  | .task taskId, c =>
    match g.phase with
    | .flushed s l => g.task = some taskId ∧ ∃ op stamp row, g.op = some (.ok op) ∧
        c.committed = some row ∧ c.view i = some (TaskModel.merge l (op.assign s l stamp) row)
    | .marked => g.task = some taskId ∧ ∃ stamp row, c.committed = some row ∧
        row.backgroundProcessedAt = none ∧ c.view i = some (row.marked stamp)
    | .removed => g.task = some taskId ∧ c.view i = none
    | .closed => True
    | _ => False
  | _, _ => g.phase = .closed

/-- A flushed row is locked. -/
def Owns (g : EditGhost) (w : Db) (i : ℕ) : Prop :=
  ∀ taskId s l, g.task = some taskId → g.phase = .flushed s l →
    (w.cell (.task taskId)).hold.owner = some i

/-- Before it writes, a transaction has locked nothing. -/
def Quiet (g : EditGhost) : Prop :=
  match g.phase with
  | .start => True
  | .first _ => True
  | .second _ _ => True
  | _ => False

end EditGhost

namespace EditGhost

@[simp] theorem next_op (g : EditGhost) (c : Command) (r : Except Exn c.Reply) :
    (g.next c r).op = g.op := by
  unfold next
  repeat' split
  all_goals rfl

@[simp] theorem next_task (g : EditGhost) (c : Command) (r : Except Exn c.Reply) :
    (g.next c r).task = g.task := by
  unfold next
  repeat' split
  all_goals rfl

/-- The reads of the ghost state follow the calls. -/
theorem Reads.next {g : EditGhost} {calls : List ((c : Command) × Except Exn c.Reply)}
    (h : g.Reads (taskReads calls)) {c : Command} (hg : editGuard g c)
    (r : Except Exn c.Reply) : (g.next c r).Reads (taskReads (⟨c, r⟩ :: calls)) := by
  -- a process without an edit may read as it likes
  rcases g with ⟨_ | op, task, marks, phase⟩
  · exact .inl (next_op _ _ _)
  · obtain h | h := h
    · cases h
    · refine .inr ?_
      rcases c with ⟨k, p⟩ | _ | _ | _ | ⟨k, p, f⟩ | _ | ⟨k, p⟩ | _ | _ | _ | _
      -- each row that is found is remembered, in the order of the reads
      case select =>
        rcases k with _ | _ | taskId | _
        all_goals try exact hg.elim
        rcases r with e | _ | row
        · exact h
        · exact h
        · rcases phase with _ | s | _ | _ | _ | _ | _
          all_goals try exact hg.2.elim
          all_goals try exact h.elim
          · exact congrArg (List.cons row) h
          · exact congrArg (List.cons row) h
      case update =>
        rcases k with _ | _ | taskId | _
        all_goals try exact hg.elim
        rcases r with e | _ | row
        · exact h
        · exact h
        · rcases phase with _ | _ | _ | _ | _ | _ | _
          all_goals try exact hg.2.elim
          · exact absurd hg.2.1 (by simp)
          · exact h
      case delete =>
        rcases k with _ | _ | taskId | _
        all_goals try exact hg.elim
        exact absurd hg.2.1 (by simp)
      case ext => rcases r with e | y <;> exact h
      all_goals first | exact trivial | exact hg.elim

end EditGhost

/-- What holds of a process with ghost state `g` in any world. -/
structure EditAsserts (w : Db) (i : ℕ)
    (p : Option (Process Command Command.Reply Exn Request Response)) (g : EditGhost) :
    Prop where
  op : ∀ p', p = some p' → g.op = p'.request.userEdit
  task : ∀ p', p = some p' → g.task = p'.request.task
  reads : ∀ p', p = some p' → g.Reads (taskReads p'.calls)
  held : w.HeldBy i (g.Holds i)
  owns : g.Owns w i

namespace EditAsserts

variable {w w' : Db} {i : ℕ} {g : EditGhost}

/-- A quiet transaction has locked nothing. -/
theorem owner_ne {p : Option (Process Command Command.Reply Exn Request Response)}
    (h : EditAsserts w i p g) (hq : g.Quiet) (k : Key) : (w.cell k).hold.owner ≠ some i := by
  intro ho
  have hh := h.held k ho
  rcases g with ⟨op, task, marks, _ | _ | _ | _ | _ | _ | _⟩ <;> rcases k with _ | _ | _ | _
  all_goals first | exact hh | exact hq | cases hh

/-- It sees committed rows only. -/
theorem view_eq_row {p : Option (Process Command Command.Reply Exn Request Response)}
    (h : EditAsserts w i p g) (hq : g.Quiet) (k : Key) : (w.cell k).view i = w.row k :=
  World.view_eq_row (h.owner_ne hq k)

/-- Nothing is locked where a process has not arrived. -/
theorem idle (hw : ∀ k, (w.cell k).hold.owner ≠ some i) :
    EditAsserts w i none .idle where
  op := fun _ h => by cases h
  task := fun _ h => by cases h
  reads := fun _ h => by cases h
  held := fun k hk => absurd hk (hw k)
  owns := fun _ _ _ _ h => by cases h

theorem start (h : EditAsserts w i none .idle) (q : Request)
    (rest : Option (Tx Response)) :
    EditAsserts w i (some ⟨q, [], rest⟩) q.editGhost where
  op := fun p' hp => by cases hp; rfl
  task := fun p' hp => by cases hp; rfl
  reads := fun p' hp => by cases hp; exact .inr rfl
  held := fun k hk => by
    have hh := h.held k hk
    cases k <;> exact hh
  owns := fun _ _ _ _ h => by cases h

/-- The statements of other sessions leave it alone. -/
theorem frame {p : Option (Process Command Command.Reply Exn Request Response)} {j : ℕ}
    (h : EditAsserts w j p g) (hm : ∀ k, (w.cell k).Moves i (w'.cell k)) (hij : j ≠ i) :
    EditAsserts w' j p g where
  op := h.op
  task := h.task
  reads := h.reads
  held := h.held.frame hm hij
  owns := fun taskId s l ht hp => by
    have ho := h.owns taskId s l ht hp
    rw [(hm _).foreign ho hij]
    exact ho

section Act

variable {p : Option (Process Command Command.Reply Exn Request Response)} {c : Command}
  {x : Choice Fault Decision} {isHash : String → String → Bool}

/-- A flush locks the row it has written. -/
theorem held_update (h : EditAsserts w i p g) {taskId : ℕ} {P : TaskModel → Bool}
    {f : TaskModel → TaskModel} {r : Except Exn (Option TaskModel)}
    (hg : editGuard g (.update (.task taskId) P f))
    (he : exec Fault.exn (outside isHash) w i (.update (.task taskId) P f) x = some (r, w')) :
    w'.HeldBy i ((g.next (.update (.task taskId) P f) r).Holds i) ∧
      (g.next (.update (.task taskId) P f) r).Owns w' i := by
  obtain ⟨rfl, e, rfl⟩ | ⟨rfl, rfl, -⟩ | ⟨row, rfl, rfl, hrow⟩ := exec_update he
  · exact ⟨h.held, h.owns⟩
  · exact ⟨h.held, h.owns⟩
  obtain ⟨hview, hP, -⟩ := World.acquire_row hrow
  -- the UPDATE is of the second phase, or the worker's mark
  rcases g with ⟨op, task, marks, _ | _ | ⟨s, l⟩ | _ | _ | _ | _⟩
  case second =>
    obtain ⟨htask, op', stamp, hop, rfl⟩ := hg
    have hrow : (w.cell (.task taskId)).committed = some row :=
      (h.view_eq_row trivial (.task taskId)).symm.trans hview
    refine ⟨World.heldBy_write h.held ?_ ⟨htask, op', stamp, row, hop, hrow, by simp⟩, ?_⟩
    · intro k c _ hk
      rcases k with _ | _ | _ | _ <;> cases hk
    · intro taskId' s' l' htask' _
      obtain rfl := Option.some_inj.mp (htask.symm.trans htask')
      simp
  case start =>
    obtain ⟨htask, -, -, rfl, stamp, rfl⟩ := hg
    have hrow : (w.cell (.task taskId)).committed = some row :=
      (h.view_eq_row trivial (.task taskId)).symm.trans hview
    refine ⟨World.heldBy_write h.held ?_
      ⟨htask, stamp, row, hrow, Option.isNone_iff_eq_none.mp hP, by simp⟩, ?_⟩
    · intro k c _ hk
      rcases k with _ | _ | _ | _ <;> cases hk
    · intro taskId' s' l' _ hp
      cases hp
  all_goals exact hg.2.elim

/-- A delete locks the row it has removed. -/
theorem held_delete (h : EditAsserts w i p g) {taskId : ℕ} {P : TaskModel → Bool}
    {r : Except Exn (Option TaskModel)} (hg : editGuard g (.delete (.task taskId) P))
    (he : exec Fault.exn (outside isHash) w i (.delete (.task taskId) P) x = some (r, w')) :
    w'.HeldBy i ((g.next (.delete (.task taskId) P) r).Holds i) ∧
      (g.next (.delete (.task taskId) P) r).Owns w' i := by
  obtain ⟨rfl, e, rfl⟩ | ⟨rfl, rfl, -⟩ | ⟨row, rfl, rfl, hrow⟩ := exec_delete he
  · exact ⟨h.held, h.owns⟩
  · exact ⟨h.held, h.owns⟩
  obtain ⟨op, task, marks, phase⟩ := g
  obtain rfl : phase = .start := hg.2.2.2
  refine ⟨World.heldBy_write h.held ?_ ⟨hg.1, by simp⟩, ?_⟩
  · intro k c _ hk
    rcases k with _ | _ | _ | _ <;> cases hk
  · intro taskId' s' l' _ hp
    cases hp

/-- A read locks nothing. -/
theorem held_select (h : EditAsserts w i p g) {k : Key} {P : Row k → Bool}
    {r : Except Exn (Option (Row k))} (hg : editGuard g (.select k P)) :
    w.HeldBy i ((g.next (.select k P) r).Holds i) ∧ (g.next (.select k P) r).Owns w i := by
  rcases k with _ | _ | taskId | _
  all_goals try exact hg.elim
  obtain ⟨op, task, marks, phase⟩ := g
  have hquiet : EditGhost.Quiet ⟨op, task, marks, phase⟩ → ∀ g' : EditGhost, g'.Quiet →
      w.HeldBy i (g'.Holds i) ∧ g'.Owns w i := by
    refine fun hq g' hq' => ⟨fun k hk => absurd hk (h.owner_ne hq k), ?_⟩
    rintro taskId s l _ hp
    rw [EditGhost.Quiet, hp] at hq'
    exact hq'.elim
  rcases r with e | _ | row
  · exact ⟨h.held, h.owns⟩
  · exact ⟨h.held, h.owns⟩
  · rcases phase with _ | s | _ | _ | _ | _ | _
    all_goals try exact hg.2.elim
    · rcases op with _ | op <;> exact hquiet trivial _ trivial
    · rcases op with _ | op <;> exact hquiet trivial _ trivial
    · rcases op with _ | op <;> exact ⟨h.held, h.owns⟩

/-- A statement the protocol allows keeps what is known of the locks. -/
theorem held_act (h : EditAsserts w i p g) {r : Except Exn c.Reply} (hg : editGuard g c)
    (he : exec Fault.exn (outside isHash) w i c x = some (r, w')) :
    w'.HeldBy i ((g.next c r).Holds i) ∧ (g.next c r).Owns w' i := by
  -- a process of this protocol has no other statements
  rcases c with ⟨k, P⟩ | _ | _ | _ | ⟨k, P, f⟩ | _ | ⟨k, P⟩ | _ | out | _ | y
  case select =>
    obtain ⟨rfl, -⟩ := exec_select he
    exact h.held_select hg
  case update =>
    rcases k with _ | _ | taskId | _
    all_goals try exact hg.elim
    exact h.held_update hg he
  case delete =>
    rcases k with _ | _ | taskId | _
    all_goals try exact hg.elim
    exact h.held_delete hg he
  case commit =>
    refine ⟨?_, fun _ _ _ _ hp => by cases hp⟩
    intro k _
    rcases k with _ | _ | _ | _ <;> first | exact trivial | exact rfl
  case rollback =>
    refine ⟨?_, fun _ _ _ _ hp => by cases hp⟩
    intro k _
    rcases k with _ | _ | _ | _ <;> first | exact trivial | exact rfl
  case ext =>
    have hnext : g.next (.ext y) r = g := by rcases r with e | y' <;> rfl
    rw [hnext]
    obtain ⟨rfl, -⟩ | ⟨d, env, -, rfl⟩ := exec_ext he
    · exact ⟨h.held, h.owns⟩
    · exact ⟨h.held, h.owns⟩
  all_goals exact hg.elim

end Act

/-- **A statement the protocol allows keeps what is known of its session.** -/
theorem act {q : Request} {calls : List ((c : Command) × Except Exn c.Reply)}
    {rest rest' : Option (Tx Response)} {c : Command} {x : Choice Fault Decision}
    {r : Except Exn c.Reply} {isHash : String → String → Bool}
    (h : EditAsserts w i (some ⟨q, calls, rest⟩) g) (hg : editGuard g c)
    (he : exec Fault.exn (outside isHash) w i c x = some (r, w')) :
    EditAsserts w' i (some ⟨q, ⟨c, r⟩ :: calls, rest'⟩) (g.next c r) := by
  obtain ⟨hheld, howns⟩ := h.held_act hg he
  refine ⟨fun p' hp => ?_, fun p' hp => ?_, fun p' hp => ?_, hheld, howns⟩
  · cases hp
    rw [EditGhost.next_op]
    exact h.op ⟨q, calls, rest⟩ rfl
  · cases hp
    rw [EditGhost.next_task]
    exact h.task ⟨q, calls, rest⟩ rfl
  · cases hp
    exact (h.reads ⟨q, calls, rest⟩ rfl).next hg r

/-- **What a commit makes of a task**: nothing, the merge of a flush, the mark
of the worker, or its removal. -/
theorem commit_view {p : Option (Process Command Command.Reply Exn Request Response)}
    {out : Outcome} (h : EditAsserts w i p g) (hg : editGuard g (.commit out)) (taskId : ℕ) :
    (w.cell (.task taskId)).view i = w.row (.task taskId) ∨
    g.task = some taskId ∧
      ((∃ op s l stamp row, g.op = some (.ok op) ∧ g.phase = .flushed s l ∧
        w.row (.task taskId) = some row ∧
        (w.cell (.task taskId)).view i = some (TaskModel.merge l (op.assign s l stamp) row)) ∨
      (∃ stamp row, g.phase = .marked ∧ w.row (.task taskId) = some row ∧
        row.backgroundProcessedAt = none ∧
        (w.cell (.task taskId)).view i = some (row.marked stamp)) ∨
      (g.phase = .removed ∧ (w.cell (.task taskId)).view i = none)) := by
  by_cases ho : (w.cell (.task taskId)).hold.owner = some i
  · have hh := h.held _ ho
    obtain ⟨op, task, marks, phase⟩ := g
    rcases phase with _ | _ | _ | ⟨s, l⟩ | _ | _ | _
    case flushed =>
      obtain ⟨htask, op', stamp, row, hop, hrow, hview⟩ := hh
      exact .inr ⟨htask, .inl ⟨op', s, l, stamp, row, hop, rfl, hrow, hview⟩⟩
    case marked =>
      obtain ⟨htask, stamp, row, hrow, hmark, hview⟩ := hh
      exact .inr ⟨htask, .inr (.inl ⟨stamp, row, rfl, hrow, hmark, hview⟩)⟩
    case removed =>
      obtain ⟨htask, hview⟩ := hh
      exact .inr ⟨htask, .inr (.inr ⟨rfl, hview⟩)⟩
    case closed => exact hg.2.elim
    all_goals exact hh.elim
  · exact .inl (World.view_eq_row ho)

/-- **The commit of an edit** follows two reads and makes of the task what the
flush has merged, or leaves it where nothing was to be flushed. -/
theorem commit_edit {p : Process Command Command.Reply Exn Request Response} {out : Outcome}
    (h : EditAsserts w i (some p) g) (hg : editGuard g (.commit out))
    (hedit : p.request.userEdit.isSome) {taskId : ℕ} (htask : p.request.task = some taskId) :
    ∃ op s l stamp, p.request.userEdit = some (.ok op) ∧ taskReads p.calls = [l, s] ∧
      (g.phase = .second s l ∧ op.assign s l stamp = l ∧
          (w.cell (.task taskId)).view i = w.row (.task taskId) ∨
        g.phase = .flushed s l ∧ ∃ row, w.row (.task taskId) = some row ∧
          (w.cell (.task taskId)).view i =
            some (TaskModel.merge l (op.assign s l stamp) row)) := by
  have hreads := h.reads p rfl
  have hop := h.op p rfl
  have htask' := (h.task p rfl).trans htask
  have hsome : g.op ≠ none := by
    rw [hop]
    exact Option.isSome_iff_ne_none.mp hedit
  obtain hreads | hreads := hreads
  · exact absurd hreads hsome
  rw [← hop]
  obtain ⟨op, task, marks, phase⟩ := g
  rcases phase with _ | _ | ⟨s, l⟩ | ⟨s, l⟩ | _ | _ | _
  case start => exact absurd hg.2 hsome
  case second =>
    obtain ⟨-, op', stamp, hop', hsame⟩ := hg
    exact ⟨op', s, l, stamp, hop', hreads, .inl ⟨rfl, hsame, h.view_eq_row trivial _⟩⟩
  case flushed =>
    obtain ⟨-, op', stamp, row, hop', hrow, hview⟩ := h.held _ (h.owns taskId s l htask' rfl)
    exact ⟨op', s, l, stamp, hop', hreads, .inr ⟨rfl, row, hrow, hview⟩⟩
  all_goals first | exact hg.2.elim | exact hreads.elim

/-- A crash frees the locks. -/
theorem crash {q : Request} {calls : List ((c : Command) × Except Exn c.Reply)}
    {rest : Option (Tx Response)} (h : EditAsserts w i (some ⟨q, calls, rest⟩) g) :
    EditAsserts (w.release i) i (some ⟨q, calls, none⟩) ⟨g.op, g.task, g.marks, .closed⟩ where
  op := fun p' hp => by cases hp; exact h.op ⟨q, calls, rest⟩ rfl
  task := fun p' hp => by cases hp; exact h.task ⟨q, calls, rest⟩ rfl
  reads := fun p' hp => .inr trivial
  held := World.heldBy_release
  owns := fun _ _ _ _ h => by cases h

end EditAsserts

end Lsstack
