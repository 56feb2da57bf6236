/-
A task operation that races the deletion of its task.

`getTask` reads the task once; `updateTask` and `toggleTask` read it, read it again
in the repository, and then write it.  Only the first of these statements answers
`TaskNotFoundError` when the task is gone.

* `Racing.meets_operation`, `Racing.meets_deletion` — the statements both parties
  issue, and how they end;
* `Race.sound` — what is known of every state of a race;
* **`endsWell_iff`** — a race ends well exactly if the deletion does not commit
  between the first read of the operation and its write.
-/
import Lsstack.TaskWriteOnce

namespace Lsstack

open Concurrency

/-! ### The parties -/

/-- The operations on one task that do not delete it. -/
inductive TaskOperation where
  | get
  | update (title : String) (description : Option String)
  | toggle

/-- The result a task row stands for. -/
def TaskModel.result (taskId : ℕ) (row : TaskModel) : TaskResult where
  id := taskId
  userId := row.userId
  title := row.title
  description := row.description
  isCompleted := row.isCompleted
  backgroundProcessedAt := row.backgroundProcessedAt
  createdAt := row.createdAt
  updatedAt := row.updatedAt

namespace TaskOperation

/-- The request that runs the operation. -/
def request (op : TaskOperation) (userId taskId : ℕ) : Request :=
  match op with
  | .get => .get userId taskId
  | .update title description => .edit userId taskId title description
  | .toggle => .toggle userId taskId

/-- The edit it makes, unless it only reads or its texts are refused. -/
def edit : TaskOperation → Option (Except Exn UserEdit)
  | .get => none
  | .update title description => (Request.edit 0 0 title description).userEdit
  | .toggle => some (.ok .toggle)

/-- Its texts, if it has any, are valid. -/
def Accepted (op : TaskOperation) : Prop := ∀ e, op.edit ≠ some (.error e)

theorem accepted_of_edit {op : TaskOperation} {edit : UserEdit} (h : op.edit = some (.ok edit)) :
    op.Accepted := by
  intro e he
  cases h.symm.trans he

/-- The task row after its complete effect. -/
def effect (op : TaskOperation) (row : TaskModel) (stamp : Instant) : TaskModel :=
  match op.edit with
  | some (.ok edit) => edit.assign row row stamp
  | _ => row

/-- What it commits with. -/
def outcome (op : TaskOperation) (result : TaskResult) : Outcome :=
  match op with
  | .get => .taskRead result
  | .update _ _ => .taskUpdated result
  | .toggle => .taskToggled result

end TaskOperation

/-! ### The protocol of both parties -/

/-- How far a party has come. -/
inductive RacePhase where
  | start
  | found (s : TaskModel)
  | stamped (s : TaskModel) (stamp : Instant)
  | loaded (s l : TaskModel) (stamp : Instant)
  | written (s v : TaskModel)
  | removed
  | missing
  | lost
  | committed (out : Outcome) (v : TaskModel)
  | deleted
  | absent
  | failed

namespace RacePhase

/-- How a reply moves a party on. -/
def next (phase : RacePhase) : (c : Command) → Except Exn c.Reply → RacePhase
  | .select (.task _) _, .ok row =>
    match phase, row with
    | .start, none => .missing
    | .start, some s => .found s
    | .stamped _ _, none => .lost
    | .stamped s stamp, some l => .loaded s l stamp
    | _, _ => phase
  | .update (.task _) _ f, .ok row =>
    match phase, row with
    | .loaded _ _ _, none => .lost
    | .loaded s l _, some _ => .written s (f l)
    | _, _ => phase
  | .delete (.task _) _, .ok row =>
    match phase, row with
    | .start, none => .missing
    | .start, some _ => .removed
    | _, _ => phase
  | .ext .now, .ok stamp =>
    match phase with
    | .found s => .stamped s stamp
    | _ => phase
  | .commit out, _ =>
    match phase with
    | .found s => .committed out s
    | .loaded _ l _ => .committed out l
    | .written _ v => .committed out v
    | .removed => .deleted
    | _ => phase
  | .rollback, _ =>
    match phase with
    | .missing => .absent
    | _ => .failed
  | _, _ => phase

/-- Where the calls of a process, newest first, have brought it. -/
def after (calls : List ((c : Command) × Except Exn c.Reply)) : RacePhase :=
  calls.foldr (fun call phase => phase.next call.1 call.2) .start

end RacePhase

/-- A party: its operation, or none for the deletion, on whose task, and how far it
has come. -/
structure Racing where
  op : Option TaskOperation
  userId : ℕ
  taskId : ℕ
  phase : RacePhase

namespace Racing

/-- The statements of a party: a read, the clock, a second read, a write of what is
assigned over the second read unless nothing changes, and the end. -/
inductive Issues : Racing → Command → Prop where
  | read {op : TaskOperation} {userId taskId : ℕ} :
      Issues ⟨some op, userId, taskId, .start⟩
        (.select (.task taskId) fun row => row.userId == userId)
  | stamp {op : TaskOperation} {userId taskId : ℕ} {s : TaskModel} (edits : op.edit.isSome) :
      Issues ⟨some op, userId, taskId, .found s⟩ (.ext .now)
  | reread {op : TaskOperation} {userId taskId : ℕ} {s : TaskModel} {stamp : Instant}
      (accepted : op.Accepted) :
      Issues ⟨some op, userId, taskId, .stamped s stamp⟩
        (.select (.task taskId) fun row => row.userId == s.userId)
  | serverStamp {op : TaskOperation} {userId taskId : ℕ} {s l : TaskModel} {stamp : Instant}
      {edit : UserEdit} (edits : op.edit = some (.ok edit)) (changes : edit.assign s l stamp ≠ l) :
      Issues ⟨some op, userId, taskId, .loaded s l stamp⟩ (.ext .serverNow)
  | write {op : TaskOperation} {userId taskId : ℕ} {s l : TaskModel} {stamp : Instant}
      {edit : UserEdit} (stamp' : Instant) (edits : op.edit = some (.ok edit))
      (changes : edit.assign s l stamp ≠ l) :
      Issues ⟨some op, userId, taskId, .loaded s l stamp⟩
        (.update (.task taskId) (fun _ => true) (TaskModel.merge l (edit.assign s l stamp')))
  | commitFound {op : TaskOperation} {userId taskId : ℕ} {s : TaskModel} (reads : op.edit = none) :
      Issues ⟨some op, userId, taskId, .found s⟩ (.commit (op.outcome (s.result taskId)))
  | commitLoaded {op : TaskOperation} {userId taskId : ℕ} {s l : TaskModel} {stamp : Instant}
      {edit : UserEdit} (edits : op.edit = some (.ok edit)) (same : edit.assign s l stamp = l) :
      Issues ⟨some op, userId, taskId, .loaded s l stamp⟩
        (.commit (op.outcome (l.result taskId)))
  | commitWritten {op : TaskOperation} {userId taskId : ℕ} {s v : TaskModel} :
      Issues ⟨some op, userId, taskId, .written s v⟩ (.commit (op.outcome (v.result taskId)))
  | delete {userId taskId : ℕ} :
      Issues ⟨none, userId, taskId, .start⟩
        (.delete (.task taskId) fun row => row.userId == userId)
  | commitRemoved {userId taskId : ℕ} :
      Issues ⟨none, userId, taskId, .removed⟩ (.commit (.taskDeleted userId taskId))
  | giveUp {op : Option TaskOperation} {userId taskId : ℕ} :
      Issues ⟨op, userId, taskId, .missing⟩ .rollback
  | lose {op : TaskOperation} {userId taskId : ℕ} :
      Issues ⟨some op, userId, taskId, .lost⟩ .rollback
  | refuse {op : TaskOperation} {userId taskId : ℕ} {s : TaskModel} {stamp : Instant}
      (refused : ¬ op.Accepted) : Issues ⟨some op, userId, taskId, .stamped s stamp⟩ .rollback

/-- Both parties' protocol, for calls that do not fail. -/
def protocol : Protocol Command Command.Reply Exn Racing where
  guard := Issues
  reply := fun _ _ r => ∃ v, r = .ok v
  step := fun g c r g' => g' = { g with phase := g.phase.next c r }

/-- How a party ends. -/
def Ends (r : Except Exn Response) (g : Racing) : Prop :=
  match g.phase with
  | .committed out _ => r = .ok (.outcome out)
  | .deleted => r = .ok (.outcome (.taskDeleted g.userId g.taskId))
  | .absent => r = .error (.taskNotFoundError "Task not found.")
  | .failed => ∃ e, r = .error e ∧ ∀ message, e ≠ .taskNotFoundError message
  | _ => False

theorem meets_perform {c : Command} {g : Racing} {Q : Except Exn c.Reply → Racing → Prop} :
    (perform c).Meets protocol g Q ↔
      Issues g c ∧ ∀ v : c.Reply, Q (.ok v) { g with phase := g.phase.next c (.ok v) } := by
  show (Program.perform c).Meets protocol g Q ↔ _
  rw [Program.meets_perform]
  constructor
  · rintro ⟨hguard, h⟩
    refine ⟨hguard, fun v => ?_⟩
    obtain ⟨_, rfl, hQ⟩ := h _ ⟨v, rfl⟩
    exact hQ
  · rintro ⟨hguard, h⟩
    refine ⟨hguard, ?_⟩
    rintro _ ⟨v, rfl⟩
    exact ⟨_, rfl, h v⟩

/-- What the operation of a transaction has to reach. -/
def Settles {α : Type} (outcome : α → Outcome) (r : Except Exn α) (g : Racing) : Prop :=
  match r with
  | .ok a => Issues g (.commit (outcome a)) ∧
      Ends (.ok (.outcome (outcome a)))
        { g with phase := g.phase.next (.commit (outcome a)) (.ok ()) }
  | .error e => Issues g .rollback ∧
      Ends (.error e) { g with phase := g.phase.next .rollback (.ok ()) }

theorem meets_transaction {α : Type} {outcome : α → Outcome} {operation : Tx α} {g : Racing}
    (h : operation.Meets protocol g (Settles outcome)) :
    (transaction outcome operation).Meets protocol g Ends := by
  refine Program.meets_bind.mpr (meets_transactionRunner.mpr (h.mono ?_))
  rintro (e | a) g' hg'
  · exact meets_perform.mpr ⟨hg'.1, fun _ => hg'.2⟩
  · exact meets_perform.mpr ⟨hg'.1, fun _ => hg'.2⟩

/-- An unmarked error rolls the transaction back into failure. -/
theorem settles_failed {α : Type} (outcome : α → Outcome) {g : Racing} {e : Exn}
    (hguard : Issues g .rollback) (hphase : g.phase.next .rollback (.ok ()) = .failed)
    (he : ∀ message, e ≠ .taskNotFoundError message) : Settles outcome (.error e) g := by
  refine ⟨hguard, ?_⟩
  unfold Ends
  rw [hphase]
  exact ⟨e, rfl, he⟩

/-- The first read, and what follows if it finds the task. -/
theorem meets_getOwned {α : Type} {outcome : α → Outcome} {op : TaskOperation}
    {userId taskId : ℕ} {K : Task → Tx α}
    (h : ∀ s : TaskModel, (K (s.detach taskId)).Meets protocol
      ⟨some op, userId, taskId, .found s⟩ (Settles outcome)) :
    Program.Meets protocol (do
      match ← TaskRepository.getOwned taskId userId with
      | none => throw (.taskNotFoundError "Task not found.")
      | some task => K task) ⟨some op, userId, taskId, .start⟩ (Settles outcome) := by
  unfold TaskRepository.getOwned TaskRepository.ownedQuery
  refine Program.meets_bind.mpr (Program.meets_bind.mpr (meets_perform.mpr
    ⟨.read, ?_⟩))
  rintro (_ | s)
  · exact ⟨.giveUp, rfl⟩
  · exact h s

/-- Over the row it was loaded from, a flush writes what was assigned. -/
theorem merge_assign (edit : UserEdit) (s l : TaskModel) (stamp : Instant) :
    TaskModel.merge l (edit.assign s l stamp) l = edit.assign s l stamp := by
  unfold TaskModel.merge
  simp only [column_self]
  cases edit <;> rfl

/-- The second read and the flush. -/
theorem meets_update {op : TaskOperation} {edit : UserEdit} {userId taskId : ℕ} {s : TaskModel}
    {stamp : Instant} {task : Task} (hedit : op.edit = some (.ok edit))
    (hid : task.id = some taskId) (huser : task.userId = s.userId)
    (hassign : ∀ l : TaskModel,
      { l with
        title := task.title
        description := task.description
        isCompleted := task.isCompleted
        backgroundProcessedAt := task.backgroundProcessedAt
        updatedAt := task.updatedAt } = edit.assign s l stamp) :
    (do let updated ← TaskRepository.update task
        liftExcept (taskResult updated)).Meets protocol
      ⟨some op, userId, taskId, .stamped s stamp⟩ (Settles op.outcome) := by
  have haccepted := TaskOperation.accepted_of_edit hedit
  -- the statement writes what the edit assigns, under the time it is stamped with
  have hwrite : ∀ (l : TaskModel) (stamp' : Instant), edit.assign s l stamp ≠ l →
      (TaskModel.write taskId l (edit.assign s l stamp) stamp').Meets protocol
        ⟨some op, userId, taskId, .loaded s l stamp⟩
        (Program.onOk (fun model g' => Program.Meets protocol
          (liftExcept (taskResult (model.detach taskId))) g' (Settles op.outcome))
          (Settles op.outcome)) := by
    intro l stamp' hne
    unfold TaskModel.write
    rw [UserEdit.assign_stamp]
    refine Program.meets_bind.mpr (meets_perform.mpr ⟨.write stamp' hedit hne, ?_⟩)
    rintro (_ | a)
    · exact settles_failed op.outcome .lose rfl fun _ h => by cases h
    · have hv : (RacePhase.loaded s l stamp).next (.update (.task taskId) (fun _ => true)
          (TaskModel.merge l (edit.assign s l stamp'))) (.ok (some a)) =
          .written s (edit.assign s l stamp') :=
        congrArg (RacePhase.written s) (merge_assign edit s l stamp')
      simp only [Program.onOk_ok, hv]
      exact ⟨.commitWritten, rfl⟩
  unfold TaskRepository.update TaskRepository.ownedQuery
  rw [hid, huser]
  refine Program.meets_bind.mpr (Program.meets_bind.mpr (meets_perform.mpr
    ⟨.reread haccepted, ?_⟩))
  rintro (_ | l)
  · exact settles_failed op.outcome .lose rfl fun _ h => by cases h
  · simp only [Program.onOk_ok, hassign]
    show Program.Meets protocol _ ⟨some op, userId, taskId, .loaded s l stamp⟩ _
    rw [TaskModel.flush_eq]
    -- where nothing changes the session sends no UPDATE, and the commit keeps the row as it was
    -- read
    by_cases hsame : edit.assign s l stamp = l
    · rw [if_pos hsame, hsame]
      exact ⟨.commitLoaded hedit hsame, rfl⟩
    · rw [if_neg hsame]
      -- `onupdate` asks the server for the time only where the edit has left `updated_at` as it
      -- was
      by_cases htime : (edit.assign s l stamp).updatedAt = l.updatedAt
      · rw [if_pos htime]
        refine Program.meets_bind.mpr (Program.meets_bind.mpr (meets_perform.mpr
          ⟨.serverStamp hedit hsame, fun stamp' => ?_⟩))
        exact hwrite l stamp' hsame
      · rw [if_neg htime]
        exact Program.meets_bind.mpr (Program.meets_bind.mpr
          (hwrite l (edit.assign s l stamp).updatedAt hsame))

/-- Refused texts are refused with a validation error. -/
theorem edit_error {task : Task} {title : String} {description : Option String}
    {changedAt : Instant} {e : Exn} (h : task.edited title description changedAt = .error e) :
    (TaskOperation.update title description).edit = some (.error e) ∧
      ∀ message, e ≠ .taskNotFoundError message := by
  unfold Task.edited at h
  simp only [TaskOperation.edit, Request.userEdit]
  -- the title is checked first; both checks raise validation errors only
  rcases ht : normalizeTitle title with e' | t
  · rw [ht] at h
    cases h
    refine ⟨rfl, ?_⟩
    rintro message rfl
    unfold normalizeTitle at ht
    dsimp only at ht
    split at ht
    · cases ht
    · split at ht <;> cases ht
  · rcases hd : normalizeDescription description with e' | d
    · rw [ht, hd] at h
      cases h
      refine ⟨rfl, ?_⟩
      rintro message rfl
      unfold normalizeDescription at hd
      cases description with
      | none => cases hd
      | some value =>
        dsimp only at hd
        split at hd
        · cases hd
        · split at hd <;> cases hd
    · rw [ht, hd] at h
      cases h

/-- **An operation keeps to the protocol.** -/
theorem meets_operation (op : TaskOperation) (userId taskId : ℕ) :
    (op.request userId taskId).code.Meets protocol ⟨some op, userId, taskId, .start⟩ Ends := by
  cases op with
  | get =>
    refine meets_transaction (meets_getOwned fun s => ?_)
    exact ⟨.commitFound rfl, rfl⟩
  | update title description =>
    refine meets_transaction (meets_getOwned fun s => ?_)
    refine Program.meets_bind.mpr (meets_perform.mpr ⟨.stamp rfl, fun stamp => ?_⟩)
    rw [Program.onOk_ok, Program.bind_eq, Program.meets_bind, meets_liftExcept]
    rcases he : (s.detach taskId).edited title description stamp with e | task
    · obtain ⟨hedit, hne⟩ := edit_error he
      exact settles_failed Outcome.taskUpdated (.refuse fun h => h e hedit) rfl hne
    · obtain ⟨t, d, ht, hd, rfl⟩ := Task.edited_ok he
      have hop : (TaskOperation.update title description).edit = some (.ok (.edit t d)) := by
        simp only [TaskOperation.edit, Request.userEdit, ht, hd]
        rfl
      exact meets_update hop rfl rfl fun l => rfl
  | toggle =>
    refine meets_transaction (meets_getOwned fun s => ?_)
    refine Program.meets_bind.mpr (meets_perform.mpr ⟨.stamp rfl, fun stamp => ?_⟩)
    have hop : TaskOperation.toggle.edit = some (.ok .toggle) := rfl
    exact meets_update hop rfl rfl fun l => rfl

/-- **A deletion keeps to the protocol.** -/
theorem meets_deletion (userId taskId : ℕ) :
    (Request.delete userId taskId).code.Meets protocol ⟨none, userId, taskId, .start⟩ Ends := by
  refine meets_transaction (Program.meets_bind.mpr (Program.meets_bind.mpr (meets_perform.mpr
    ⟨.delete, ?_⟩)))
  rintro (_ | row)
  · exact ⟨.giveUp, rfl⟩
  · exact ⟨.commitRemoved, rfl⟩

end Racing

/-! ### The world of a race

The operation runs as session 0, the deletion as session 1. -/

namespace RacePhase

/-- The committed row of the task, `before` at first, for both parties' phases. -/
def row (before : Option TaskModel) : RacePhase → RacePhase → Option TaskModel
  | _, .deleted => none
  | .committed _ v, _ => some v
  | _, _ => before

/-- Who has locked it. -/
def hold : RacePhase → RacePhase → Hold TaskModel
  | .written _ v, _ => .written 0 (some v)
  | _, .removed => .written 1 none
  | _, _ => .free

/-- The log, newest first; the deletion may commit before a result that changes
nothing. -/
def Logged (before : Option TaskModel) (deletion : Outcome) (log : List (ℕ × Outcome)) :
    RacePhase → RacePhase → Prop
  | .committed out v, .deleted =>
    log = [(1, deletion), (0, out)] ∨ log = [(0, out), (1, deletion)] ∧ before = some v
  | .committed out _, _ => log = [(0, out)]
  | _, .deleted => log = [(1, deletion)]
  | _, _ => log = []

/-- What the operation knows of the row the task had at first. -/
def Known (op : TaskOperation) (userId taskId : ℕ) (before : Option TaskModel) :
    RacePhase → Prop
  | .found s => before = some s ∧ s.userId = userId
  | .stamped s _ => before = some s ∧ s.userId = userId
  | .loaded s l _ => (before = some s ∧ s.userId = userId) ∧ l = s
  | .written s v => (before = some s ∧ s.userId = userId) ∧
      op.Accepted ∧ ∃ stamp, v = op.effect s stamp
  | .committed out v => ∃ s, (before = some s ∧ s.userId = userId) ∧
      (op.Accepted ∧ ∃ stamp, v = op.effect s stamp) ∧ out = op.outcome (v.result taskId)
  | .removed => False
  | .deleted => False
  | _ => True

/-- The operation has read a row that it still counts on. -/
def Bound (op : TaskOperation) : RacePhase → Prop
  | .found _ => op.edit.isSome
  | .stamped _ _ => True
  | .loaded s l stamp => ∃ edit, op.edit = some (.ok edit) ∧ edit.assign s l stamp ≠ l
  | .lost => True
  | .failed => True
  | _ => False

/-- Neither a write nor a commit of the operation. -/
def Plain : RacePhase → Prop
  | .written _ _ => False
  | .committed _ _ => False
  | _ => True

theorem Plain.row {before : Option TaskModel} {a b : RacePhase} (h : a.Plain) :
    a.row before b = RacePhase.row before .start b := by
  cases a with
  | written s v => exact h.elim
  | committed out v => exact h.elim
  | _ => cases b <;> rfl

theorem Plain.hold {a b : RacePhase} (h : a.Plain) : a.hold b = RacePhase.hold .start b := by
  cases a with
  | written s v => exact h.elim
  | committed out v => exact h.elim
  | _ => cases b <;> rfl

theorem Plain.logged {before : Option TaskModel} {deletion : Outcome}
    {log : List (ℕ × Outcome)} {a a' b : RacePhase} (h : a.Plain) (h' : a'.Plain)
    (hlog : Logged before deletion log a b) : Logged before deletion log a' b := by
  have hstart : Logged before deletion log .start b := by
    cases a with
    | written s v => exact h.elim
    | committed out v => exact h.elim
    | _ => cases b <;> exact hlog
  cases a' with
  | written s v => exact h'.elim
  | committed out v => exact h'.elim
  | _ => cases b <;> exact hstart

/-- Session 0 sees the committed row unless it has written. -/
theorem view_zero {before : Option TaskModel} {a b : RacePhase} (h : a.Plain) :
    (⟨a.row before b, a.hold b⟩ : Cell TaskModel).view 0 = a.row before b := by
  rw [h.hold]
  cases b <;> rfl

/-- A row that is there has not been deleted. -/
theorem row_some {before : Option TaskModel} {a b : RacePhase} {s : TaskModel} (h : a.Plain)
    (hrow : a.row before b = some s) : b ≠ .deleted ∧ before = some s := by
  rw [h.row] at hrow
  constructor
  · rintro rfl
    cases hrow
  · cases b with
    | deleted => cases hrow
    | _ => exact hrow

theorem row_none {before : Option TaskModel} {a b : RacePhase} {s : TaskModel} (h : a.Plain)
    (hbefore : before = some s) (hrow : a.row before b = none) : b = .deleted := by
  rw [h.row, hbefore] at hrow
  cases b with
  | deleted => rfl
  | _ => cases hrow

end RacePhase

open RacePhase

/-- The world of a race that began in `before`, for the phases of both parties. -/
structure Stands (op : TaskOperation) (userId taskId deleter : ℕ) (before w : Db)
    (a b : RacePhase) : Prop where
  others : ∀ k, k ≠ .task taskId → w.cell k = before.cell k ∧ (w.cell k).hold.owner = none
  cell : w.cell (.task taskId) = ⟨a.row (before.row (.task taskId)) b, a.hold b⟩
  log : Logged (before.row (.task taskId)) (.taskDeleted deleter taskId) w.log a b
  known : Known op userId taskId (before.row (.task taskId)) a
  apart : ∀ s v, a = .written s v → b ≠ .removed ∧ b ≠ .deleted
  gone : a = .lost ∨ a = .failed ∧ op.Accepted → b = .deleted

namespace Stands

variable {op : TaskOperation} {userId taskId deleter : ℕ} {before w w' : Db} {a a' b : RacePhase}

/-- A read that only moves the operation on. -/
theorem move (h : Stands op userId taskId deleter before w a b) (ha : a.Plain) (ha' : a'.Plain)
    (hknown : Known op userId taskId (before.row (.task taskId)) a')
    (hgone : a' = .lost ∨ a' = .failed ∧ op.Accepted → b = .deleted) :
    Stands op userId taskId deleter before w a' b where
  others := h.others
  cell := by rw [h.cell, ha.row, ha'.row, ha.hold, ha'.hold]
  log := ha.logged ha' h.log
  known := hknown
  apart := by
    rintro s v rfl
    exact ha'.elim
  gone := hgone

/-- What lies outside the database does not matter. -/
theorem env (h : Stands op userId taskId deleter before w a b) (queue : Queue) :
    Stands op userId taskId deleter before { w with env := queue } a b :=
  ⟨h.others, h.cell, h.log, h.known, h.apart, h.gone⟩

/-- A rollback of a party that has written nothing. -/
theorem release {i : ℕ} (h : Stands op userId taskId deleter before w a b)
    (hi : (a.hold b).owner ≠ some i) :
    Stands op userId taskId deleter before (w.release i) a b where
  others := by
    intro k hk
    obtain ⟨hcell, howner⟩ := h.others k hk
    have hfree : (w.cell k).hold.owner ≠ some i := by
      rw [howner]
      exact nofun
    rw [World.release_cell, Cell.release_of_ne hfree]
    exact ⟨hcell, howner⟩
  cell := by
    rw [World.release_cell, h.cell]
    exact Cell.release_of_ne hi
  log := h.log
  known := h.known
  apart := h.apart
  gone := h.gone

/-- A write to the task leaves the other rows. -/
theorem write_others {i : ℕ} (h : Stands op userId taskId deleter before w a b)
    (v : Option TaskModel) (k : Key) (hk : k ≠ .task taskId) :
    (w.write i (.task taskId) v).cell k = before.cell k ∧
      ((w.write i (.task taskId) v).cell k).hold.owner = none := by
  rw [World.write_cell_of_ne _ _ hk]
  exact h.others k hk

/-- So does a commit. -/
theorem commit_others {i : ℕ} (h : Stands op userId taskId deleter before w a b)
    (out : Outcome) (k : Key) (hk : k ≠ .task taskId) :
    (w.commit i out).cell k = before.cell k ∧
      ((w.commit i out).cell k).hold.owner = none := by
  obtain ⟨hcell, howner⟩ := h.others k hk
  have hfree : (w.cell k).hold.owner ≠ some i := by
    rw [howner]
    exact nofun
  rw [World.commit_cell, Cell.publish_of_ne hfree]
  exact ⟨hcell, howner⟩

/-- The result of an operation that writes nothing. -/
theorem commit_unchanged {s : TaskModel} {out : Outcome}
    (h : Stands op userId taskId deleter before w a b) (ha : a.Plain)
    (hbefore : before.row (.task taskId) = some s)
    (hknown : Known op userId taskId (before.row (.task taskId)) (.committed out s)) :
    Stands op userId taskId deleter before (w.commit 0 out) (.committed out s) b where
  others := h.commit_others out
  cell := by
    have howner : (w.cell (.task taskId)).hold.owner ≠ some 0 := by
      rw [h.cell, ha.hold]
      cases b <;> exact nofun
    rw [World.commit_cell, Cell.publish_of_ne howner, h.cell, ha.row, ha.hold, hbefore]
    cases b <;> rfl
  log := by
    have hlog : Logged (before.row (.task taskId)) (.taskDeleted deleter taskId) w.log .start b :=
      ha.logged trivial h.log
    rw [World.commit_log]
    cases b with
    | deleted => exact Or.inr ⟨congrArg _ hlog, hbefore⟩
    | _ => exact congrArg _ hlog
  known := hknown
  apart := by
    rintro s v ⟨⟩
  gone := by
    rintro (h | ⟨h, -⟩) <;> cases h

/-- What the operation reads before it writes. -/
theorem read (h : Stands op userId taskId deleter before w a b) (ha : a.Plain)
    {p : TaskModel → Bool} {x : Choice Fault Decision} {v : Option TaskModel}
    (he : exec Fault.exn (outside fun _ _ => false) w 0 (.select (.task taskId) p) x =
      some (.ok v, w')) :
    w' = w ∧ v = (a.row (before.row (.task taskId)) b).filter p := by
  obtain ⟨rfl, ⟨e, hr⟩ | hr⟩ := exec_select he
  · cases hr
  · refine ⟨rfl, ?_⟩
    rw [h.cell, view_zero ha] at hr
    exact Except.ok.inj hr

/-- The operation has moved on from `a` to `a'`: the invariant holds, and it is bound to a row that
has been deleted exactly if it was. -/
structure Proceeds (op : TaskOperation) (userId taskId deleter : ℕ) (before w : Db)
    (a a' b : RacePhase) : Prop where
  stands : Stands op userId taskId deleter before w a' b
  bound : op.Accepted → b = .deleted → (Bound op a' ↔ Bound op a)

/-! The statements of the operation, one after another. -/

/-- A row that another session has not deleted is found again. -/
theorem deleted_of_unread (ha : a.Plain) {s : TaskModel} {p : TaskModel → Bool}
    (hbefore : before.row (.task taskId) = some s) (hp : p s = true)
    (hread : (a.row (before.row (.task taskId)) b).filter p = none) : b = .deleted := by
  refine row_none ha hbefore ?_
  cases hrow : a.row (before.row (.task taskId)) b with
  | none => rfl
  | some row =>
    obtain rfl := Option.some_inj.mp ((row_some ha hrow).2.symm.trans hbefore)
    rw [hrow, Option.filter_some, hp, if_pos rfl] at hread
    cases hread

theorem read_first (h : Stands op userId taskId deleter before w .start b)
    {x : Choice Fault Decision} {v : Option TaskModel}
    (he : exec Fault.exn (outside fun _ _ => false) w 0
      (.select (.task taskId) fun row => row.userId == userId) x = some (.ok v, w')) :
    Proceeds op userId taskId deleter before w' .start
      (RacePhase.start.next (.select (.task taskId) fun row => row.userId == userId) (.ok v))
      b := by
  obtain ⟨rfl, hv⟩ := h.read (a := .start) trivial he
  rcases v with _ | s
  · refine ⟨h.move trivial trivial trivial ?_, fun _ _ => Iff.rfl⟩
    rintro (h | ⟨h, -⟩) <;> cases h
  · obtain ⟨hrow, huser⟩ := Option.filter_eq_some_iff.mp hv.symm
    obtain ⟨hb, hbefore⟩ := row_some (a := .start) trivial hrow
    refine ⟨h.move trivial trivial ⟨hbefore, by simpa using huser⟩ ?_,
      fun _ hdeleted => absurd hdeleted hb⟩
    rintro (h | ⟨h, -⟩) <;> cases h

theorem read_again {s : TaskModel} {stamp : Instant}
    (h : Stands op userId taskId deleter before w (.stamped s stamp) b)
    {x : Choice Fault Decision} {v : Option TaskModel}
    (he : exec Fault.exn (outside fun _ _ => false) w 0
      (.select (.task taskId) fun row => row.userId == s.userId) x = some (.ok v, w')) :
    Proceeds op userId taskId deleter before w' (.stamped s stamp) ((RacePhase.stamped s stamp).next
      (.select (.task taskId) fun row => row.userId == s.userId) (.ok v)) b := by
  obtain ⟨rfl, hv⟩ := h.read (a := .stamped s stamp) trivial he
  rcases v with _ | l
  · have hb : b = .deleted := deleted_of_unread (a := .stamped s stamp)
      (p := fun row => row.userId == s.userId) trivial h.known.1 (beq_self_eq_true _) hv.symm
    exact ⟨h.move trivial trivial trivial fun _ => hb, fun _ _ => Iff.rfl⟩
  · obtain ⟨hrow, -⟩ := Option.filter_eq_some_iff.mp hv.symm
    obtain ⟨hb, hbefore⟩ := row_some (a := .stamped s stamp) trivial hrow
    have hl : l = s := Option.some_inj.mp (hbefore.symm.trans h.known.1)
    refine ⟨h.move trivial trivial ⟨h.known, hl⟩ ?_, fun _ hdeleted => absurd hdeleted hb⟩
    rintro (h | ⟨h, -⟩) <;> cases h

/-- The write finds the row as it was read, unless the deletion has been committed. -/
theorem write_row {s l : TaskModel} {stamp stamp' : Instant} {edit : UserEdit}
    (h : Stands op userId taskId deleter before w (.loaded s l stamp) b)
    (hedits : op.edit = some (.ok edit)) (hchanges : edit.assign s l stamp ≠ l)
    {x : Choice Fault Decision} {v : Option TaskModel}
    (he : exec Fault.exn (outside fun _ _ => false) w 0 (.update (.task taskId) (fun _ => true)
      (TaskModel.merge l (edit.assign s l stamp'))) x = some (.ok v, w')) :
    Proceeds op userId taskId deleter before w' (.loaded s l stamp)
      ((RacePhase.loaded s l stamp).next (.update (.task taskId) (fun _ => true)
        (TaskModel.merge l (edit.assign s l stamp'))) (.ok v)) b := by
  obtain ⟨hknown, rfl⟩ := h.known
  have ha : (RacePhase.loaded l l stamp).Plain := trivial
  obtain ⟨-, e, hr⟩ | ⟨rfl, hr, habsent⟩ | ⟨row, rfl, hr, hacquire⟩ := exec_update he
  · cases hr
  · cases hr
    have hunread :
        (RacePhase.row (before.row (.task taskId)) (.loaded l l stamp) b).filter (fun _ => true) =
          none := by
      refine Option.filter_eq_none_iff.mpr fun row hrow _ => ?_
      have hview : (w'.cell (.task taskId)).view 0 = some row := by
        rw [h.cell, view_zero ha]
        exact hrow
      cases World.acquire_absent habsent row hview
    have hb : b = .deleted := deleted_of_unread ha hknown.1 rfl hunread
    exact ⟨h.move ha trivial trivial fun _ => hb,
      fun _ _ => iff_of_true trivial ⟨edit, hedits, hchanges⟩⟩
  · cases hr
    obtain ⟨hview, -, hopen⟩ := World.acquire_row hacquire
    rw [h.cell, view_zero ha] at hview
    obtain ⟨hb, hbefore⟩ := row_some ha hview
    obtain rfl := Option.some_inj.mp (hbefore.symm.trans hknown.1)
    -- the deletion has not locked the row either
    have hremoved : b ≠ .removed := by
      rintro rfl
      rw [h.cell] at hopen
      obtain howner | howner := hopen <;> cases howner
    refine ⟨⟨h.write_others _, ?_, ?_, ⟨hknown, TaskOperation.accepted_of_edit hedits, stamp', ?_⟩,
      fun _ _ _ => ⟨hremoved, hb⟩, ?_⟩, fun _ hdeleted => absurd hdeleted hb⟩
    · rw [World.write_cell_self, h.cell]
      cases b <;> rfl
    · have hlog :
          Logged (before.row (.task taskId)) (.taskDeleted deleter taskId) w.log .start b :=
        ha.logged trivial h.log
      cases b with
      | deleted => exact absurd rfl hb
      | _ => exact hlog
    · show TaskModel.merge row (edit.assign row row stamp') row = _
      rw [Racing.merge_assign, TaskOperation.effect, hedits]
    · rintro (h | ⟨h, -⟩) <;> cases h

/-- The operation only reads. -/
theorem commit_found {s : TaskModel} (h : Stands op userId taskId deleter before w (.found s) b)
    (hreads : op.edit = none) {out : Outcome} (hout : out = op.outcome (s.result taskId)) :
    Proceeds op userId taskId deleter before (w.commit 0 out) (.found s) (.committed out s) b := by
  subst hout
  refine ⟨h.commit_unchanged trivial h.known.1 ⟨s, h.known, ⟨?_, 0, ?_⟩, rfl⟩, fun _ _ => ?_⟩
  · intro e he
    cases hreads.symm.trans he
  · rw [TaskOperation.effect, hreads]
  · refine iff_of_false id ?_
    show ¬ op.edit.isSome = true
    rw [hreads]
    exact nofun

/-- There is nothing to write. -/
theorem commit_loaded {s l : TaskModel} {stamp : Instant} {edit : UserEdit}
    (h : Stands op userId taskId deleter before w (.loaded s l stamp) b)
    (hedits : op.edit = some (.ok edit)) (hsame : edit.assign s l stamp = l) {out : Outcome}
    (hout : out = op.outcome (l.result taskId)) :
    Proceeds op userId taskId deleter before (w.commit 0 out) (.loaded s l stamp)
      (.committed out l) b := by
  subst hout
  obtain ⟨hknown, rfl⟩ := h.known
  refine ⟨h.commit_unchanged trivial hknown.1
    ⟨l, hknown, ⟨TaskOperation.accepted_of_edit hedits, stamp, ?_⟩, rfl⟩, fun _ _ => ?_⟩
  · rw [TaskOperation.effect, hedits]
    exact hsame.symm
  · refine iff_of_false id ?_
    rintro ⟨edit', hedits', hchanges⟩
    cases hedits.symm.trans hedits'
    exact hchanges hsame

/-- What has been written is committed; the deletion waits for it. -/
theorem commit_written {s v : TaskModel}
    (h : Stands op userId taskId deleter before w (.written s v) b) {out : Outcome}
    (hout : out = op.outcome (v.result taskId)) :
    Proceeds op userId taskId deleter before (w.commit 0 out) (.written s v)
      (.committed out v) b := by
  subst hout
  obtain ⟨hremoved, hb⟩ := h.apart s v rfl
  refine ⟨⟨h.commit_others _, ?_, ?_, ⟨s, h.known.1, h.known.2, rfl⟩, ?_, ?_⟩,
    fun _ hdeleted => absurd hdeleted hb⟩
  · have howner : (w.cell (.task taskId)).hold.owner = some 0 := by
      rw [h.cell]
      rfl
    rw [World.commit_cell, Cell.publish_of_owner howner, h.cell]
    cases b <;> first | rfl | exact absurd rfl hb | exact absurd rfl hremoved
  · have hlog := h.log
    rw [World.commit_log]
    cases b with
    | deleted => exact absurd rfl hb
    | _ => exact congrArg _ hlog
  · rintro s v ⟨⟩
  · rintro (h | ⟨h, -⟩) <;> cases h

/-- **A statement of the operation** moves it on, and leaves it bound to a row that
has been deleted exactly if it was. -/
theorem operation (h : Stands op userId taskId deleter before w a b) {c : Command}
    (hissues : Racing.Issues ⟨some op, userId, taskId, a⟩ c) {x : Choice Fault Decision}
    {v : c.Reply} (he : exec Fault.exn (outside fun _ _ => false) w 0 c x = some (.ok v, w')) :
    Proceeds op userId taskId deleter before w' a (a.next c (.ok v)) b := by
  cases hissues with
  | read => exact h.read_first he
  -- a deletion disturbs the edit before its time is read and after
  | @stamp _ _ _ s hedits =>
    obtain ⟨-, e, hr⟩ | ⟨d, env, -, rfl⟩ := exec_ext he
    · cases hr
    · have hgone : RacePhase.stamped s v = .lost ∨ RacePhase.stamped s v = .failed ∧ op.Accepted →
          b = .deleted := by
        rintro (h | ⟨h, -⟩) <;> cases h
      have hplain : (RacePhase.stamped s v).Plain := trivial
      exact ⟨(h.move trivial hplain h.known hgone).env env,
        fun _ _ => iff_of_true trivial hedits⟩
  | reread => exact h.read_again he
  | serverStamp hedits hchanges =>
    obtain ⟨-, e, hr⟩ | ⟨d, env, -, rfl⟩ := exec_ext he
    · cases hr
    · exact ⟨h.env env, fun _ _ => Iff.rfl⟩
  | write _ hedits hchanges => exact h.write_row hedits hchanges he
  | commitFound hreads =>
    obtain ⟨-, e, hr⟩ | rfl := exec_commit he
    · cases hr
    · exact h.commit_found hreads rfl
  | commitLoaded hedits hsame =>
    obtain ⟨-, e, hr⟩ | rfl := exec_commit he
    · cases hr
    · exact h.commit_loaded hedits hsame rfl
  | commitWritten =>
    obtain ⟨-, e, hr⟩ | rfl := exec_commit he
    · cases hr
    · exact h.commit_written rfl
  -- a rollback lets go of what the operation held; only its phase changes
  | giveUp =>
    obtain ⟨rfl, -⟩ := exec_rollback he
    refine ⟨Stands.move (Stands.release h ?_) trivial trivial trivial ?_, fun _ _ => Iff.rfl⟩
    · cases b <;> exact nofun
    · rintro (h | ⟨h, -⟩) <;> cases h
  | lose =>
    obtain ⟨rfl, -⟩ := exec_rollback he
    refine ⟨Stands.move (Stands.release h ?_) trivial trivial trivial fun _ => h.gone (Or.inl rfl),
      fun _ _ => Iff.rfl⟩
    cases b <;> exact nofun
  | refuse hrefused =>
    obtain ⟨rfl, -⟩ := exec_rollback he
    refine ⟨Stands.move (Stands.release h ?_) trivial trivial trivial ?_,
      fun haccepted => absurd haccepted hrefused⟩
    · cases b <;> exact nofun
    · rintro (h | ⟨-, haccepted⟩)
      · cases h
      · exact absurd haccepted hrefused

/-- **A statement of the deletion** keeps the invariant, and only its commit, with its
result, makes it deleted. -/
theorem deletion (h : Stands op userId taskId deleter before w a b) {c : Command}
    (hissues : Racing.Issues ⟨none, deleter, taskId, b⟩ c) {x : Choice Fault Decision}
    {v : c.Reply} (he : exec Fault.exn (outside fun _ _ => false) w 1 c x = some (.ok v, w')) :
    Stands op userId taskId deleter before w' a (b.next c (.ok v)) ∧
      b ≠ .deleted ∧
      (b.next c (.ok v) = .deleted ↔ w'.log = (1, .taskDeleted deleter taskId) :: w.log) := by
  have hcons : ∀ entry, w.log ≠ entry :: w.log := fun entry => (List.cons_ne_self entry _).symm
  cases hissues with
  | delete =>
    -- the DELETE finds nothing, or the row, which it locks
    obtain ⟨-, e, hr⟩ | ⟨rfl, hr, -⟩ | ⟨row, rfl, hr, hacquire⟩ := exec_delete he
    · cases hr
    · cases hr
      refine ⟨⟨h.others, ?_, ?_, h.known, fun _ _ _ => ⟨nofun, nofun⟩, fun hgone => ?_⟩, nofun,
        iff_of_false nofun (hcons _)⟩
      · rw [h.cell]
        cases a <;> rfl
      · have hlog := h.log
        cases a <;> exact hlog
      · cases h.gone hgone
    · cases hr
      -- it would have waited for a row that the operation has written
      have ha : ∀ s v', a ≠ .written s v' := by
        rintro s v' rfl
        obtain ⟨-, -, hopen⟩ := World.acquire_row hacquire
        rw [h.cell] at hopen
        obtain howner | howner := hopen <;> cases howner
      refine ⟨⟨h.write_others _, ?_, ?_, h.known, fun s v' hw => absurd hw (ha s v'),
        fun hgone => ?_⟩, nofun, iff_of_false nofun (hcons _)⟩
      · rw [World.write_cell_self, h.cell]
        cases a <;> first | rfl | exact absurd rfl (ha _ _)
      · have hlog := h.log
        cases a <;> exact hlog
      · cases h.gone hgone
  | commitRemoved =>
    -- only the commit removes the row, whatever phase the operation is in
    obtain ⟨-, e, hr⟩ | rfl := exec_commit he
    · cases hr
    · have ha : ∀ s v', a ≠ .written s v' := fun s v' hw => (h.apart s v' hw).1 rfl
      have howner : (w.cell (.task taskId)).hold.owner = some 1 := by
        rw [h.cell]
        cases a <;> first | rfl | exact absurd rfl (ha _ _)
      refine ⟨⟨h.commit_others _, ?_, ?_, h.known, fun s v' hw => absurd hw (ha s v'),
        fun _ => rfl⟩, nofun, iff_of_true rfl rfl⟩
      · rw [World.commit_cell, Cell.publish_of_owner howner, h.cell]
        cases a <;> first | rfl | exact absurd rfl (ha _ _)
      · have hlog := h.log
        rw [World.commit_log]
        cases a with
        | committed out v' => exact Or.inl (congrArg _ hlog)
        | written s v' => exact absurd rfl (ha s v')
        | _ => exact congrArg _ hlog
  | giveUp =>
    obtain ⟨rfl, -⟩ := exec_rollback he
    have howner : (a.hold .missing).owner ≠ some 1 := by
      cases a <;> exact nofun
    have hreleased := h.release howner
    refine ⟨⟨hreleased.others, ?_, ?_, h.known, fun _ _ _ => ⟨nofun, nofun⟩, fun hgone => ?_⟩,
      nofun, iff_of_false nofun (hcons _)⟩
    · rw [hreleased.cell]
      cases a <;> rfl
    · have hlog := h.log
      cases a <;> exact hlog
    · cases h.gone hgone

end Stands

/-! ### Runs -/

/-- A run of one operation, as process 0, and one deletion of the same task, as
process 1, in which neither dies and no call fails. -/
structure Race extends DbRun (fun _ _ => false) Request.code fun _ _ => True where
  op : TaskOperation
  userId : ℕ
  taskId : ℕ
  deleter : ℕ
  parties : ∀ n i p, (state n).procs i = some p →
    i = 0 ∧ p.request = op.request userId taskId ∨ i = 1 ∧ p.request = .delete deleter taskId
  alive : ∀ n i p, (state n).procs i = some p → p.rest ≠ none
  faultless : ∀ n i p, (state n).procs i = some p → ∀ call ∈ p.calls, ∃ v, call.2 = .ok v

/-- A process of the task system. -/
abbrev TaskProcess := Process Command Command.Reply Exn Request Response

/-- The process has returned or raised. -/
def TaskProcess.Ended (p : TaskProcess) : Except Exn Response → Prop
  | .ok response => p.rest = some (.ret response)
  | .error e => p.rest = some (.raise e)

/-- The process has found its task and has a statement to issue before its end. -/
def TaskProcess.Midway (p : TaskProcess) : Prop :=
  taskReads p.calls ≠ [] ∧ ∃ c k, p.rest = some (.call c k) ∧ c ≠ .rollback ∧ ∀ out, c ≠ .commit out

/-- The task's row is `row`, and nothing else has changed. -/
def Leaves (taskId : ℕ) (row : Option TaskModel) (before after : Db) : Prop :=
  after.row (.task taskId) = row ∧ ∀ k, k ≠ .task taskId → after.row k = before.row k

/-- What an operation may end with, and the rows and the log then: not found, with
the task or without it, or its complete effect, which the deletion may have removed
since.  Only a result that changes nothing may come after the deletion. -/
inductive EndsWell (op : TaskOperation) (userId taskId deleter : ℕ) (before after : Db) :
    Except Exn Response → Prop where
  | notFound : after.log = [] → Leaves taskId (before.row (.task taskId)) before after →
      EndsWell op userId taskId deleter before after
        (.error (.taskNotFoundError "Task not found."))
  | gone : after.log = [(1, .taskDeleted deleter taskId)] → Leaves taskId none before after →
      EndsWell op userId taskId deleter before after
        (.error (.taskNotFoundError "Task not found."))
  | done (s : TaskModel) (stamp : Instant) (out : Outcome) :
      before.row (.task taskId) = some s → s.userId = userId →
      out = op.outcome ((op.effect s stamp).result taskId) → after.log = [(0, out)] →
      Leaves taskId (some (op.effect s stamp)) before after →
      EndsWell op userId taskId deleter before after (.ok (.outcome out))
  | deletedAfter (s : TaskModel) (stamp : Instant) (out : Outcome) :
      before.row (.task taskId) = some s → s.userId = userId →
      out = op.outcome ((op.effect s stamp).result taskId) →
      after.log = [(1, .taskDeleted deleter taskId), (0, out)] → Leaves taskId none before after →
      EndsWell op userId taskId deleter before after (.ok (.outcome out))
  | unchanged (s : TaskModel) (stamp : Instant) (out : Outcome) :
      before.row (.task taskId) = some s → s.userId = userId → op.effect s stamp = s →
      out = op.outcome (s.result taskId) →
      after.log = [(0, out), (1, .taskDeleted deleter taskId)] → Leaves taskId none before after →
      EndsWell op userId taskId deleter before after (.ok (.outcome out))

namespace RacePhase

/-- The operation has found the task. -/
def HasRead : RacePhase → Prop
  | .start => False
  | .missing => False
  | .absent => False
  | _ => True

/-- The phase of a process of a configuration. -/
def phaseOf (cfg : TaskConfig) (i : ℕ) : RacePhase :=
  (cfg.procs i).elim .start fun p => after p.calls

theorem phaseOf_proc {cfg : TaskConfig} {i : ℕ} {p : TaskProcess} (h : cfg.procs i = some p) :
    phaseOf cfg i = after p.calls := by
  rw [phaseOf, h]
  rfl

theorem phaseOf_none {cfg : TaskConfig} {i : ℕ} (h : cfg.procs i = none) :
    phaseOf cfg i = .start := by
  rw [phaseOf, h]
  rfl

end RacePhase

/-- The reads of an operation tell whether it has found the task. -/
theorem reads_next {op : TaskOperation} {userId taskId : ℕ} {a : RacePhase} {c : Command}
    (h : Racing.Issues ⟨some op, userId, taskId, a⟩ c) (v : c.Reply)
    {calls : List ((c : Command) × Except Exn c.Reply)}
    (hreads : taskReads calls ≠ [] ↔ a.HasRead) :
    taskReads (⟨c, .ok v⟩ :: calls) ≠ [] ↔ (a.next c (.ok v)).HasRead := by
  cases h with
  | read =>
    rcases v with _ | s
    · exact hreads
    · exact iff_of_true (List.cons_ne_nil _ _) trivial
  | reread haccepted =>
    rcases v with _ | l
    · exact hreads
    · exact iff_of_true (List.cons_ne_nil _ _) trivial
  | write stamp' hedits hchanges => rcases v with _ | l <;> exact hreads
  | _ => exact hreads

namespace Race

variable (race : Race)

/-- The phases of both parties in a state. -/
def phase (n i : ℕ) : RacePhase := phaseOf (race.state n) i

/-- The deletion commits in this step. -/
def Deletes (n : ℕ) : Prop :=
  (race.state (n + 1)).world.log =
    (1, .taskDeleted race.deleter race.taskId) :: (race.state n).world.log

/-- The operation is between its first read and its write in this state. -/
def Midway (n : ℕ) : Prop := ∃ p, (race.state n).procs 0 = some p ∧ TaskProcess.Midway p

/-- What is known of a state: the world, the rest of both programs, and whether the
deletion has committed in the middle of the operation. -/
structure Sound (n : ℕ) : Prop where
  stands : Stands race.op race.userId race.taskId race.deleter (race.state 0).world
    (race.state n).world (race.phase n 0) (race.phase n 1)
  operation : ∀ p, (race.state n).procs 0 = some p → ∃ rest, p.rest = some rest ∧
    rest.Meets Racing.protocol ⟨some race.op, race.userId, race.taskId, after p.calls⟩ Racing.Ends
  deletion : ∀ p, (race.state n).procs 1 = some p → ∃ rest, p.rest = some rest ∧
    rest.Meets Racing.protocol ⟨none, race.deleter, race.taskId, after p.calls⟩ Racing.Ends
  reads : ∀ p, (race.state n).procs 0 = some p → (taskReads p.calls ≠ [] ↔ (after p.calls).HasRead)
  doomed : race.op.Accepted → ((∃ m < n, race.Deletes m ∧ race.Midway m) ↔
    race.phase n 1 = .deleted ∧ Bound race.op (race.phase n 0))

end Race

/-- Between the first read and the write, the operation is bound to what it has read. -/
theorem midway_iff {op : TaskOperation} {userId taskId : ℕ} {p : TaskProcess}
    {rest : Tx Response} (hrest : p.rest = some rest) (haccepted : op.Accepted)
    (hmeets : rest.Meets Racing.protocol ⟨some op, userId, taskId, after p.calls⟩ Racing.Ends)
    (hreads : taskReads p.calls ≠ [] ↔ (after p.calls).HasRead)
    (hlost : after p.calls ≠ .lost) (hfailed : after p.calls ≠ .failed) :
    TaskProcess.Midway p ↔ Bound op (after p.calls) := by
  unfold TaskProcess.Midway
  rw [hreads, hrest]
  generalize after p.calls = a at hmeets hlost hfailed
  constructor
  -- the next call of a process midway is no rollback and no commit, so its phase is bound
  · rintro ⟨hread, c, k, hcall, hrollback, hcommit⟩
    cases hcall
    cases hmeets.1 with
    | read => exact hread.elim
    | stamp hedits => exact hedits
    | reread => trivial
    | serverStamp hedits hchanges => exact ⟨_, hedits, hchanges⟩
    | write stamp' hedits hchanges => exact ⟨_, hedits, hchanges⟩
    | commitFound => exact absurd rfl (hcommit _)
    | commitLoaded => exact absurd rfl (hcommit _)
    | commitWritten => exact absurd rfl (hcommit _)
    | giveUp => exact absurd rfl hrollback
    | lose => exact absurd rfl hrollback
    | refuse => exact absurd rfl hrollback
  -- no response ends a bound phase, so there is a next call
  · intro hbound
    cases rest with
    | ret response =>
      have hends : Racing.Ends (.ok response) ⟨some op, userId, taskId, a⟩ := hmeets
      cases a <;> first | exact hbound.elim | exact hends.elim | exact absurd rfl hfailed
    | raise e =>
      have hends : Racing.Ends (.error e) ⟨some op, userId, taskId, a⟩ := hmeets
      cases a <;> first | exact hbound.elim | exact hends.elim | exact absurd rfl hfailed
    | call c k =>
      cases hmeets.1 with
      | read => exact hbound.elim
      | stamp hedits => exact ⟨trivial, _, _, rfl, nofun, nofun⟩
      | reread => exact ⟨trivial, _, _, rfl, nofun, nofun⟩
      | serverStamp hedits hchanges => exact ⟨trivial, _, _, rfl, nofun, nofun⟩
      | write stamp' hedits hchanges => exact ⟨trivial, _, _, rfl, nofun, nofun⟩
      | commitFound hedit =>
        have hsome : op.edit.isSome = true := hbound
        rw [hedit] at hsome
        cases hsome
      | commitLoaded hedits hsame =>
        obtain ⟨edit', hedits', hchanges⟩ := hbound
        cases hedits.symm.trans hedits'
        exact absurd hsame hchanges
      | commitWritten => exact hbound.elim
      | giveUp => exact hbound.elim
      | lose => exact absurd rfl hlost
      | refuse hrefused => exact absurd haccepted hrefused

namespace Race

variable (race : Race)

/-- The program of a party, when it arrives. -/
theorem sound_zero : race.Sound 0 where
  stands := by
    have hstart : ∀ i, race.phase 0 i = .start := fun i => phaseOf_none (race.empty i)
    rw [hstart, hstart]
    refine ⟨fun k _ => ⟨rfl, race.unlocked k⟩, ?_, race.unlogged, trivial, ?_, ?_⟩
    · have hfree := race.unlocked (.task race.taskId)
      show (race.state 0).world.cell (.task race.taskId) =
        ⟨((race.state 0).world.cell (.task race.taskId)).committed, .free⟩
      rcases hcell : (race.state 0).world.cell (.task race.taskId) with ⟨committed, _ | i | ⟨i, v⟩⟩
      · rfl
      · rw [hcell] at hfree
        cases hfree
      · rw [hcell] at hfree
        cases hfree
    · rintro s v ⟨⟩
    · rintro (h | ⟨h, -⟩) <;> cases h
  operation := fun p hp => by
    rw [race.empty] at hp
    cases hp
  deletion := fun p hp => by
    rw [race.empty] at hp
    cases hp
  reads := fun p hp => by
    rw [race.empty] at hp
    cases hp
  doomed := fun _ => by
    have hstart : race.phase 0 1 = .start := phaseOf_none (race.empty 1)
    rw [hstart]
    exact iff_of_false (by simp) (by simp)

/-- Nothing has been recorded of a step that leaves the log. -/
theorem not_deletes {n : ℕ}
    (h : (race.state (n + 1)).world.log = (race.state n).world.log) : ¬ race.Deletes n := by
  intro hdeletes
  rw [Deletes, h] at hdeletes
  exact List.cons_ne_self _ _ hdeletes.symm

theorem history_succ {n : ℕ} (h : ¬ (race.Deletes n ∧ race.Midway n)) :
    (∃ m < n + 1, race.Deletes m ∧ race.Midway m) ↔
      ∃ m < n, race.Deletes m ∧ race.Midway m := by
  rw [Nat.exists_lt_succ_right]
  exact or_iff_left h

/-- A step after which both parties are where they were. -/
theorem Sound.still {race : Race} {n : ℕ} (h : race.Sound n)
    (hworld : (race.state (n + 1)).world = (race.state n).world)
    (hphase : ∀ i, race.phase (n + 1) i = race.phase n i)
    (hprocs : ∀ i p, (race.state (n + 1)).procs i = some p → (race.state n).procs i = some p ∨
      p = ⟨p.request, [], some p.request.code⟩) : race.Sound (n + 1) where
  stands := by
    rw [hworld, hphase, hphase]
    exact h.stands
  operation := fun p hp => by
    rcases hprocs 0 p hp with hp' | hnew
    · exact h.operation p hp'
    -- a process that has just arrived stands at the start of its protocol
    · rcases race.parties _ _ _ hp with ⟨-, hrequest⟩ | ⟨hone, -⟩
      · rw [hnew, hrequest]
        exact ⟨_, rfl, Racing.meets_operation _ _ _⟩
      · cases hone
  deletion := fun p hp => by
    rcases hprocs 1 p hp with hp' | hnew
    · exact h.deletion p hp'
    · rcases race.parties _ _ _ hp with ⟨hzero, -⟩ | ⟨-, hrequest⟩
      · cases hzero
      · rw [hnew, hrequest]
        exact ⟨_, rfl, Racing.meets_deletion _ _⟩
  reads := fun p hp => by
    rcases hprocs 0 p hp with hp' | hnew
    · exact h.reads p hp'
    · rw [hnew]
      exact iff_of_false (fun hne => hne rfl) id
  doomed := fun haccepted => by
    rw [race.history_succ fun hboth => race.not_deletes (congrArg World.log hworld) hboth.1,
      hphase, hphase]
    exact h.doomed haccepted

section Step

variable {race} {n : ℕ} {q : Request} {calls : List ((c : Command) × Except Exn c.Reply)}
  {c : Command} {k : Except Exn c.Reply → Tx Response} {v : c.Reply} {w : Db}
  {x : Choice Fault Decision}

/-- A step of the operation. -/
theorem Sound.operate (h : race.Sound n)
    (runs : (race.state n).procs 0 = some ⟨q, calls, some (.call c k)⟩)
    (does : exec Fault.exn (outside fun _ _ => false) (race.state n).world 0 c x =
      some (.ok v, w))
    (hstate : race.state (n + 1) =
      (race.state n).set 0 ⟨q, ⟨c, .ok v⟩ :: calls, some (k (.ok v))⟩ w) :
    race.Sound (n + 1) := by
  have hzero : (race.state (n + 1)).procs 0 =
      some ⟨q, ⟨c, .ok v⟩ :: calls, some (k (.ok v))⟩ := by
    rw [hstate]
    exact Config.set_procs_self _ _ _ _
  have hone : (race.state (n + 1)).procs 1 = (race.state n).procs 1 := by
    rw [hstate]
    exact Config.set_procs_of_ne _ (by decide) _ _
  have hworld : (race.state (n + 1)).world = w := by
    rw [hstate]
    rfl
  have hphase : race.phase n 0 = after calls := phaseOf_proc runs
  have hphase₀ : race.phase (n + 1) 0 = (after calls).next c (.ok v) := phaseOf_proc hzero
  have hphase₁ : race.phase (n + 1) 1 = race.phase n 1 := by
    rw [phase, phase, phaseOf, phaseOf, hone]
  -- only process 0 has moved, by a call its protocol allows
  obtain ⟨rest, hrest, hmeets⟩ := h.operation _ runs
  cases hrest
  have hissues := hmeets.1
  obtain ⟨_, rfl, hmeets'⟩ := hmeets.2 (.ok v) ⟨v, rfl⟩
  have hstands := h.stands
  rw [hphase] at hstands
  obtain ⟨hstands', hbound⟩ := hstands.operation hissues does
  -- the log entry of a deletion would be of process 1
  have hlog : ¬ race.Deletes n := by
    intro hdeletes
    rw [Deletes, hworld] at hdeletes
    obtain ⟨-, hsame⟩ | ⟨out, rfl, rfl⟩ := exec_row does
    · rw [hsame] at hdeletes
      exact List.cons_ne_self _ _ hdeletes.symm
    · rw [World.commit_log, List.cons.injEq, Prod.mk.injEq] at hdeletes
      exact absurd hdeletes.1.1 (by decide)
  refine ⟨?_, ?_, ?_, ?_, ?_⟩
  · rw [hworld, hphase₀, hphase₁]
    exact hstands'
  · intro p hp
    cases hzero.symm.trans hp
    exact ⟨_, rfl, hmeets'⟩
  · intro p hp
    rw [hone] at hp
    exact h.deletion p hp
  · intro p hp
    cases hzero.symm.trans hp
    exact reads_next hissues v (h.reads _ runs)
  · intro haccepted
    rw [race.history_succ fun hboth => hlog hboth.1, h.doomed haccepted, hphase₀, hphase₁, hphase]
    exact and_congr_right fun hdeleted => (hbound haccepted hdeleted).symm

/-- A step of the deletion. -/
theorem Sound.delete (h : race.Sound n)
    (runs : (race.state n).procs 1 = some ⟨q, calls, some (.call c k)⟩)
    (does : exec Fault.exn (outside fun _ _ => false) (race.state n).world 1 c x =
      some (.ok v, w))
    (hstate : race.state (n + 1) =
      (race.state n).set 1 ⟨q, ⟨c, .ok v⟩ :: calls, some (k (.ok v))⟩ w) :
    race.Sound (n + 1) := by
  have hone : (race.state (n + 1)).procs 1 =
      some ⟨q, ⟨c, .ok v⟩ :: calls, some (k (.ok v))⟩ := by
    rw [hstate]
    exact Config.set_procs_self _ _ _ _
  have hzero : (race.state (n + 1)).procs 0 = (race.state n).procs 0 := by
    rw [hstate]
    exact Config.set_procs_of_ne _ (by decide) _ _
  have hworld : (race.state (n + 1)).world = w := by
    rw [hstate]
    rfl
  have hphase : race.phase n 1 = after calls := phaseOf_proc runs
  have hphase₁ : race.phase (n + 1) 1 = (after calls).next c (.ok v) := phaseOf_proc hone
  have hphase₀ : race.phase (n + 1) 0 = race.phase n 0 := by
    rw [phase, phase, phaseOf, phaseOf, hzero]
  obtain ⟨rest, hrest, hmeets⟩ := h.deletion _ runs
  cases hrest
  have hissues := hmeets.1
  obtain ⟨_, rfl, hmeets'⟩ := hmeets.2 (.ok v) ⟨v, rfl⟩
  have hstands := h.stands
  rw [hphase] at hstands
  obtain ⟨hstands', hbefore, hdeleted⟩ := hstands.deletion hissues does
  refine ⟨?_, ?_, ?_, ?_, ?_⟩
  · rw [hworld, hphase₀, hphase₁]
    exact hstands'
  · intro p hp
    rw [hzero] at hp
    exact h.operation p hp
  · intro p hp
    cases hone.symm.trans hp
    exact ⟨_, rfl, hmeets'⟩
  · intro p hp
    rw [hzero] at hp
    exact h.reads p hp
  · intro haccepted
    -- it is the first deletion that commits
    have hearlier : ¬ ∃ m < n, race.Deletes m ∧ race.Midway m := by
      rw [h.doomed haccepted, hphase]
      exact fun hboth => hbefore hboth.1
    rw [Nat.exists_lt_succ_right, or_iff_right hearlier, hphase₀, hphase₁, hdeleted, Deletes,
      hworld]
    -- so the operation is disturbed if and only if it is midway here
    refine and_congr_right fun _ => ?_
    have hgone := h.stands.gone
    rw [hphase] at hgone
    constructor
    · rintro ⟨p, hp, hmidway⟩
      obtain ⟨rest, hrest, hmeets⟩ := h.operation p hp
      have hp₀ : race.phase n 0 = after p.calls := phaseOf_proc hp
      rw [hp₀] at hgone ⊢
      refine (midway_iff hrest haccepted hmeets (h.reads p hp) ?_ ?_).mp hmidway
      · exact fun hlost => hbefore (hgone (Or.inl hlost))
      · exact fun hfailed => hbefore (hgone (Or.inr ⟨hfailed, haccepted⟩))
    · intro hbound
      cases hp : (race.state n).procs 0 with
      | none =>
        rw [phase, phaseOf_none hp] at hbound
        exact hbound.elim
      | some p =>
        obtain ⟨rest, hrest, hmeets⟩ := h.operation p hp
        have hp₀ : race.phase n 0 = after p.calls := phaseOf_proc hp
        rw [hp₀] at hgone hbound
        refine ⟨p, hp, (midway_iff hrest haccepted hmeets (h.reads p hp) ?_ ?_).mpr hbound⟩
        · exact fun hlost => hbefore (hgone (Or.inl hlost))
        · exact fun hfailed => hbefore (hgone (Or.inr ⟨hfailed, haccepted⟩))

end Step

/-- **What is known of every state of a race.** -/
theorem sound (n : ℕ) : race.Sound n := by
  -- induction on the run; calls move the phases, arrivals and pauses do not
  induction n with
  | zero => exact race.sound_zero
  | succ n h =>
    have hparties := race.parties (n + 1)
    have halive := race.alive (n + 1)
    have hfaultless := race.faultless (n + 1)
    rcases race.next n with hsame | hstep
    · refine h.still (by rw [hsame]) (fun i => by rw [phase, phase, hsame]) fun i p hp => Or.inl ?_
      rw [← hsame]
      exact hp
    · rcases hstep.cases with ⟨i, q, free, hstate⟩ |
        ⟨i, q, calls, c, k, x, r, w, runs, does, hstate⟩ | ⟨i, q, calls, c, k, runs, hstate⟩
      · refine h.still (by rw [hstate]; rfl) (fun j => ?_) fun j p hp => ?_
        · rw [phase, phase, hstate]
          by_cases hj : j = i
          · subst hj
            rw [phaseOf_none free, phaseOf_proc (Config.set_procs_self _ _ _ _)]
            rfl
          · rw [phaseOf, phaseOf, Config.set_procs_of_ne _ hj]
        · rw [hstate] at hp
          by_cases hj : j = i
          · subst hj
            cases (Config.set_procs_self _ _ _ _).symm.trans hp
            exact Or.inr rfl
          · rw [Config.set_procs_of_ne _ hj] at hp
            exact Or.inl hp
      · rw [hstate] at hparties hfaultless
        -- no statement of a race fails
        have hreply : ∃ v : c.Reply, r = .ok v :=
          hfaultless i _ (Config.set_procs_self _ _ _ _) _ (List.mem_cons_self ..)
        obtain ⟨v, rfl⟩ := hreply
        rcases hparties i _ (Config.set_procs_self _ _ _ _) with ⟨rfl, -⟩ | ⟨rfl, -⟩
        · exact h.operate runs does hstate
        · exact h.delete runs does hstate
      · rw [hstate] at halive
        exact absurd rfl (halive i _ (Config.set_procs_self _ _ _ _))

/-- Whenever the operation has ended, it has ended well. -/
def EndsWell : Prop :=
  ∀ n p r, (race.state n).procs 0 = some p → TaskProcess.Ended p r →
    Lsstack.EndsWell race.op race.userId race.taskId race.deleter (race.state 0).world
      (race.state n).world r

/-- Whenever the operation has ended and had found the task, its texts were valid and the
deletion had not committed between its first read and its write. -/
def Undisturbed : Prop :=
  ∀ n p r, (race.state n).procs 0 = some p → TaskProcess.Ended p r → taskReads p.calls ≠ [] →
    race.op.Accepted ∧ ∀ m < n, race.Deletes m → ¬ race.Midway m

end Race

namespace RacePhase

variable {op : TaskOperation} {userId taskId deleter : ℕ} {before w : Db}

/-- The rows of a race, by the phases of both parties. -/
theorem leaves {a b : RacePhase} (h : Stands op userId taskId deleter before w a b) :
    Leaves taskId (a.row (before.row (.task taskId)) b) before w := by
  constructor
  · show (w.cell (.task taskId)).committed = _
    rw [h.cell]
  · intro k hk
    rw [World.row, (h.others k hk).1, World.row]

/-- A race whose operation has committed has ended well. -/
theorem endsWell_committed {out : Outcome} {v : TaskModel} {b : RacePhase}
    (h : Stands op userId taskId deleter before w (.committed out v) b) :
    EndsWell op userId taskId deleter before w (.ok (.outcome out)) := by
  obtain ⟨s, ⟨hbefore, huser⟩, ⟨-, stamp, rfl⟩, hout⟩ := h.known
  have hleaves := leaves h
  have hlog := h.log
  cases b with
  | deleted =>
    rcases hlog with hlog | ⟨hlog, hsame⟩
    · exact .deletedAfter s stamp out hbefore huser hout hlog hleaves
    · have heffect : op.effect s stamp = s := Option.some_inj.mp (hsame.symm.trans hbefore)
      rw [heffect] at hout
      exact .unchanged s stamp out hbefore huser heffect hout hlog hleaves
  | _ => exact .done s stamp out hbefore huser hout hlog hleaves

/-- A race whose operation has not found the task has ended well. -/
theorem endsWell_absent {b : RacePhase}
    (h : Stands op userId taskId deleter before w .absent b) :
    EndsWell op userId taskId deleter before w (.error (.taskNotFoundError "Task not found.")) := by
  have hleaves := leaves h
  have hlog := h.log
  cases b with
  | deleted => exact .gone hlog hleaves
  | _ => exact .notFound hlog hleaves

end RacePhase

namespace Race

variable (race : Race)

/-- **A race ends well exactly if the deletion does not commit between the first read
of the operation and its write.** -/
theorem endsWell_iff : race.EndsWell ↔ race.Undisturbed := by
  have hcases : ∀ {n : ℕ} {p : TaskProcess} {r : Except Exn Response},
      (race.state n).procs 0 = some p → TaskProcess.Ended p r →
      Racing.Ends r ⟨some race.op, race.userId, race.taskId, after p.calls⟩ ∧
        race.phase n 0 = after p.calls := by
    intro n p r hp hended
    obtain ⟨rest, hrest, hmeets⟩ := (race.sound n).operation p hp
    refine ⟨?_, phaseOf_proc hp⟩
    cases r with
    | ok response =>
      cases hrest.symm.trans hended
      exact hmeets
    | error e =>
      cases hrest.symm.trans hended
      exact hmeets
  constructor
  · intro h n p r hp hended hread
    obtain ⟨hends, hphase⟩ := hcases hp hended
    have hwell := h n p r hp hended
    have hsound := race.sound n
    have hhas := (hsound.reads p hp).mp hread
    have hdoomed := hsound.doomed
    have hknown := hsound.stands.known
    rw [hphase] at hdoomed hknown
    generalize after p.calls = a at hends hhas hdoomed hknown
    cases a with
    -- a result was committed, so no deletion had come midway
    | committed out v =>
      obtain ⟨s, -, ⟨haccepted, -⟩, -⟩ := hknown
      refine ⟨haccepted, fun m hm hdeletes hmidway => ?_⟩
      exact ((hdoomed haccepted).mp ⟨m, hm, hdeletes, hmidway⟩).2
    -- a write that failed is not a good ending
    | failed =>
      obtain ⟨e, rfl, hne⟩ := hends
      cases hwell <;> exact absurd rfl (hne _)
    | _ => first | exact hends.elim | exact hhas.elim | exact hknown.elim
  · intro h n p r hp hended
    obtain ⟨hends, hphase⟩ := hcases hp hended
    have hsound := race.sound n
    have hstands := hsound.stands
    have hundisturbed := h n p r hp hended
    rw [hsound.reads p hp] at hundisturbed
    have hdoomed := hsound.doomed
    rw [hphase] at hdoomed hstands
    generalize after p.calls = a at hends hundisturbed hdoomed hstands
    cases a with
    | committed out v =>
      obtain rfl : r = _ := hends
      exact endsWell_committed hstands
    | absent =>
      obtain rfl : r = _ := hends
      exact endsWell_absent hstands
    -- a write fails only where a deletion came midway
    | failed =>
      obtain ⟨haccepted, hnone⟩ := hundisturbed trivial
      obtain ⟨m, hm, hdeletes, hmidway⟩ := (hdoomed haccepted).mpr
        ⟨hstands.gone (Or.inr ⟨rfl, haccepted⟩), trivial⟩
      exact absurd hmidway (hnone m hm hdeletes)
    | deleted => exact hstands.known.elim
    | _ => exact hends.elim

end Race

/-! ### A deletion between the reads -/

/-- A step of a scheduler that lets a toggle and a deletion of task 1 arrive and answers
every call. -/
def Serves : Label Request (Choice Fault Decision) → Prop
  | .start i q => i = 0 ∧ q = .toggle 1 1 ∨ i = 1 ∧ q = .delete 1 1
  | .act _ .ok => True
  | .act _ (.ext (.time _)) => True
  | _ => False

/-- Such a scheduler makes no call fail. -/
theorem Serves.reply {i : ℕ} {x : Choice Fault Decision}
    (h : Serves (.act i x)) {w w' : Db} {c : Command} {r : Except Exn c.Reply}
    (he : exec Fault.exn (outside fun _ _ => false) w i c x = some (r, w')) : ∃ v, r = .ok v := by
  rcases r with e | v
  · exfalso
    rcases x with _ | f | f | d
    · cases c
      all_goals simp only [exec] at he
      all_goals first
        | cases he
        | (split at he <;> cases he)
        | (split at he <;> first | cases he | (split at he <;> cases he))
    · exact h
    · exact h
    · cases d with
      | time t =>
        cases c
        case ext y =>
          obtain ⟨⟨r, env⟩, hout, heq⟩ := Option.map_eq_some_iff.mp he
          cases heq
          cases y <;> cases hout
        all_goals cases he
      | _ => exact h
  · exact ⟨v, rfl⟩

/-- What a process of such a race always is. -/
def Fair (i : ℕ) (p : TaskProcess) : Prop :=
  (i = 0 ∧ p.request = TaskOperation.toggle.request 1 1 ∨ i = 1 ∧ p.request = .delete 1 1) ∧
    p.rest ≠ none ∧ ∀ call ∈ p.calls, ∃ v, call.2 = .ok v

theorem Serves.step {l : Label Request (Choice Fault Decision)} (h : Serves l)
    {cfg cfg' : TaskConfig} (hstep : taskMachine.step cfg l = some cfg')
    (hfair : ∀ i p, cfg.procs i = some p → Fair i p) :
    ∀ i p, cfg'.procs i = some p → Fair i p := by
  -- the processes that take no step are as they were
  have hset : ∀ {i : ℕ} {p : TaskProcess} {w : Db}, Fair i p →
      ∀ j p', (cfg.set i p w).procs j = some p' → Fair j p' := by
    intro i p w hp j p' hp'
    by_cases hj : j = i
    · subst hj
      obtain rfl := Option.some_inj.mp ((Config.set_procs_self _ _ _ _).symm.trans hp')
      exact hp
    · rw [Config.set_procs_of_ne _ hj] at hp'
      exact hfair j p' hp'
  cases l with
  | start i q =>
    simp only [Machine.step] at hstep
    split at hstep
    · cases hstep
      exact hset ⟨h, (fun h => by cases h), fun _ hcall => absurd hcall List.not_mem_nil⟩
    · cases hstep
  | act i x =>
    simp only [Machine.step] at hstep
    split at hstep
    · rename_i q calls c k hp
      obtain ⟨⟨r, w⟩, he, rfl⟩ := Option.map_eq_some_iff.mp hstep
      obtain ⟨hparty, -, hcalls⟩ := hfair i _ hp
      refine hset ⟨hparty, (fun h => by cases h), fun call hcall => ?_⟩
      rcases List.mem_cons.mp hcall with rfl | hcall
      · exact h.reply he
      · exact hcalls call hcall
    · cases hstep
  | crash i => exact h.elim

/-- A race the scheduler runs by its labels. -/
def Race.ofLabels (ls : List (Label Request (Choice Fault Decision)))
    (h : ∀ l ∈ ls, Serves l) : Race :=
  have hempty : ∀ i p, (⟨oneTask, fun _ => none⟩ : TaskConfig).procs i = some p → Fair i p := by
    intro i p hp
    cases hp
  have hall : ∀ n i p,
      (taskMachine.trace ⟨oneTask, fun _ => none⟩ ls n).procs i = some p → Fair i p := fun n =>
    Machine.trace_induction taskMachine (P := fun cfg => ∀ i p, cfg.procs i = some p → Fair i p)
      hempty (fun l hl _ _ hstep hfair => (h l hl).step hstep hfair) n
  { toDbRun := traceRun _ Request.code (fun _ => True) oneTask ls oneTask_unlocked oneTask_unlogged
      fun _ _ => trivial
    op := .toggle
    userId := 1
    taskId := 1
    deleter := 1
    parties := fun n i p hp => (hall n i p hp).1
    alive := fun n i p hp => (hall n i p hp).2.1
    faultless := fun n i p hp => (hall n i p hp).2.2 }

/-- The task is deleted after the first read of a toggle. -/
def lateToggle : List (Label Request (Choice Fault Decision)) :=
  [.start 0 (.toggle 1 1), .start 1 (.delete 1 1), .act 0 .ok, .act 1 .ok, .act 1 .ok,
    .act 0 (.ext (.time 10)), .act 0 .ok, .act 0 .ok]

/-- **The toggle raises a `ValueError`.** -/
theorem endsWell_violated : ¬ ∀ race : Race, race.EndsWell := by
  intro h
  have hserves : ∀ l ∈ lateToggle, Serves l := by
    simp [lateToggle, Serves]
  have hwell := h (Race.ofLabels lateToggle hserves) 8
    ⟨_, _, some (.raise (.valueError "Cannot update a missing or unowned task."))⟩
    (.error (.valueError "Cannot update a missing or unowned task.")) rfl rfl
  cases hwell

end Lsstack
