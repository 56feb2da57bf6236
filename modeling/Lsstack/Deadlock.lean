/-
The application does not deadlock.

Every transaction takes its row locks upwards: tasks, the entry of an email, the user, messages.
A task that is added refers to its user, whose row it shares until the end of its transaction; a
login and a change of password, which lock that row, wait for it.  A second lock of one height is
taken only on a row that the transaction adds under an id of its own, on a row it has locked, or
by a relay, which skips what is locked.

* `Keeps`, `Climbs`, `Tidy` — programs that lock nothing, that run inside a transaction, and
  that end without locks;
* **`ServedRun.no_deadlock`** — in every run nobody waits in a circle, no lock and no share
  outlives its transaction, and every wait ends at a process that does not wait.
-/
import Lsstack.Served
import Lsstack.LockOrder

namespace Lsstack

open Concurrency

/-! ### The order of the locks -/

/-- How high the lock of a key stands. -/
def Key.height : Key → Fin 4
  | .task _ => 0
  | .email _ => 1
  | .user _ => 2
  | .message _ => 3

/-- The foreign keys: the row of a task refers to its user. -/
def Key.refers : (k : Key) → Row k → Option Key
  | .task _, row => some (.user row.userId)
  | _, _ => none

/-- Locks are taken upwards. -/
abbrev upwards : Protocol Command Command.Reply Exn (LockGhost Key Sequence) :=
  lockOrder Key.height Key.number Key.refers

/-- No row is locked or shared. -/
def Resting (g : LockGhost Key Sequence) : Prop := g.locks = (∅, ∅) ∧ g.failed = false

theorem Resting.notMem {g : LockGhost Key Sequence} (h : Resting g) (k : Key) :
    k ∉ g.held ∪ g.shared := by
  rw [(Prod.mk.inj h.1).1, (Prod.mk.inj h.1).2, Set.empty_union]
  exact Set.notMem_empty k

theorem Resting.mayClaim {g : LockGhost Key Sequence} (h : Resting g) (k : Key) :
    g.MayClaim Key.height k :=
  ⟨h.2, .inr fun k' hk' => absurd hk' (h.notMem k')⟩

section Programs

variable {α β : Type}

/-- It takes no lock and frees none. -/
def Keeps (p : Tx α) : Prop :=
  ∀ g : LockGhost Key Sequence,
    p.Meets upwards g fun _ g' => g'.locks = g.locks ∧ g'.failed = g.failed

/-- It may run from the beginning of a transaction. -/
def Climbs (p : Tx α) : Prop :=
  ∀ g, Resting g → p.Meets upwards g fun _ g' => g'.failed = false

/-- It leaves no locks behind. -/
def Tidy (p : Tx α) : Prop := ∀ g, Resting g → p.Meets upwards g fun _ g' => Resting g'

/-! ### Rules -/

namespace Keeps

theorem ret (a : α) : Keeps (.ret a) := fun _ => ⟨rfl, rfl⟩

theorem raise (e : Exn) : Keeps (.raise e : Tx α) := fun _ => ⟨rfl, rfl⟩

theorem liftExcept (a : Except Exn α) : Keeps (liftExcept a) := fun _ =>
  meets_liftExcept.mpr ⟨rfl, rfl⟩

theorem bind {p : Tx α} {f : α → Tx β} (hp : Keeps p) (hf : ∀ a, Keeps (f a)) :
    Keeps (p.bind f) := by
  intro g
  refine Program.meets_bind.mpr ((hp g).mono fun r g' hr => ?_)
  rcases r with e | a
  · exact hr
  · exact (hf a g').mono fun _ g'' h => ⟨h.1.trans hr.1, h.2.trans hr.2⟩

theorem select (k : Key) (p : Row k → Bool) : Keeps (select k p) := fun _ =>
  meets_select.mpr ⟨trivial, fun _ => ⟨rfl, rfl⟩⟩

theorem scan (p : (k : Key) × Row k → Bool) (le : (k : Key) × Row k → (k : Key) × Row k → Bool) :
    Keeps (scan p le) := fun _ =>
  meets_scan.mpr ⟨trivial, fun _ => ⟨rfl, rfl⟩⟩

theorem call (x : Outside) : Keeps (call x) := fun _ =>
  meets_outside.mpr ⟨trivial, fun _ => ⟨rfl, rfl⟩⟩

/-- It does not matter what is held. -/
theorem meets {p : Tx α} (hp : Keeps p) {g : LockGhost Key Sequence}
    {Q : Except Exn α → LockGhost Key Sequence → Prop}
    (hQ : ∀ r g', g'.locks = g.locks → g'.failed = g.failed → Q r g') : p.Meets upwards g Q :=
  (hp g).mono fun r g' h => hQ r g' h.1 h.2

theorem climbs {p : Tx α} (hp : Keeps p) : Climbs p := fun _ hg =>
  hp.meets fun _ _ _ hfailed => hfailed.trans hg.2

theorem tidy {p : Tx α} (hp : Keeps p) : Tidy p := fun _ hg =>
  hp.meets fun _ _ hlocks hfailed => ⟨hlocks.trans hg.1, hfailed.trans hg.2⟩

/-- What comes first in a transaction. -/
theorem bindClimbs {p : Tx α} {f : α → Tx β} (hp : Keeps p) (hf : ∀ a, Climbs (f a)) :
    Climbs (p.bind f) := by
  intro g hg
  refine Program.meets_bind.mpr (hp.meets fun r g' hlocks hfailed => ?_)
  rcases r with e | a
  · exact hfailed.trans hg.2
  · exact hf a g' ⟨hlocks.trans hg.1, hfailed.trans hg.2⟩

end Keeps

namespace Climbs

/-- What comes last in a transaction. -/
theorem bind {p : Tx α} {f : α → Tx β} (hp : Climbs p) (hf : ∀ a, Keeps (f a)) :
    Climbs (p.bind f) := by
  intro g hg
  refine Program.meets_bind.mpr ((hp g hg).mono fun r g' hr => ?_)
  rcases r with e | a
  · exact hr
  · exact (hf a).meets fun _ _ _ hfailed => hfailed.trans hr

theorem handle {p : Tx α} {h : Exn → Tx α} (hp : Climbs p) (hh : ∀ e, Keeps (h e)) :
    Climbs (p.handle h) := by
  intro g hg
  refine Program.meets_handle.mpr ((hp g hg).mono fun r g' hr => ?_)
  rcases r with e | a
  · exact (hh e).meets fun _ _ _ hfailed => hfailed.trans hr
  · exact hr

end Climbs

namespace Tidy

theorem bind {p : Tx α} {f : α → Tx β} (hp : Tidy p) (hf : ∀ a, Tidy (f a)) :
    Tidy (p.bind f) := by
  intro g hg
  refine Program.meets_bind.mpr ((hp g hg).mono fun r g' hr => ?_)
  rcases r with e | a
  · exact hr
  · exact hf a g' hr

theorem handle {p : Tx α} {h : Exn → Tx α} (hp : Tidy p) (hh : ∀ e, Tidy (h e)) :
    Tidy (p.handle h) := by
  intro g hg
  refine Program.meets_handle.mpr ((hp g hg).mono fun r g' hr => ?_)
  rcases r with e | a
  · exact hh e g' hr
  · exact hr

theorem ret (a : α) : Tidy (.ret a) := (Keeps.ret a).tidy

theorem raise (e : Exn) : Tidy (.raise e : Tx α) := (Keeps.raise e).tidy

/-- A transaction frees all locks, committed or not. -/
theorem transaction {outcome : α → Outcome} {p : Tx α} (hp : Climbs p) :
    Tidy (transactionRunner outcome p) := by
  have hback : ∀ (e : Exn) (g : LockGhost Key Sequence),
      rolledBack upwards (fun (_ : Except Exn α) g' => Resting g') e g := by
    intro e g
    refine Program.meets_perform_automaton.mpr ⟨trivial, fun r => ?_⟩
    rcases r with e | u
    · exact ⟨rfl, rfl⟩
    · exact ⟨rfl, rfl⟩
  intro g hg
  refine meets_transactionRunner.mpr ((hp g hg).mono fun r g' _ => ?_)
  rcases r with e | a
  · exact hback e g'
  · refine Program.meets_perform_automaton.mpr ⟨trivial, fun r => ?_⟩
    rcases r with e | u
    · exact hback e _
    · exact ⟨rfl, rfl⟩

end Tidy

end Programs

/-! ### Accounts -/

section Accounts

variable {uni : Unicode} {email password : String}

/-- The row of a new user is added under an id of its own, above the entry of its email. -/
theorem climbs_add (user : User) : Climbs (UserRepository.add uni user) := by
  refine Climbs.bind (Climbs.handle ?_ fun e => ?_) fun found => .ret _
  · intro g hg
    refine Program.meets_bind.mpr (meets_nextval.mpr ⟨trivial, fun r => ?_⟩)
    rcases r with e | id
    · exact hg.2
    refine Program.meets_bind.mpr (meets_insert.mpr
      ⟨⟨.inl ⟨rfl, Resting.mayClaim ⟨hg.1, hg.2⟩ _⟩, fun _ h => by cases h⟩, fun r => ?_⟩)
    rcases r with e | _ | _
    · exact hg.2
    · exact hg.2
    · refine Program.meets_bind.mpr (meets_insert.mpr
        ⟨⟨.inr ⟨(.users, id), ⟨Set.mem_insert _ _, (Option.some_ne_none _).symm⟩, rfl⟩,
          fun _ h => by cases h⟩, fun r => ?_⟩)
      rcases r with e | _ | _
      · exact hg.2
      · exact hg.2
      · exact hg.2
  · cases e with
    | integrityError orig =>
      dsimp only
      split
      · exact .raise _
      · exact .raise _
    | _ => exact .raise _

theorem climbs_register : Climbs (register uni email password) := by
  refine Keeps.bindClimbs (.liftExcept _) fun address => ?_
  refine Keeps.bindClimbs (.liftExcept _) fun _ => ?_
  refine Keeps.bindClimbs (.call _) fun time => ?_
  refine Keeps.bindClimbs (.call _) fun passwordHash => ?_
  refine Climbs.bind (climbs_add _) fun user => ?_
  split
  · exact .raise _
  · exact .ret _

/-- The row of a user that has been locked. -/
theorem meets_updateCredentials (user : User) {g : LockGhost Key Sequence}
    (hfailed : g.failed = false) (hlocked : ∀ id, user.id = some id → .user id ∈ g.held) :
    (UserRepository.updateCredentials user).Meets upwards g fun _ g' => g'.failed = false := by
  rw [UserRepository.updateCredentials]
  rcases hid : user.id with _ | id
  · exact hfailed
  refine Program.meets_bind.mpr (meets_select.mpr ⟨trivial, fun r => ?_⟩)
  rcases r with e | _ | loaded
  · exact hfailed
  · exact hfailed
  -- the row is locked already, so the UPDATE claims no other
  have hwrite : ∀ assigned stamp, (UserModel.write id loaded assigned stamp).Meets upwards g
      fun _ g' => g'.failed = false := by
    intro assigned stamp
    refine Program.meets_bind.mpr (meets_update.mpr ⟨⟨hfailed, .inl (hlocked id hid)⟩, fun r => ?_⟩)
    rcases r with e | _ | row
    · exact hfailed
    · exact hfailed
    · exact hfailed
  refine Program.meets_bind.mpr ?_
  rw [UserModel.flush_eq]
  split
  · exact hfailed
  · split
    · refine Program.meets_bind.mpr (meets_outside.mpr ⟨trivial, fun r => ?_⟩)
      rcases r with e | stamp
      · exact hfailed
      · refine (hwrite _ stamp).mono fun r g' h => ?_
        rcases r with e | model
        · exact h
        · exact h
    · refine (hwrite _ _).mono fun r g' h => ?_
      rcases r with e | model
      · exact h
      · exact h

/-- A user found by a locking read is locked. -/
theorem meets_getByIdForUpdate {userId : ℕ} {g : LockGhost Key Sequence} (hg : Resting g) :
    (UserRepository.getByIdForUpdate userId).Meets upwards g fun r g' => g'.failed = false ∧
      ∀ user, r = .ok (some user) → ∀ id, user.id = some id → .user id ∈ g'.held := by
  refine Program.meets_bind.mpr (meets_selectForUpdate.mpr ⟨hg.mayClaim _, fun r => ?_⟩)
  rcases r with e | _ | model
  · exact ⟨hg.2, fun _ h => by cases h⟩
  · exact ⟨hg.2, fun _ h => by cases h⟩
  · refine ⟨hg.2, fun user h id hid => ?_⟩
    cases h
    cases hid
    exact Set.mem_insert _ _

theorem meets_getByEmailForUpdate {address : String} {g : LockGhost Key Sequence}
    (hg : Resting g) :
    (UserRepository.getByEmailForUpdate address).Meets upwards g fun r g' => g'.failed = false ∧
      ∀ user, r = .ok (some user) → ∀ id, user.id = some id → .user id ∈ g'.held := by
  refine Program.meets_bind.mpr (meets_select.mpr ⟨trivial, fun r => ?_⟩)
  rcases r with e | _ | userId
  · exact ⟨hg.2, fun _ h => by cases h⟩
  · exact ⟨hg.2, fun _ h => by cases h⟩
  refine Program.meets_bind.mpr (meets_selectForUpdate.mpr ⟨hg.mayClaim _, fun r => ?_⟩)
  rcases r with e | _ | model
  · exact ⟨hg.2, fun _ h => by cases h⟩
  · exact ⟨hg.2, fun _ h => by cases h⟩
  · refine ⟨hg.2, fun user h id hid => ?_⟩
    cases h
    cases hid
    exact Set.mem_insert _ _

theorem climbs_authenticate : Climbs (authenticate uni email password) := by
  have hrefused : ∀ message : String, Keeps ((call (.verifyUnknown password)).bind fun _ =>
      (.raise (.invalidCredentialsError message) : Tx AuthResult)) :=
    fun _ => Keeps.bind (.call _) fun _ => .raise _
  unfold authenticate
  split
  · exact (hrefused _).climbs
  · exact (Keeps.raise _).climbs
  intro g hg
  -- the row is locked by the query that finds the user
  refine Program.meets_bind.mpr ((meets_getByEmailForUpdate hg).mono fun r g' hr => ?_)
  obtain ⟨hfailed, hlocked⟩ := hr
  have hkeeps : ∀ {p : Tx AuthResult}, Keeps p →
      p.Meets upwards g' fun _ g'' => g''.failed = false :=
    fun hp => hp.meets fun _ _ _ h => h.trans hfailed
  rcases r with e | _ | user
  · exact hfailed
  · exact hkeeps (hrefused _)
  refine Program.meets_bind.mpr (meets_outside.mpr ⟨trivial, fun r => ?_⟩)
  rcases r with e | verification
  · exact hfailed
  dsimp only [Program.onOk]
  split
  · exact hfailed
  · cases verification.replacementHash with
    | none =>
      refine hkeeps (Keeps.bind (.ret _) fun user => ?_)
      split
      · exact .raise _
      · exact .ret _
    | some replacementHash =>
      refine Program.meets_bind.mpr (meets_outside.mpr ⟨trivial, fun r => ?_⟩)
      rcases r with e | time
      · exact hfailed
      refine Program.meets_bind.mpr ((meets_updateCredentials
        (user.withRehashedPassword replacementHash time) hfailed fun id hid =>
          hlocked user rfl id hid).mono fun r g'' hr => ?_)
      rcases r with e | updated
      · exact hr
      dsimp only [Program.onOk]
      split
      · exact hr
      · exact hr

theorem climbs_changePassword {userId : ℕ} {new confirmation : String} :
    Climbs (changePassword uni userId password new confirmation) := by
  intro g hg
  refine Program.meets_bind.mpr ((meets_getByIdForUpdate hg).mono fun r g' hr => ?_)
  obtain ⟨hfailed, hlocked⟩ := hr
  rcases r with e | _ | user
  · exact hfailed
  · exact hfailed
  refine Program.meets_bind.mpr (meets_outside.mpr ⟨trivial, fun r => ?_⟩)
  rcases r with e | verification
  · exact hfailed
  dsimp only [Program.onOk]
  split
  · exact hfailed
  split
  · exact hfailed
  refine Program.meets_bind.mpr (meets_liftExcept.mpr ?_)
  rcases validatePassword uni new user.emailNormalized with e | u
  · exact hfailed
  refine Program.meets_bind.mpr (meets_outside.mpr ⟨trivial, fun r => ?_⟩)
  rcases r with e | passwordHash
  · exact hfailed
  refine Program.meets_bind.mpr (meets_outside.mpr ⟨trivial, fun r => ?_⟩)
  rcases r with e | time
  · exact hfailed
  -- the UPDATE is of the row locked at first
  refine Program.meets_bind.mpr ((meets_updateCredentials
    (user.withPassword passwordHash time) hfailed fun id hid => hlocked user rfl id hid).mono
      fun r g'' hr => ?_)
  rcases r with e | updated
  · exact hr
  · exact hr

end Accounts

/-! ### Tasks -/

section Tasks

variable {userId taskId : ℕ} {title : String} {description : Option String}

/-- The row of a new task is added under an id of its own, shares the user above it, and is all
that is locked. -/
theorem meets_addTask (task : Task) {g : LockGhost Key Sequence} (hg : Resting g) :
    (TaskRepository.add task).Meets upwards g fun _ g' =>
      g'.failed = false ∧ ∀ k ∈ g'.held ∪ g'.shared, k.height < 3 := by
  have hnone : ∀ k ∈ g.held ∪ g.shared, k.height < 3 := fun k hk => absurd hk (hg.notMem k)
  refine Program.meets_bind.mpr (meets_nextval.mpr ⟨trivial, fun r => ?_⟩)
  rcases r with e | id
  · exact ⟨hg.2, hnone⟩
  refine Program.meets_bind.mpr (meets_insert.mpr
    ⟨⟨.inr ⟨(.tasks, id), Set.mem_insert _ _, rfl⟩, fun k' hk' => ?_⟩, fun r => ?_⟩)
  · -- the check of the foreign key asks for the user's row, above the task's
    cases hk'
    exact ⟨(by decide : (0 : Fin 4) < 2), Resting.mayClaim ⟨hg.1, hg.2⟩ _⟩
  rcases r with e | _ | _
  · exact ⟨hg.2, hnone⟩
  · exact ⟨hg.2, hnone⟩
  · refine ⟨hg.2, fun k hk => ?_⟩
    rcases hk with (rfl | hk) | (hk | hk)
    · exact (by decide : (0 : Fin 4) < 3)
    · exact hnone k (.inl hk)
    · cases hk
      exact (by decide : (2 : Fin 4) < 3)
    · exact hnone k (.inr hk)

/-- The message is added above its task and the user. -/
theorem climbs_createTask {messageId : Option Uuid} :
    Climbs (createTask userId title description messageId) := by
  rw [createTask]
  refine Keeps.bindClimbs (.call _) fun time => ?_
  generalize normalizeTitle title = title
  refine Keeps.bindClimbs (.liftExcept _) fun title => ?_
  generalize normalizeDescription description = description
  refine Keeps.bindClimbs (.liftExcept _) fun description => ?_
  intro g hg
  refine Program.meets_bind.mpr ((meets_addTask _ hg).mono fun r g' hr => ?_)
  obtain ⟨hfailed, hbelow⟩ := hr
  rcases r with e | task
  · exact hfailed
  refine Program.meets_bind.mpr (meets_liftExcept.mpr ?_)
  rcases taskResult task with e | result
  · exact hfailed
  have hadd : ∀ (message : OutboxMessage), ((OutboxRepository.add message).bind fun _ =>
      (.ret ⟨result, message.id⟩ : Tx TaskCreatedResult)).Meets upwards g'
        fun _ g₂ => g₂.failed = false := by
    intro message
    -- the message is above the task's row and above the user it refers to
    refine Program.meets_bind.mpr (Program.meets_bind.mpr (meets_insert.mpr
      ⟨⟨.inl ⟨rfl, hfailed, .inr hbelow⟩, fun _ h => by cases h⟩, fun r => ?_⟩))
    rcases r with e | _ | _
    · exact hfailed
    · exact hfailed
    · exact hfailed
  cases messageId with
  | some id => exact hadd _
  | none =>
    refine Program.meets_bind.mpr (meets_outside.mpr ⟨trivial, fun r => ?_⟩)
    rcases r with e | id
    · exact hfailed
    · exact hadd _

theorem keeps_getOwned : Keeps (TaskRepository.getOwned taskId userId) :=
  Keeps.bind (.select _ _) fun _ => .ret _

theorem keeps_getTask : Keeps (getTask userId taskId) := by
  refine Keeps.bind keeps_getOwned fun found => ?_
  cases found with
  | none => exact .raise _
  | some task => exact .liftExcept _

theorem keeps_listTasks : Keeps (listTasks userId) :=
  Keeps.bind (Keeps.bind (.scan _ _) fun _ => .ret _) fun _ => .liftExcept _

/-- The write is the first lock of its transaction. -/
theorem climbs_updateOwned (task : Task) : Climbs (TaskRepository.update task) := by
  rw [TaskRepository.update]
  rcases task.id with _ | id
  · exact (Keeps.raise _).climbs
  refine Keeps.bindClimbs (.select _ _) fun found => ?_
  cases found with
  | none => exact (Keeps.raise _).climbs
  | some loaded =>
    have hwrite : ∀ assigned stamp, Climbs (TaskModel.write id loaded assigned stamp) := by
      intro assigned stamp g hg
      refine Program.meets_bind.mpr (meets_update.mpr ⟨hg.mayClaim _, fun r => ?_⟩)
      rcases r with e | _ | row
      · exact hg.2
      · exact hg.2
      · exact hg.2
    refine Climbs.bind ?_ fun model => .ret _
    rw [TaskModel.flush_eq]
    split
    · exact (Keeps.ret _).climbs
    · split
      · exact Keeps.bindClimbs (.call _) fun stamp => hwrite _ stamp
      · exact hwrite _ _

theorem climbs_updateTask : Climbs (updateTask userId taskId title description) := by
  refine Keeps.bindClimbs keeps_getOwned fun found => ?_
  cases found with
  | none => exact (Keeps.raise _).climbs
  | some task =>
    refine Keeps.bindClimbs (.call _) fun time => ?_
    generalize task.edited title description time = edited
    refine Keeps.bindClimbs (.liftExcept _) fun edited => ?_
    exact Climbs.bind (climbs_updateOwned _) fun updated => .liftExcept _

theorem climbs_toggleTask : Climbs (toggleTask userId taskId) := by
  refine Keeps.bindClimbs keeps_getOwned fun found => ?_
  cases found with
  | none => exact (Keeps.raise _).climbs
  | some task =>
    refine Keeps.bindClimbs (.call _) fun time => ?_
    exact Climbs.bind (climbs_updateOwned _) fun updated => .liftExcept _

theorem climbs_deleteTask : Climbs (deleteTask userId taskId) := by
  refine Climbs.bind (Climbs.bind (fun g hg => ?_) fun deleted => .ret _) fun deleted => ?_
  · refine meets_delete.mpr ⟨hg.mayClaim _, fun r => ?_⟩
    rcases r with e | _ | row
    · exact hg.2
    · exact hg.2
    · exact hg.2
  · split
    · exact .raise _
    · exact .ret _

theorem climbs_processTaskCreated : Climbs (processTaskCreated taskId) := by
  refine Keeps.bindClimbs (.call _) fun time => ?_
  refine Climbs.bind (Climbs.bind (fun g hg => ?_) fun marked => ?_) fun found => ?_
  · refine meets_update.mpr ⟨hg.mayClaim _, fun r => ?_⟩
    rcases r with e | _ | row
    · exact hg.2
    · exact hg.2
    · exact hg.2
  · exact Keeps.bind (.select _ _) fun model => .ret _
  · cases found with
    | none => exact .ret _
    | some task => exact Keeps.bind (.liftExcept _) fun result => .ret _

end Tasks

/-! ### The outbox -/

section Outbox

variable {owner : String} {time leaseExpiresAt : Instant}

/-- What the relay has locked it holds. -/
theorem locked_lockRows {g : LockGhost Key Sequence} (hg : g.failed = false) :
    ∀ (ids : List Uuid) (limit : ℕ), (OutboxRepository.lockRows time limit ids).Meets upwards g
      fun r g' => g'.failed = false ∧ g.held ⊆ g'.held ∧
        ∀ models, r = .ok models → ∀ model ∈ models, .message model.1 ∈ g'.held := by
  intro ids
  induction ids generalizing g with
  | nil =>
    intro limit
    have hnothing : (OutboxRepository.lockRows time limit []) = .ret [] := by
      cases limit <;> rfl
    rw [hnothing]
    refine ⟨hg, subset_rfl, fun models h model hmodel => ?_⟩
    cases h
    exact absurd hmodel List.not_mem_nil
  | cons id rest ih =>
    intro limit
    cases limit with
    | zero =>
      refine ⟨hg, subset_rfl, fun models h model hmodel => ?_⟩
      cases h
      exact absurd hmodel List.not_mem_nil
    | succ limit =>
      -- a row locked by another process is passed over, not waited for
      refine Program.meets_bind.mpr (meets_selectForUpdateSkipLocked.mpr ⟨trivial, fun r => ?_⟩)
      rcases r with e | _ | row
      · exact ⟨hg, subset_rfl, fun _ h => by cases h⟩
      · exact ih hg (limit + 1)
      · have hmine : Key.message id ∈ (g.take Key.number (.message id)).held := Set.mem_insert _ _
        have hlocked := ih (g := g.take Key.number (.message id)) hg limit
        refine Program.meets_bind.mpr (hlocked.mono fun r g' hr => ?_)
        obtain ⟨hfailed, hsub, hall⟩ := hr
        have hsub' : g.held ⊆ g'.held := fun k hk => hsub (Set.mem_insert_of_mem _ hk)
        rcases r with e | models
        · exact ⟨hfailed, hsub', fun _ h => by cases h⟩
        · refine ⟨hfailed, hsub', fun _ h model hmodel => ?_⟩
          cases h
          rcases List.mem_cons.mp hmodel with rfl | hmodel
          · exact hsub hmine
          · exact hall models rfl model hmodel

theorem locked_flushLeases : ∀ (models : List (Uuid × OutboxMessageModel))
    {g : LockGhost Key Sequence}, g.failed = false →
    (∀ model ∈ models, .message model.1 ∈ g.held) →
    (OutboxRepository.flushLeases owner leaseExpiresAt models).Meets upwards g
      fun _ g' => g'.failed = false := by
  intro models
  induction models with
  | nil => exact fun hfailed _ => hfailed
  | cons model rest ih =>
    intro g hfailed hheld
    refine Program.meets_bind.mpr (meets_update.mpr
      ⟨⟨hfailed, .inl (hheld model List.mem_cons_self)⟩, fun r => ?_⟩)
    rcases r with e | _ | row
    · exact hfailed
    · exact hfailed
    · refine Program.meets_bind.mpr ((ih (g := g.take Key.number (.message model.1)) hfailed
        fun other hother => .inr (hheld other (List.mem_cons_of_mem _ hother))).mono
          fun r g' hr => ?_)
      rcases r with e | messages
      · exact hr
      · exact hr

/-- A relay skips what is locked, and writes what it has locked. -/
theorem climbs_claimMessages {lease : Duration} {limit : ℕ} :
    Climbs (claimMessages owner lease limit) := by
  rw [claimMessages]
  split
  · exact (Keeps.raise _).climbs
  split
  · exact (Keeps.raise _).climbs
  split
  · exact (Keeps.raise _).climbs
  refine Keeps.bindClimbs (.call _) fun time => Climbs.bind ?_ fun claimed => .ret _
  refine Keeps.bindClimbs (.scan _ _) fun rows g hg => ?_
  refine Program.meets_bind.mpr ((locked_lockRows hg.2 _ _).mono fun r g' hr => ?_)
  obtain ⟨hfailed, -, hheld⟩ := hr
  rcases r with e | models
  · exact hfailed
  · exact locked_flushLeases models hfailed (hheld models rfl)

theorem climbs_acknowledgeMessage {messageId : Uuid} :
    Climbs (acknowledgeMessage messageId owner) := by
  refine Keeps.bindClimbs (.call _) fun time => Climbs.bind (fun g hg => ?_) fun published => .ret _
  refine meets_update.mpr ⟨hg.mayClaim _, fun r => ?_⟩
  rcases r with e | _ | row
  · exact hg.2
  · exact hg.2
  · exact hg.2

theorem climbs_failMessage {messageId : Uuid} {error : String} :
    Climbs (failMessage messageId owner error) := by
  refine Climbs.bind (fun g hg => ?_) fun failed => .ret _
  refine meets_update.mpr ⟨hg.mayClaim _, fun r => ?_⟩
  rcases r with e | _ | row
  · exact hg.2
  · exact hg.2
  · exact hg.2

theorem tidy_relayMessage {acknowledged : ℕ} {message : ClaimedMessage} :
    Tidy (relayMessage owner acknowledged message) := by
  refine Tidy.handle (Tidy.bind ?_ fun _ => ?_) fun e => ?_
  · exact (Keeps.bind (.liftExcept _) fun job => Keeps.bind (.call _) fun _ => .ret _).tidy
  · exact Tidy.bind (Tidy.transaction climbs_acknowledgeMessage) fun _ => .ret _
  · cases e with
    | cancelledError => exact .raise _
    | _ => exact Tidy.bind (Tidy.transaction climbs_failMessage) fun _ => .ret _

theorem tidy_relayMessages : ∀ (messages : List ClaimedMessage) (acknowledged : ℕ),
    Tidy (relayMessages owner acknowledged messages) := by
  intro messages
  induction messages with
  | nil => exact fun acknowledged => .ret _
  | cons message rest ih => exact fun acknowledged => Tidy.bind tidy_relayMessage fun _ => ih _

end Outbox

theorem tidy_taskRequest (request : Request) : Tidy request.code := by
  have htransaction : ∀ {α : Type} {outcome : α → Outcome} {p : Tx α}, Climbs p →
      Tidy (transaction outcome p) :=
    fun hp => Tidy.bind (Tidy.transaction hp) fun _ => .ret _
  cases request with
  | create => exact htransaction climbs_createTask
  | get => exact htransaction keeps_getTask.climbs
  | list => exact Tidy.bind (Tidy.transaction keeps_listTasks.climbs) fun _ => .ret _
  | edit => exact htransaction climbs_updateTask
  | toggle => exact htransaction climbs_toggleTask
  | delete => exact htransaction climbs_deleteTask
  | process => exact htransaction climbs_processTaskCreated
  | claim => exact htransaction climbs_claimMessages
  | acknowledge => exact htransaction climbs_acknowledgeMessage
  | fail => exact htransaction climbs_failMessage
  | relay =>
    refine Tidy.bind (Tidy.bind (Tidy.transaction climbs_claimMessages) fun claimed => ?_)
      fun _ => .ret _
    exact tidy_relayMessages _ _
  | job =>
    refine Tidy.bind (Tidy.bind (Keeps.liftExcept _).tidy fun taskId => ?_) fun _ => .ret _
    exact Tidy.bind (Tidy.transaction climbs_processTaskCreated) fun _ => .ret _

/-! ### Handlers -/

section Handlers

variable {uni : Unicode} {lifetime : Duration} {codec : SqidsPublicIdCodec}
  {cookie : Option SessionClaims} {email password confirmation : String}

theorem keeps_revalidateSession (claims : SessionClaims) : Keeps (revalidateSession claims) := by
  refine Keeps.bind (.call _) fun time => ?_
  split
  · exact .raise _
  · refine Keeps.bind (Keeps.bind (Keeps.bind (.select _ _) fun _ => .ret _) fun user => ?_)
      fun current => ?_
    · cases user with
      | none => exact .ret _
      | some user =>
        dsimp only
        split
        · exact .ret _
        · exact .ret _
    · cases current with
      | none => exact .raise _
      | some current =>
        dsimp only
        split
        · exact .raise _
        · exact .ret _

theorem tidy_currentUser : Tidy (currentUser cookie) := by
  cases cookie with
  | none => exact .ret _
  | some claims =>
    refine Tidy.handle (Tidy.bind (Tidy.transaction (Keeps.climbs ?_)) fun _ => .ret _) fun e => ?_
    · exact Keeps.bind (keeps_revalidateSession claims) fun _ => .ret _
    · cases e with
      | invalidSessionError => exact .ret _
      | _ => exact .raise _

theorem tidy_runAuthenticated {α : Type} {outcome : CurrentUser × α → Outcome}
    {operation : CurrentUser → Tx α} (h : ∀ user, Climbs (operation user)) :
    Tidy (runAuthenticated cookie outcome operation) := by
  cases cookie with
  | none => exact .ret _
  | some claims =>
    refine Tidy.handle (Tidy.bind (Tidy.transaction ?_) fun _ => .ret _) fun e => ?_
    · refine Keeps.bindClimbs (keeps_revalidateSession claims) fun session => ?_
      exact Climbs.bind (h _) fun _ => .ret _
    · cases e with
      | invalidSessionError => exact .ret _
      | _ => exact .raise _

theorem tidy_issueSession (auth : AuthResult) : Tidy (issueSession auth lifetime) := by
  rw [issueSession]
  split
  · exact .raise _
  · exact (Keeps.bind (.call _) fun _ => .ret _).tidy

theorem tidy_registerAction :
    Tidy (registerAction uni lifetime cookie email password confirmation) := by
  refine Tidy.bind tidy_currentUser fun user => ?_
  cases user with
  | some user => exact .ret _
  | none =>
    dsimp only
    split
    · exact .ret _
    · refine Tidy.bind (Tidy.handle (Tidy.bind (Tidy.transaction climbs_register) fun _ => .ret _)
        fun e => ?_) fun result => ?_
      · cases e with
        | duplicateEmailError => exact .ret _
        | validationError => exact .ret _
        | _ => exact .raise _
      · cases result with
        | error page => exact .ret _
        | ok auth => exact Tidy.bind (tidy_issueSession auth) fun _ => .ret _

theorem tidy_loginAction : Tidy (loginAction uni lifetime cookie email password) := by
  refine Tidy.bind tidy_currentUser fun user => ?_
  cases user with
  | some user => exact .ret _
  | none =>
    refine Tidy.bind (Tidy.handle (Tidy.bind (Tidy.transaction climbs_authenticate) fun _ => .ret _)
      fun e => ?_) fun result => ?_
    · cases e with
      | invalidCredentialsError => exact .ret _
      | validationError => exact .ret _
      | _ => exact .raise _
    · cases result with
      | error page => exact .ret _
      | ok auth => exact Tidy.bind (tidy_issueSession auth) fun _ => .ret _

theorem tidy_changePasswordAction {new : String} :
    Tidy (changePasswordAction uni lifetime cookie password new confirmation) := by
  refine Tidy.bind (tidy_runAuthenticated fun user => ?_) fun authenticated => ?_
  · rw [changePasswordOperation]
    split
    · exact (Keeps.ret _).climbs
    · refine Climbs.handle (Climbs.bind climbs_changePassword fun _ => .ret _) fun e => ?_
      cases e with
      | currentPasswordMismatchError => exact .ret _
      | validationError => exact .ret _
      | _ => exact .raise _
  · rcases authenticated with _ | ⟨user, errors | error | version⟩
    · exact .ret _
    · exact .ret _
    · exact .ret _
    · exact Tidy.bind (tidy_issueSession _) fun _ => .ret _

theorem tidy_visit (route : VisitRoute) : Tidy (route.handler cookie) := by
  have hform : ∀ {page : Option CurrentUser → Tx Page}, (∀ user, Tidy (page user)) →
      Tidy ((currentUser cookie).bind page) := fun h => Tidy.bind tidy_currentUser h
  cases route with
  | root =>
    refine hform fun user => ?_
    cases user with
    | none => exact .ret _
    | some user => exact .ret _
  | registerForm =>
    refine hform fun user => ?_
    cases user with
    | none => exact .ret _
    | some user => exact .ret _
  | loginForm =>
    refine hform fun user => ?_
    cases user with
    | none => exact .ret _
    | some user => exact .ret _
  | logout => exact Tidy.bind (tidy_runAuthenticated fun _ => (Keeps.ret _).climbs) fun _ => .ret _

theorem tidy_accountRequest {request : AccountRequest}
    (h : (ServedRequest.account request).served = true) : Tidy (request.code uni lifetime) := by
  have htransaction : ∀ {α : Type} {outcome : α → Outcome} {p : Tx α}, Climbs p →
      Tidy (accountTransaction outcome p) :=
    fun hp => Tidy.bind (Tidy.transaction hp) fun _ => .ret _
  have hpage : ∀ {p : Tx Page}, Tidy p → Tidy (answerPage p) :=
    fun hp => Tidy.bind hp fun _ => .ret _
  cases request with
  | register => exact htransaction climbs_register
  | authenticate => exact htransaction climbs_authenticate
  | changePassword => exact htransaction climbs_changePassword
  | registerAction => exact hpage tidy_registerAction
  | loginAction => exact hpage tidy_loginAction
  | changePasswordAction => exact hpage tidy_changePasswordAction
  | profile =>
    refine hpage (Tidy.bind (tidy_runAuthenticated fun _ => (Keeps.ret _).climbs) fun found => ?_)
    cases found with
    | none => exact .ret _
    | some found => exact .ret _
  | seed => cases h

/-- An operation on the task of a path. -/
theorem climbs_onTask {α : Type} {taskId : Option ℕ} {operation : ℕ → Tx α}
    (h : ∀ taskId, Climbs (operation taskId)) : Climbs (onTask taskId operation) := by
  cases taskId with
  | none => exact (Keeps.ret _).climbs
  | some taskId =>
    refine Climbs.handle (Climbs.bind (h taskId) fun _ => .ret _) fun e => ?_
    cases e with
    | taskNotFoundError => exact .ret _
    | _ => exact .raise _

/-- A page over the task of a path. -/
theorem tidy_taskPage {α : Type} {request : WebRequest} {taskId : Except Exn (Option ℕ)}
    {operation : Option ℕ → CurrentUser → ℕ → Tx α}
    (h : ∀ id user taskId, Climbs (operation id user taskId))
    {page : Option ℕ → Option (CurrentUser × Option α) → Tx WebResponse}
    (hpage : ∀ id found, Tidy (page id found)) :
    Tidy ((liftExcept taskId).bind fun id =>
      (runTaskPage request fun user => onTask id (operation id user)).bind (page id)) := by
  refine Tidy.bind (Keeps.liftExcept _).tidy fun id => ?_
  exact Tidy.bind (tidy_runAuthenticated fun user => climbs_onTask (h id user)) (hpage id)

theorem tidy_page (route : TaskRoute) (request : WebRequest) :
    Tidy (route.handler uni codec request) := by
  -- what is rendered issues no statement
  have hview : ∀ {page : TaskView → Tx WebResponse} {result : TaskResult},
      (∀ task, Tidy (page task)) → Tidy ((liftExcept (taskView codec result)).bind page) :=
    fun h => Tidy.bind (Keeps.liftExcept _).tidy h
  cases route with
  | tasks =>
    refine Tidy.bind (tidy_runAuthenticated fun user => keeps_listTasks.climbs) fun found => ?_
    rcases found with _ | ⟨user, results⟩
    · exact .ret _
    · exact Tidy.bind (Keeps.liftExcept _).tidy fun _ => .ret _
  | createTask =>
    show Tidy (createTaskAction uni codec request)
    rw [createTaskAction]
    dsimp only
    split
    · refine Tidy.bind (tidy_runAuthenticated fun user => keeps_listTasks.climbs) fun found => ?_
      rcases found with _ | ⟨user, results⟩
      · exact .ret _
      · exact Tidy.bind (Keeps.liftExcept _).tidy fun _ => .ret _
    · refine Tidy.bind (tidy_runAuthenticated fun user => ?_) fun found => ?_
      · exact Climbs.bind climbs_createTask fun _ => .ret _
      · rcases found with _ | ⟨user, created⟩
        · exact .ret _
        · dsimp only
          split
          · exact .ret _
          · exact hview fun _ => .ret _
  | editTaskForm publicId =>
    refine tidy_taskPage (fun _ _ _ => keeps_getTask.climbs) fun _ found => ?_
    rcases found with _ | ⟨user, _ | result⟩
    · exact .ret _
    · exact .ret _
    · exact hview fun _ => .ret _
  | editTask publicId =>
    refine tidy_taskPage (fun _ user taskId => ?_) fun _ found => ?_
    · split
      · exact keeps_getTask.climbs
      · exact climbs_updateTask
    · rcases found with _ | ⟨user, _ | result⟩
      · exact .ret _
      · exact .ret _
      · refine hview fun task => ?_
        split
        · exact .ret _
        · split
          · exact .ret _
          · exact .ret _
  | toggleTask publicId =>
    refine tidy_taskPage (fun _ _ _ => climbs_toggleTask) fun _ found => ?_
    rcases found with _ | ⟨user, _ | result⟩
    · exact .ret _
    · exact .ret _
    · dsimp only
      split
      · exact hview fun _ => .ret _
      · exact .ret _
  | deleteTask publicId =>
    refine tidy_taskPage (fun _ _ _ => climbs_deleteTask) fun _ found => ?_
    rcases found with _ | ⟨user, _ | result⟩
    · exact .ret _
    · exact .ret _
    · dsimp only
      split
      · exact .ret _
      · exact .ret _
  | taskStatus publicId =>
    refine tidy_taskPage (fun _ _ _ => keeps_getTask.climbs) fun _ found => ?_
    rcases found with _ | ⟨user, _ | result⟩
    · exact .ret _
    · exact .ret _
    · exact hview fun _ => .ret _

theorem tidy_servedRequest {request : ServedRequest} (h : request.served = true) :
    Tidy (request.code uni lifetime codec) := by
  cases request with
  | account request => exact Tidy.bind (tidy_accountRequest h) fun _ => .ret _
  | visit route cookie => exact Tidy.bind (tidy_visit route) fun _ => .ret _
  | page route request => exact Tidy.bind (tidy_page route request) fun _ => .ret _
  | task request => exact Tidy.bind (tidy_taskRequest request) fun _ => .ret _

end Handlers

/-- **The application does not deadlock**, whatever the interleaving. -/
theorem ServedRun.no_deadlock {uni : Unicode} {isHash : String → String → Bool}
    {lifetime : Duration} {codec : SqidsPublicIdCodec} (run : ServedRun uni isHash lifetime codec)
    (n : ℕ) : (run.state n).DeadlockFree Key.refers := by
  have hcode : ∀ request : ServedRequest, request.served = true →
      (request.code uni lifetime codec).Meets upwards .idle (Unlocked request) :=
    fun _ hserved => (tidy_servedRequest hserved .idle ⟨rfl, rfl⟩).mono fun _ _ h => h.1
  exact Run.deadlockFree run.toRun (fun _ => hcode) run.unlocked run.numbered n

end Lsstack
