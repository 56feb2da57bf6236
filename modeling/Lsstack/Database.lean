/-
The database the application runs on, and the transactions it runs there.

The three tables of schema `app` are keyed rows of the READ COMMITTED store;
the unique index on `email_normalized` is a fourth, from emails to user ids.
Outside the store lie the clock, `uuid4`, the password hasher and the queue,
whose replies the environment chooses.  The clock may reply anything; a hash is
a hash of its password; a verification accepts exactly the hashes of the
password; an enqueue may accept the job, find the key present, or raise, with
or without having stored the job.

* `Tx` — code that runs over a session;
* `transactionRunner` — `TransactionRunner.run`, with its rule
  `meets_transactionRunner`;
* `machine` — processes over the shared database.
-/
import Lsstack.ReadCommitted
import Lsstack.Domain

namespace Lsstack

open Concurrency

/-! ### Rows

A row is stored under its primary key, so the key is not repeated in it. -/

/-- The columns of `app.users` beside `id`. -/
structure UserModel where
  emailNormalized : String
  passwordHash : String
  sessionVersion : ℕ
  createdAt : Instant
  updatedAt : Instant
  deriving DecidableEq

/-- The columns of `app.tasks` beside `id`. -/
structure TaskModel where
  userId : ℕ
  title : String
  description : Option String
  isCompleted : Bool
  backgroundProcessedAt : Option Instant
  createdAt : Instant
  updatedAt : Instant
  deriving DecidableEq

/-- The columns of `app.outbox_messages` beside `id`. -/
structure OutboxMessageModel where
  topic : String
  payload : JsonValue
  createdAt : Instant
  publishedAt : Option Instant
  leaseOwner : Option String
  leaseExpiresAt : Option Instant
  attemptCount : ℕ
  lastError : Option String

/-- Primary keys, and the entries of `uq_users_email_normalized`. -/
inductive Key where
  | user (id : ℕ)
  | email (emailNormalized : String)
  | task (id : ℕ)
  | message (id : Uuid)
  deriving DecidableEq

/-- What is stored under a key; an index entry holds the user's id. -/
@[reducible] def Row : Key → Type
  | .user _ => UserModel
  | .email _ => ℕ
  | .task _ => TaskModel
  | .message _ => OutboxMessageModel

/-- The sequences behind the `bigint` keys. -/
inductive Sequence where
  | users
  | tasks
  deriving DecidableEq

/-! ### Results of the transactions -/

structure AuthResult where
  userId : ℕ
  emailNormalized : String
  sessionVersion : ℕ
  deriving DecidableEq

structure UserSession where
  userId : ℕ
  emailNormalized : String
  sessionVersion : ℕ
  deriving DecidableEq

structure SessionClaims where
  userId : ℕ
  sessionVersion : ℕ
  issuedAt : Instant
  expiresAt : Instant
  deriving DecidableEq

structure CurrentUser where
  id : ℕ
  email : String
  sessionVersion : ℕ
  deriving DecidableEq

structure TaskResult where
  id : ℕ
  userId : ℕ
  title : String
  description : Option String
  isCompleted : Bool
  backgroundProcessedAt : Option Instant
  createdAt : Instant
  updatedAt : Instant
  deriving DecidableEq

structure TaskCreatedResult where
  task : TaskResult
  outboxMessageId : Uuid

structure ClaimedMessage where
  id : Uuid
  topic : String
  payload : JsonValue
  attemptCount : ℕ

structure SeedResult where
  email : String
  userCreated : Bool
  passwordRepaired : Bool
  tasksCreated : ℕ

/-- The result a transaction commits with.  `visited` stands for a web request
that replaced no password. -/
inductive Outcome where
  | registered (result : AuthResult)
  | authenticated (result : AuthResult)
  | passwordChanged (userId version : ℕ)
  | seeded (result : SeedResult)
  | visited (user : CurrentUser)
  | tasksListed (userId : ℕ)
  | taskRead (result : TaskResult)
  | taskCreated (result : TaskCreatedResult)
  | taskUpdated (result : TaskResult)
  | taskToggled (result : TaskResult)
  | taskDeleted (userId taskId : ℕ)
  | taskProcessed (taskId : ℕ) (result : Option TaskResult)
  | claimed (owner : String) (messages : List ClaimedMessage)
  | acknowledged (messageId : Uuid) (owner : String) (result : Bool)
  | failed (messageId : Uuid) (owner : String) (result : Bool)

/-! ### Outside the store -/

/-- The answer of `PasswordHasher.verify`. -/
structure PasswordVerification where
  valid : Bool
  replacementHash : Option String

/-- The arguments of `queue.enqueue`. -/
structure EnqueueCall where
  job : String
  payload : JsonValue
  key : String
  retries : ℕ
  retryDelay : ℚ
  retryBackoff : Bool
  timeout : ℕ

/-- Calls that leave the database session.  `serverNow` is PostgreSQL's `now()`
in a column default. -/
inductive Outside where
  | now
  | serverNow
  | uuid4
  | hash (password : String)
  | verify (password passwordHash : String)
  | verifyUnknown (password : String)
  | enqueue (call : EnqueueCall)

/-- The replies; an enqueue replies whether a job was returned. -/
@[reducible] def Outside.Reply : Outside → Type
  | .now => Instant
  | .serverNow => Instant
  | .uuid4 => Uuid
  | .hash _ => String
  | .verify _ _ => PasswordVerification
  | .verifyUnknown _ => Unit
  | .enqueue _ => Bool

/-- The faults a connection can show: the database or the queue fails, or the
surrounding task is cancelled. -/
inductive Fault where
  | database (message : String)
  | queue (message : String)
  | cancelled

/-- The exception by which a fault shows. -/
def Fault.exn : Fault → Exn
  | .database message => .databaseError message
  | .queue message => .queueError message
  | .cancelled => .cancelledError

/-- What the environment decides about such a call. -/
inductive Decision where
  | time (t : Instant)
  | uuid (u : Uuid)
  | hashed (h : String)
  | upgrade (replacement : Option String)
  | verified
  | accepted
  | duplicate
  | acceptedRaising (e : Fault)

/-- The queue: the enqueue calls that returned normally, and the jobs it has
stored, both newest first. -/
structure Queue where
  enqueued : List EnqueueCall
  jobs : List EnqueueCall

/-- How the world outside the store replies.  `isHash p h` says that `h` is a
hash of the password `p`. -/
def outside (isHash : String → String → Bool) (queue : Queue) :
    (x : Outside) → Decision → Option (Except Exn x.Reply × Queue)
  | .now, .time t => some (.ok t, queue)
  | .serverNow, .time t => some (.ok t, queue)
  | .uuid4, .uuid u => some (.ok u, queue)
  | .hash p, .hashed h => if isHash p h then some (.ok h, queue) else none
  | .verify p h, .upgrade replacement =>
    if isHash p h then
      match replacement with
      | none => some (.ok ⟨true, none⟩, queue)
      | some h' => if isHash p h' then some (.ok ⟨true, some h'⟩, queue) else none
    else some (.ok ⟨false, none⟩, queue)
  | .verifyUnknown _, .verified => some (.ok (), queue)
  | .enqueue call, .accepted =>
    some (.ok true, ⟨call :: queue.enqueued, call :: queue.jobs⟩)
  | .enqueue call, .duplicate => some (.ok false, { queue with enqueued := call :: queue.enqueued })
  | .enqueue call, .acceptedRaising e =>
    some (.error e.exn, { queue with jobs := call :: queue.jobs })
  | _, _ => none

/-- The queue forgets no call that has returned. -/
theorem outside_enqueued {isHash : String → String → Bool} {queue queue' : Queue} {x : Outside}
    {d : Decision} {r : Except Exn x.Reply} (h : outside isHash queue x d = some (r, queue'))
    {call : EnqueueCall} (hmem : call ∈ queue.enqueued) : call ∈ queue'.enqueued := by
  -- only an enqueue changes the queue, and what was enqueued stays
  cases x with
  | enqueue call' =>
    cases d
    all_goals cases h
    · exact List.mem_cons_of_mem _ hmem
    · exact List.mem_cons_of_mem _ hmem
    · exact hmem
  | hash password =>
    cases d
    case hashed h' =>
      simp only [outside] at h
      split at h
      · cases h
        exact hmem
      · cases h
    all_goals cases h
  | verify password passwordHash =>
    cases d
    case upgrade replacement =>
      simp only [outside] at h
      split at h
      · split at h
        · cases h
          exact hmem
        · split at h
          · cases h
            exact hmem
          · cases h
      · cases h
        exact hmem
    all_goals cases h
  | _ =>
    cases d
    all_goals cases h
    exact hmem

/-- A call that returns is among them. -/
theorem outside_enqueue {isHash : String → String → Bool} {queue queue' : Queue}
    {call : EnqueueCall} {d : Decision} {b : Bool}
    (h : outside isHash queue (.enqueue call) d = some (.ok b, queue')) :
    call ∈ queue'.enqueued := by
  cases d
  all_goals cases h
  · exact List.mem_cons_self
  · exact List.mem_cons_self

/-- Whatever raises outside the store is a fault. -/
theorem outside_error {isHash : String → String → Bool} {queue queue' : Queue} {x : Outside}
    {d : Decision} {e : Exn} (h : outside isHash queue x d = some (.error e, queue')) :
    ∃ f : Fault, e = f.exn := by
  cases x with
  | enqueue call =>
    cases d
    all_goals cases h
    exact ⟨_, rfl⟩
  | hash password =>
    cases d
    case hashed h' =>
      simp only [outside] at h
      split at h <;> cases h
    all_goals cases h
  | verify password passwordHash =>
    cases d
    case upgrade replacement =>
      simp only [outside] at h
      split at h
      · split at h
        · cases h
        · split at h <;> cases h
      · cases h
    all_goals cases h
  | _ =>
    cases d
    all_goals cases h

/-- A hash is one of the password. -/
theorem outside_hash {isHash : String → String → Bool} {queue queue' : Queue} {password h : String}
    {d : Decision} (he : outside isHash queue (.hash password) d = some (.ok h, queue')) :
    isHash password h = true := by
  cases d
  case hashed h' =>
    simp only [outside] at he
    split at he
    · cases he
      assumption
    · cases he
  all_goals cases he

/-- A verification accepts the hashes of the password, and upgrades to one. -/
theorem outside_verify {isHash : String → String → Bool} {queue queue' : Queue}
    {password passwordHash : String} {d : Decision} {v : PasswordVerification}
    (h : outside isHash queue (.verify password passwordHash) d = some (.ok v, queue')) :
    v.valid = isHash password passwordHash ∧ ∀ replacement, v.replacementHash = some replacement →
      isHash password passwordHash = true ∧ isHash password replacement = true := by
  cases d
  case upgrade replacement =>
    simp only [outside] at h
    split at h
    · rename_i hvalid
      split at h
      · cases h
        exact ⟨hvalid.symm, nofun⟩
      · split at h
        · cases h
          refine ⟨hvalid.symm, fun replacement hr => ?_⟩
          obtain rfl := Option.some_inj.mp hr
          exact ⟨hvalid, by assumption⟩
        · cases h
    · rename_i hinvalid
      cases h
      exact ⟨(Bool.eq_false_of_not_eq_true hinvalid).symm, nofun⟩
  all_goals cases h

/-! ### Code over a session -/

/-- The statements and calls the application issues. -/
abbrev Command := Statement Key Row Sequence Outcome Outside

abbrev Command.Reply (c : Command) : Type := Statement.Reply Outside.Reply c

/-- Code that talks to the database and its surroundings. -/
abbrev Tx (α : Type) : Type := Program Command Command.Reply Exn α

/-- The database with its committed results and the queue. -/
abbrev Db : Type := World Key Row Sequence Outcome Queue

/-- No rows at all. -/
def emptyDb : Db := ⟨.empty, fun _ => 1, [], ⟨[], []⟩⟩

theorem emptyDb_unlocked (k : Key) : (emptyDb.cell k).hold.owner = none := rfl

theorem emptyDb_unlogged : emptyDb.log = [] := rfl

/-- Some rows at rest, with the numbers that the sequences issue next. -/
def storedDb (rows : List ((k : Key) × Row k)) (next : Sequence → ℕ) : Db :=
  ⟨rows.foldr (fun x store => store.set x.1 ⟨some x.2, .free⟩) .empty, next, [], ⟨[], []⟩⟩

section Stored

variable {rows : List ((k : Key) × Row k)} {next : Sequence → ℕ}

theorem storedDb_free (k : Key) : ((storedDb rows next).cell k).hold = .free := by
  induction rows with
  | nil => rfl
  | cons x rows ih =>
    by_cases hk : k = x.1
    · subst hk
      exact congrArg Cell.hold (Store.set_cell_self _ _ _)
    · exact (congrArg Cell.hold (Store.set_cell_of_ne _ hk _)).trans ih

theorem storedDb_unlocked (k : Key) : ((storedDb rows next).cell k).hold.owner = none := by
  rw [storedDb_free]
  rfl

theorem storedDb_row {k : Key} {row : Row k} (h : (storedDb rows next).row k = some row) :
    ⟨k, row⟩ ∈ rows := by
  induction rows with
  | nil => cases h
  | cons x rows ih =>
    by_cases hk : k = x.1
    · subst hk
      have hrow : some x.2 = some row :=
        (congrArg Cell.committed (Store.set_cell_self _ _ _)).symm.trans h
      cases hrow
      exact List.mem_cons_self
    · have hrow := (congrArg Cell.committed (Store.set_cell_of_ne _ hk _)).symm.trans h
      exact List.mem_cons_of_mem _ (ih hrow)

end Stored

/-- User 1, and the entry of the user's email. -/
def adaRows : List ((k : Key) × Row k) :=
  [⟨.user 1, ⟨"ada@example.org", "", 0, 0, 0⟩⟩, ⟨.email "ada@example.org", (1 : ℕ)⟩]

/-- A database that holds this user alone. -/
def adaDb : Db :=
  storedDb adaRows fun
    | .users => 2
    | .tasks => 1

theorem adaDb_unlocked (k : Key) : (adaDb.cell k).hold.owner = none := storedDb_unlocked k

theorem adaDb_unlogged : adaDb.log = [] := rfl

theorem adaDb_noJobs : adaDb.env.jobs = [] := rfl

theorem adaDb_noMessages (id : Uuid) : adaDb.row (.message id) = none := by
  refine Option.eq_none_iff_forall_ne_some.mpr fun row hrow => ?_
  simpa [adaRows] using storedDb_row hrow

theorem adaDb_positive : 1 ≤ adaDb.seq .tasks := Nat.le_refl 1

/-- Raise a domain error, or go on with the value. -/
def liftExcept {α : Type} : Except Exn α → Tx α
  | .ok a => .ret a
  | .error e => .raise e

/-- Issue one statement or call. -/
def perform (c : Command) : Tx c.Reply := Program.perform c

def select (k : Key) (p : Row k → Bool) : Tx (Option (Row k)) :=
  perform (Statement.select k p)

def selectForUpdate (k : Key) (p : Row k → Bool) : Tx (Option (Row k)) :=
  perform (Statement.lock k p)

def selectForUpdateSkipLocked (k : Key) (p : Row k → Bool) : Tx (Option (Row k)) :=
  perform (Statement.tryLock k p)

def scan (p : (k : Key) × Row k → Bool) (le : (k : Key) × Row k → (k : Key) × Row k → Bool) :
    Tx (List ((k : Key) × Row k)) :=
  perform (Statement.scan p le)

def update (k : Key) (p : Row k → Bool) (f : Row k → Row k) : Tx (Option (Row k)) :=
  perform (Statement.update k p f)

def insert (k : Key) (v : Row k) : Tx Bool := perform (Statement.insert k v)

def delete (k : Key) (p : Row k → Bool) : Tx (Option (Row k)) := perform (Statement.delete k p)

def nextval (s : Sequence) : Tx ℕ := perform (Statement.nextval s)

def commit (out : Outcome) : Tx Unit := perform (Statement.commit out)

def rollback : Tx Unit := perform Statement.rollback

def call (x : Outside) : Tx x.Reply := perform (Statement.ext x)

/-- `clock.now()`. -/
def now : Tx Instant := call .now

/-- `TransactionRunner.run`: commit the operation's result, or roll back and
raise.  `outcome` is what the log records of the result. -/
def transactionRunner {α : Type} (outcome : α → Outcome) (operation : Tx α) : Tx α :=
  tryCatch
    (do
      let result ← operation
      commit (outcome result)
      return result)
    fun error => do
      rollback
      throw error

/-- The last reading of the clock. -/
def lastReading : List ((c : Command) × Except Exn c.Reply) → Option Instant
  | [] => none
  | ⟨.ext .now, .ok t⟩ :: _ => some t
  | _ :: calls => lastReading calls

/-! ### Rules for code over a session -/

section Rules

variable {Γ α : Type} {P : Protocol Command Command.Reply Exn Γ} {g : Γ}

@[simp] theorem meets_liftExcept {a : Except Exn α} {Q : Except Exn α → Γ → Prop} :
    (liftExcept a).Meets P g Q ↔ Q a g := by
  cases a <;> rfl

/-- What holds once a transaction has been rolled back over `error`. -/
def rolledBack (P : Protocol Command Command.Reply Exn Γ) (Q : Except Exn α → Γ → Prop)
    (error : Exn) (g : Γ) : Prop :=
  rollback.Meets P g (Program.onOk (fun _ g' => Q (.error error) g') Q)

/-- What the operation of a transaction has to reach: its result is committed,
and whatever raises, the commit included, is rolled back. -/
def settled (P : Protocol Command Command.Reply Exn Γ) (outcome : α → Outcome)
    (Q : Except Exn α → Γ → Prop) : Except Exn α → Γ → Prop
  | .ok a, g => (commit (outcome a)).Meets P g
      (Program.onOk (fun _ g' => Q (.ok a) g') (Program.onError Q (rolledBack P Q)))
  | .error e, g => rolledBack P Q e g

/-- The rule of `TransactionRunner.run`. -/
theorem meets_transactionRunner {outcome : α → Outcome} {operation : Tx α}
    {Q : Except Exn α → Γ → Prop} :
    (transactionRunner outcome operation).Meets P g Q ↔
      operation.Meets P g (settled P outcome Q) := by
  simp only [transactionRunner, Program.tryCatch_eq, Program.bind_eq, Program.meets_handle,
    Program.meets_bind, Program.pure_eq, Program.throw_eq]
  refine Program.meets_congr fun r g₁ => ?_
  cases r with
  | error e => rfl
  | ok a =>
    refine Program.meets_congr fun r g₂ => ?_
    cases r with
    | error e => rfl
    | ok u => rfl

section Automaton

variable {guard : Γ → Command → Prop} {next : Γ → (c : Command) → Except Exn c.Reply → Γ}

theorem meets_select {k : Key} {p : Row k → Bool} {Q : Except Exn (Option (Row k)) → Γ → Prop} :
    (select k p).Meets (.automaton guard next) g Q ↔
      guard g (.select k p) ∧ ∀ r, Q r (next g (.select k p) r) :=
  Program.meets_perform_automaton

theorem meets_selectForUpdate {k : Key} {p : Row k → Bool}
    {Q : Except Exn (Option (Row k)) → Γ → Prop} :
    (selectForUpdate k p).Meets (.automaton guard next) g Q ↔
      guard g (.lock k p) ∧ ∀ r, Q r (next g (.lock k p) r) :=
  Program.meets_perform_automaton

theorem meets_selectForUpdateSkipLocked {k : Key} {p : Row k → Bool}
    {Q : Except Exn (Option (Row k)) → Γ → Prop} :
    (selectForUpdateSkipLocked k p).Meets (.automaton guard next) g Q ↔
      guard g (.tryLock k p) ∧ ∀ r, Q r (next g (.tryLock k p) r) :=
  Program.meets_perform_automaton

theorem meets_scan {p : (k : Key) × Row k → Bool}
    {le : (k : Key) × Row k → (k : Key) × Row k → Bool}
    {Q : Except Exn (List ((k : Key) × Row k)) → Γ → Prop} :
    (scan p le).Meets (.automaton guard next) g Q ↔
      guard g (.scan p le) ∧ ∀ r, Q r (next g (.scan p le) r) :=
  Program.meets_perform_automaton

theorem meets_update {k : Key} {p : Row k → Bool} {f : Row k → Row k}
    {Q : Except Exn (Option (Row k)) → Γ → Prop} :
    (update k p f).Meets (.automaton guard next) g Q ↔
      guard g (.update k p f) ∧ ∀ r, Q r (next g (.update k p f) r) :=
  Program.meets_perform_automaton

theorem meets_insert {k : Key} {v : Row k} {Q : Except Exn Bool → Γ → Prop} :
    (insert k v).Meets (.automaton guard next) g Q ↔
      guard g (.insert k v) ∧ ∀ r, Q r (next g (.insert k v) r) :=
  Program.meets_perform_automaton

theorem meets_delete {k : Key} {p : Row k → Bool} {Q : Except Exn (Option (Row k)) → Γ → Prop} :
    (delete k p).Meets (.automaton guard next) g Q ↔
      guard g (.delete k p) ∧ ∀ r, Q r (next g (.delete k p) r) :=
  Program.meets_perform_automaton

theorem meets_nextval {s : Sequence} {Q : Except Exn ℕ → Γ → Prop} :
    (nextval s).Meets (.automaton guard next) g Q ↔
      guard g (.nextval s) ∧ ∀ r, Q r (next g (.nextval s) r) :=
  Program.meets_perform_automaton

theorem meets_outside {x : Outside} {Q : Except Exn x.Reply → Γ → Prop} :
    (call x).Meets (.automaton guard next) g Q ↔
      guard g (.ext x) ∧ ∀ r, Q r (next g (.ext x) r) :=
  Program.meets_perform_automaton

/-- Where a protocol asks for nothing in the end and always lets a transaction
roll back, its result must be one that may be committed. -/
theorem settled_automaton {outcome : α → Outcome} {Q : Except Exn α → Γ → Prop}
    {r : Except Exn α} (hQ : ∀ r g, Q r g) (hguard : ∀ g, guard g .rollback)
    (h : ∀ a, r = .ok a → guard g (.commit (outcome a))) :
    settled (.automaton guard next) outcome Q r g := by
  have hback : ∀ e g, rolledBack (.automaton guard next) Q e g := by
    intro e g
    refine Program.meets_perform_automaton.mpr ⟨hguard g, fun r => ?_⟩
    cases r <;> exact hQ _ _
  cases r with
  | error e => exact hback e g
  | ok a =>
    refine Program.meets_perform_automaton.mpr ⟨h a rfl, fun r => ?_⟩
    cases r with
    | error e => exact hback e _
    | ok u => exact hQ _ _

end Automaton

end Rules

/-- Processes that run `code` over one database. -/
def machine {Q A : Type} (isHash : String → String → Bool) (code : Q → Tx A) :
    Machine Command Command.Reply Exn Q A Db (Choice Fault Decision) where
  code := code
  exec := fun w i c x => exec Fault.exn (outside isHash) w i c x
  abort := fun w i => w.release i

/-- The exceptions of a statement are faults; a rollback raises none. -/
theorem exec_error {isHash : String → String → Bool} {w w' : Db} {i : ℕ} {c : Command}
    {x : Choice Fault Decision} {e : Exn}
    (h : exec Fault.exn (outside isHash) w i c x = some (.error e, w')) :
    (∃ f : Fault, e = f.exn) ∧ c ≠ .rollback := by
  rcases x with _ | f | f | d
  · exfalso
    cases c
    all_goals simp only [exec] at h
    all_goals first
      | cases h
      | (split at h <;> cases h)
      | (split at h <;> first | cases h | (split at h <;> cases h))
  · cases c
    all_goals cases h
    all_goals exact ⟨⟨f, rfl⟩, fun h => by cases h⟩
  · cases c
    all_goals cases h
    exact ⟨⟨f, rfl⟩, fun h => by cases h⟩
  · cases c
    case ext y =>
      obtain ⟨⟨r, env⟩, hout, heq⟩ := Option.map_eq_some_iff.mp h
      cases heq
      exact ⟨outside_error hout, fun h => by cases h⟩
    all_goals cases h

/-- The requests `allowed` run `code` over one database; at first no row is
locked and nothing is logged. -/
structure DbRun {Q A : Type} (isHash : String → String → Bool) (code : Q → Tx A)
    (allowed : Config Command Command.Reply Exn Q A Db → Q → Prop) extends
    Run (machine isHash code) allowed where
  unlocked : ∀ k, ((state 0).world.cell k).hold.owner = none
  unlogged : (state 0).world.log = []

/-- The run that follows a list of labels from a world with no locks. -/
def traceRun {Q A : Type} (isHash : String → String → Bool) (code : Q → Tx A)
    (allowed : Q → Prop) (w : Db) (ls : List (Label Q (Choice Fault Decision)))
    (hw : ∀ k, (w.cell k).hold.owner = none) (hlog : w.log = [])
    (hall : ∀ q ∈ ls.filterMap Label.arrival, allowed q) :
    DbRun isHash code fun _ q => allowed q where
  toRun := (machine isHash code).traceRun (fun _ q => allowed q) w ls fun _ _ q h =>
    hall q (List.mem_filterMap.mpr ⟨_, List.mem_of_getElem? h, rfl⟩)
  unlocked := hw
  unlogged := hlog

section Steps

variable {Γ Q A : Type} {isHash : String → String → Bool} {code : Q → Tx A}
  {allowed : Config Command Command.Reply Exn Q A Db → Q → Prop}
  {P : Protocol Command Command.Reply Exn Γ} {idle : Γ} {Post : Q → Except Exn A → Γ → Prop}
  {inv : Db → Prop}
  {asserts : Db → ℕ → Option (Process Command Command.Reply Exn Q A) → Γ → Prop}
  {cfg cfg' : Config Command Command.Reply Exn Q A Db}

/-- **What a step does to the committed rows and the log**: nothing, unless it is
a commit that the protocol allows. -/
theorem commit_cases
    (h : Sound.Holds P idle Post (RelyGuarantee.Invariant inv asserts) cfg)
    (hs : (machine isHash code).Step allowed cfg cfg') :
    ((∀ k, cfg'.world.row k = cfg.world.row k) ∧ cfg'.world.log = cfg.world.log) ∨
    ∃ i p out g, cfg.procs i = some p ∧ cfg'.world = cfg.world.commit i out ∧
      P.guard g (.commit out) ∧ asserts cfg.world i (some p) g := by
  obtain ⟨g, hJ, hall⟩ := h
  cases hs with
  | start free may => exact .inl ⟨fun _ => rfl, rfl⟩
  | crash runs => exact .inl ⟨fun k => World.release_row _ _ k, rfl⟩
  | @act i q calls c k x r w runs does =>
    obtain hsame | ⟨out, rfl, rfl⟩ := exec_row does
    · exact .inl hsame
    · have hi := hJ.2 i
      have hm := hall i
      rw [runs] at hi hm
      exact .inr ⟨i, _, out, g i, runs, rfl, hm.1, hi⟩

/-! The requests whose transactions have committed. -/

/-- The requests behind the entries of the log, newest first. -/
def committed (cfg : Config Command Command.Reply Exn Q A Db) : List Q :=
  cfg.world.log.filterMap fun entry => (cfg.procs entry.1).map Process.request

/-- Every entry of the log belongs to a process that has arrived. -/
def Arrived (cfg : Config Command Command.Reply Exn Q A Db) : Prop :=
  ∀ entry ∈ cfg.world.log, (cfg.procs entry.1).isSome

theorem committed_requests (harr : Arrived cfg) (hs : (machine isHash code).Step allowed cfg cfg') :
    cfg.world.log.filterMap (fun entry => (cfg'.procs entry.1).map Process.request) =
      committed cfg := by
  refine List.filterMap_congr fun entry he => ?_
  obtain ⟨p, hp⟩ := Option.isSome_iff_exists.mp (harr entry he)
  obtain ⟨p', hp', hreq, -⟩ := hs.proc hp
  rw [hp, hp', Option.map_some, Option.map_some, hreq]

theorem committed_of_log_eq (harr : Arrived cfg)
    (hs : (machine isHash code).Step allowed cfg cfg') (hlog : cfg'.world.log = cfg.world.log) :
    committed cfg' = committed cfg := by
  rw [committed, hlog, committed_requests harr hs]

theorem committed_of_commit (harr : Arrived cfg)
    (hs : (machine isHash code).Step allowed cfg cfg') {i : ℕ} {out : Outcome}
    {p : Process Command Command.Reply Exn Q A} (hp : cfg.procs i = some p)
    (hlog : cfg'.world.log = (i, out) :: cfg.world.log) :
    committed cfg' = p.request :: committed cfg := by
  obtain ⟨p', hp', hreq, -⟩ := hs.proc hp
  rw [committed, hlog, List.filterMap_cons, committed_requests harr hs]
  simp only [hp', Option.map_some, hreq]

/-- What a step does to the log: nothing, or a process that runs commits. -/
theorem log_step (hs : (machine isHash code).Step allowed cfg cfg') :
    cfg'.world.log = cfg.world.log ∨
    ∃ i p out, cfg.procs i = some p ∧ cfg'.world.log = (i, out) :: cfg.world.log := by
  cases hs with
  | start free may => exact .inl rfl
  | crash runs => exact .inl rfl
  | @act i q calls c k x r w runs does =>
    obtain ⟨-, hsame⟩ | ⟨out, rfl, rfl⟩ := exec_row does
    · exact .inl hsame
    · exact .inr ⟨i, _, out, runs, rfl⟩

theorem Arrived.step (harr : Arrived cfg) (hs : (machine isHash code).Step allowed cfg cfg') :
    Arrived cfg' := by
  have hold : ∀ i p, cfg.procs i = some p → (cfg'.procs i).isSome := by
    intro i p hp
    obtain ⟨p', hp', -⟩ := hs.proc hp
    rw [hp']
    rfl
  intro entry he
  obtain hlog | ⟨i, p, out, hp, hlog⟩ := log_step hs
  · rw [hlog] at he
    obtain ⟨p, hp⟩ := Option.isSome_iff_exists.mp (harr entry he)
    exact hold _ p hp
  · rw [hlog, List.mem_cons] at he
    obtain rfl | he := he
    · exact hold _ p hp
    · obtain ⟨p, hp⟩ := Option.isSome_iff_exists.mp (harr entry he)
      exact hold _ p hp

theorem DbRun.arrived (run : DbRun isHash code allowed) (n : ℕ) : Arrived (run.state n) :=
  run.induction (by simp [Arrived, run.unlogged]) (fun _ hs h => h.step hs) n

theorem DbRun.log_next (run : DbRun isHash code allowed) (n : ℕ) :
    (run.state (n + 1)).world.log = (run.state n).world.log ∨
    ∃ i p out, (run.state n).procs i = some p ∧
      (run.state (n + 1)).world.log = (i, out) :: (run.state n).world.log := by
  rcases run.next n with hn | hn
  · exact .inl (congrArg (·.world.log) hn)
  · exact log_step hn

/-! The numbers a sequence has handed out. -/

/-- The process has drawn the number. -/
def Draws (s : Sequence) (d : ℕ) (p : Process Command Command.Reply Exn Q A) : Prop :=
  (⟨.nextval s, .ok d⟩ : (c : Command) × Except Exn c.Reply) ∈ p.calls

/-- What a step adds to the draws. -/
theorem draws_step (s : Sequence) (hs : (machine isHash code).Step allowed cfg cfg') :
    cfg.world.seq s ≤ cfg'.world.seq s ∧
    ∀ j p' d, cfg'.procs j = some p' → Draws s d p' →
      (∃ p, cfg.procs j = some p ∧ Draws s d p) ∨
      d = cfg.world.seq s ∧ cfg'.world.seq s = d + 1 ∧
        ∀ j' q', cfg'.procs j' = some q' → Draws s d q' → j' ≠ j →
          ∃ q, cfg.procs j' = some q ∧ Draws s d q := by
  -- what the stepping process had drawn before the step, it has still
  have hold : ∀ {i : ℕ} {p₀ : Process Command Command.Reply Exn Q A} {w : Db},
      (∀ d, Draws s d p₀ → ∃ p, cfg.procs i = some p ∧ Draws s d p) →
      ∀ j p' d, (cfg.set i p₀ w).procs j = some p' → Draws s d p' →
        ∃ p, cfg.procs j = some p ∧ Draws s d p := by
    intro i p₀ w hi j p' d hp' hd
    by_cases hj : j = i
    · subst hj
      obtain rfl := Option.some_inj.mp ((Config.set_procs_self _ _ _ _).symm.trans hp')
      exact hi d hd
    · exact ⟨p', (Config.set_procs_of_ne _ hj _ _).symm.trans hp', hd⟩
  cases hs with
  | start free may =>
    refine ⟨Nat.le_refl _, fun j p' d hp' hd => .inl (hold (fun d hd => ?_) j p' d hp' hd)⟩
    cases hd
  | crash runs =>
    refine ⟨Nat.le_refl _, fun j p' d hp' hd => .inl (hold (fun d hd => ?_) j p' d hp' hd)⟩
    exact ⟨_, runs, hd⟩
  | @act i q calls c k x r w runs does =>
    refine ⟨(exec_seq_env does).1 s, fun j p' d hp' hd => ?_⟩
    by_cases hj : j = i
    · subst hj
      obtain rfl := Option.some_inj.mp ((Config.set_procs_self _ _ _ _).symm.trans hp')
      obtain heq | hmem := List.mem_cons.mp hd
      -- the number is handed out in this step, so no other process has it
      · cases heq
        replace does : exec Fault.exn (outside isHash) cfg.world j (.nextval s) x =
          some (.ok d, w) := does
        obtain ⟨-, e, he⟩ | ⟨rfl, hr⟩ := exec_nextval does
        · cases he
        · obtain rfl : d = cfg.world.seq s := Except.ok.inj hr
          refine .inr ⟨rfl, by simp [World.nextval], fun j' q' hq' hd' hne => ?_⟩
          exact ⟨q', (Config.set_procs_of_ne _ hne _ _).symm.trans hq', hd'⟩
      · exact .inl ⟨_, runs, hmem⟩
    · exact .inl ⟨p', (Config.set_procs_of_ne _ hj _ _).symm.trans hp', hd⟩

/-- **A sequence hands out each number once**, from where it stood at first. -/
theorem DbRun.draws (run : DbRun isHash code allowed) (s : Sequence) (n : ℕ) :
    (run.state 0).world.seq s ≤ (run.state n).world.seq s ∧
    (∀ i p d, (run.state n).procs i = some p → Draws s d p →
      (run.state 0).world.seq s ≤ d ∧ d < (run.state n).world.seq s) ∧
    ∀ i j p q d, (run.state n).procs i = some p → (run.state n).procs j = some q →
      Draws s d p → Draws s d q → i = j := by
  induction n with
  | zero =>
    refine ⟨Nat.le_refl _, fun i p d hp => ?_, fun i j p q d hp => ?_⟩
    · rw [run.empty] at hp
      cases hp
    · rw [run.empty] at hp
      cases hp
  | succ n ih =>
    rcases run.next n with hn | hn
    · rw [hn]
      exact ih
    obtain ⟨hfrom, hrange, hunique⟩ := ih
    -- a draw is old, or made in this step; a new number is above all the old ones
    obtain ⟨hseq, hstep⟩ := draws_step s hn
    refine ⟨hfrom.trans hseq, fun i p d hp hd => ?_, fun i j p q d hp hq hdp hdq => ?_⟩
    · obtain ⟨p₀, hp₀, hd₀⟩ | ⟨rfl, hnew, -⟩ := hstep i p d hp hd
      · obtain ⟨hle, hlt⟩ := hrange i p₀ d hp₀ hd₀
        exact ⟨hle, by omega⟩
      · exact ⟨hfrom, by omega⟩
    · by_contra hne
      obtain ⟨p₀, hp₀, hd₀⟩ | ⟨rfl, -, hothers⟩ := hstep i p d hp hdp
      · obtain ⟨q₀, hq₀, hd₀'⟩ | ⟨rfl, -, -⟩ := hstep j q d hq hdq
        · exact hne (hunique i j p₀ q₀ d hp₀ hq₀ hd₀ hd₀')
        · exact absurd (hrange i p₀ _ hp₀ hd₀).2 (lt_irrefl _)
      · obtain ⟨q₀, hq₀, hd₀⟩ := hothers j q hq hdq (Ne.symm hne)
        exact absurd (hrange j q₀ _ hq₀ hd₀).2 (lt_irrefl _)

end Steps

/-! ### Clocks -/

/-- A clock that never goes back: each reading is at or after every reading
before it. -/
def DbRun.ClockForward {Q A : Type} {isHash : String → String → Bool} {code : Q → Tx A}
    {allowed : Config Command Command.Reply Exn Q A Db → Q → Prop}
    (run : DbRun isHash code allowed) : Prop :=
  ∀ n i p p' t, (run.state n).procs i = some p → (run.state (n + 1)).procs i = some p' →
    p'.calls = ⟨.ext .now, .ok t⟩ :: p.calls → ∀ j q, (run.state n).procs j = some q →
    ∀ t', (⟨.ext .now, .ok t'⟩ : (c : Command) × Except Exn c.Reply) ∈ q.calls → t' ≤ t

/-- The time the environment chooses. -/
def readTime {Q : Type} : Label Q (Choice Fault Decision) → Option Instant
  | .act _ (.ext (.time t)) => some t
  | _ => none

section Clocks

variable {Q A : Type} {isHash : String → String → Bool} {code : Q → Tx A}

/-- What a label does to the calls of a process. -/
theorem follow_calls (cfg : Config Command Command.Reply Exn Q A Db)
    (l : Label Q (Choice Fault Decision)) {j : ℕ} {q : Process Command Command.Reply Exn Q A}
    (hq : ((machine isHash code).follow cfg l).procs j = some q) :
    q.calls = [] ∨ (∃ q₀, cfg.procs j = some q₀ ∧ q.calls = q₀.calls) ∨
    ∃ q₀ c r, cfg.procs j = some q₀ ∧ q.calls = ⟨c, r⟩ :: q₀.calls ∧
      ∀ t, (⟨c, r⟩ : (c : Command) × Except Exn c.Reply) = ⟨.ext .now, .ok t⟩ →
        readTime l = some t := by
  -- a label that is not possible is passed over
  rcases hs : (machine isHash code).step cfg l with _ | cfg'
  · rw [Machine.follow, hs] at hq
    exact .inr (.inl ⟨q, hq, rfl⟩)
  rw [Machine.follow, hs, Option.getD_some] at hq
  have hother : ∀ {i p w}, cfg' = cfg.set i p w → j ≠ i → cfg.procs j = some q := by
    rintro i p w rfl hne
    rwa [Config.set_procs_of_ne _ hne] at hq
  have hself : ∀ {i p w}, cfg' = cfg.set i p w → j = i → q = p := by
    rintro i p w rfl rfl
    exact (Option.some_inj.mp ((Config.set_procs_self _ _ _ _).symm.trans hq)).symm
  cases l with
  | start i request =>
    simp only [Machine.step] at hs
    split at hs
    · obtain heq := (Option.some_inj.mp hs).symm
      by_cases hj : j = i
      · exact .inl (by rw [hself heq hj])
      · exact .inr (.inl ⟨q, hother heq hj, rfl⟩)
    · cases hs
  | act i x =>
    simp only [Machine.step] at hs
    split at hs
    · rename_i request calls c k hp
      obtain ⟨⟨r, w⟩, he, heq⟩ := Option.map_eq_some_iff.mp hs
      by_cases hj : j = i
      · obtain rfl := hself heq.symm hj
        refine .inr (.inr ⟨_, c, r, hj ▸ hp, rfl, fun t ht => ?_⟩)
        cases ht
        rcases x with _ | e | e | d
        case ext =>
          obtain ⟨⟨r', env⟩, hout, heq'⟩ := Option.map_eq_some_iff.mp he
          cases heq'
          cases d
          all_goals cases hout
          rfl
        all_goals cases he
      · exact .inr (.inl ⟨q, hother heq.symm hj, rfl⟩)
    · cases hs
  | crash i =>
    simp only [Machine.step] at hs
    split at hs
    · rename_i request calls c k hp
      obtain heq := (Option.some_inj.mp hs).symm
      by_cases hj : j = i
      · exact .inr (.inl ⟨_, hj ▸ hp, by rw [hself heq hj]⟩)
      · exact .inr (.inl ⟨q, hother heq hj, rfl⟩)
    · cases hs

/-- All readings of a trace are times of its labels. -/
theorem trace_readings (w : Db) (ls : List (Label Q (Choice Fault Decision))) (n : ℕ) {j : ℕ}
    {q : Process Command Command.Reply Exn Q A} {t : Instant}
    (hq : ((machine isHash code).trace ⟨w, fun _ => none⟩ ls n).procs j = some q)
    (ht : (⟨.ext .now, .ok t⟩ : (c : Command) × Except Exn c.Reply) ∈ q.calls) :
    t ∈ (ls.take n).filterMap readTime := by
  induction n generalizing q with
  | zero => cases hq
  | succ n ih =>
    rcases hl : ls[n]? with _ | l
    · have hlen := List.getElem?_eq_none_iff.mp hl
      rw [Machine.trace_still _ _ hlen] at hq
      rw [List.take_of_length_le (Nat.le_succ_of_le hlen), ← List.take_of_length_le hlen]
      exact ih hq ht
    · have htrace : (machine isHash code).trace ⟨w, fun _ => none⟩ ls (n + 1) =
          (machine isHash code).follow ((machine isHash code).trace ⟨w, fun _ => none⟩ ls n) l := by
        simp [Machine.trace, List.take_add_one, hl]
      rw [htrace] at hq
      rw [List.take_add_one, hl, Option.toList_some, List.filterMap_append, List.mem_append]
      obtain hnil | ⟨q₀, hq₀, hcalls⟩ | ⟨q₀, c, r, hq₀, hcalls, htime⟩ := follow_calls _ l hq
      · rw [hnil] at ht
        cases ht
      · exact .inl (ih hq₀ (hcalls ▸ ht))
      · rw [hcalls] at ht
        obtain heq | ht := List.mem_cons.mp ht
        · exact .inr (List.mem_filterMap.mpr ⟨l, List.mem_singleton_self l, htime t heq.symm⟩)
        · exact .inl (ih hq₀ ht)

/-- A trace whose times do not go back has such a clock. -/
theorem trace_clockForward {allowed : Config Command Command.Reply Exn Q A Db → Q → Prop} {w : Db}
    {ls : List (Label Q (Choice Fault Decision))} (run : DbRun isHash code allowed)
    (hrun : ∀ n, run.state n = (machine isHash code).trace ⟨w, fun _ => none⟩ ls n)
    (htimes : (ls.filterMap readTime).Pairwise (· ≤ ·)) : run.ClockForward := by
  intro n i p p' t hp hp' hcalls j q hq t' ht'
  rw [hrun] at hp hp' hq
  have hold := trace_readings w ls n hq ht'
  -- after the last label nothing is read
  rcases hl : ls[n]? with _ | l
  · have hstill := Machine.trace_still (machine isHash code) ⟨w, fun _ => none⟩
      (List.getElem?_eq_none_iff.mp hl)
    obtain rfl : p' = p :=
      Option.some_inj.mp ((hp'.symm.trans (congrArg (·.procs i) hstill)).trans hp)
    exact absurd hcalls.symm (List.cons_ne_self _ _)
  · have htrace : (machine isHash code).trace ⟨w, fun _ => none⟩ ls (n + 1) =
        (machine isHash code).follow ((machine isHash code).trace ⟨w, fun _ => none⟩ ls n) l := by
      simp [Machine.trace, List.take_add_one, hl]
    rw [htrace] at hp'
    -- the reading of this step is the time on its label
    have htime : readTime l = some t := by
      obtain hnil | ⟨q₀, hq₀, hsame⟩ | ⟨q₀, c, r, hq₀, hsame, htime⟩ := follow_calls _ l hp'
      · rw [hnil] at hcalls
        cases hcalls
      · obtain rfl := Option.some_inj.mp (hp.symm.trans hq₀)
        exact absurd (hcalls.symm.trans hsame) (List.cons_ne_self _ _)
      · obtain rfl := Option.some_inj.mp (hp.symm.trans hq₀)
        exact htime t (List.cons.inj (hsame.symm.trans hcalls)).1
    -- on the labels the times are in order
    have hsub : ((ls.take (n + 1)).filterMap readTime).Pairwise (· ≤ ·) :=
      htimes.sublist ((List.take_sublist _ _).filterMap _)
    rw [List.take_add_one, hl, Option.toList_some, List.filterMap_append,
      List.pairwise_append] at hsub
    exact hsub.2.2 t' hold t (List.mem_filterMap.mpr ⟨l, List.mem_singleton_self l, htime⟩)

end Clocks

end Lsstack
