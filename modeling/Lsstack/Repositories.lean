/-
The repositories over one session.

An ORM object is the row its SELECT loaded; assigning attributes and flushing
writes exactly the columns whose assigned value differs from the loaded one
(`TaskModel.flush`, `UserModel.flush`).  Where a flush writes but `updated_at`
was not assigned a new value, the column's `onupdate` default writes
PostgreSQL's `now()`.  An UPDATE that matches no row raises `StaleDataError`.
Core UPDATE and DELETE statements carry their whole WHERE clause.
-/
import Lsstack.Database

namespace Lsstack

/-! ### Flushing an ORM object -/

/-- The value an UPDATE leaves in a column of `row`. -/
def column {α : Type} [DecidableEq α] (loaded assigned row : α) : α :=
  if assigned = loaded then row else assigned

/-- Over the row it was loaded from, an UPDATE leaves the assigned value. -/
@[simp] theorem column_self {α : Type} [DecidableEq α] (loaded assigned : α) :
    column loaded assigned loaded = assigned := by
  unfold column
  split
  · exact Eq.symm ‹_›
  · rfl

/-- The SET clause of a task flush. -/
def TaskModel.merge (loaded assigned row : TaskModel) : TaskModel :=
  { row with
    title := column loaded.title assigned.title row.title
    description := column loaded.description assigned.description row.description
    isCompleted := column loaded.isCompleted assigned.isCompleted row.isCompleted
    backgroundProcessedAt := column loaded.backgroundProcessedAt
      assigned.backgroundProcessedAt row.backgroundProcessedAt
    updatedAt := assigned.updatedAt }

/-- `session.flush()` for a task loaded as `loaded` and now `assigned`. -/
def TaskModel.flush (id : ℕ) (loaded assigned : TaskModel) : Tx TaskModel := do
  if assigned = loaded then
    return assigned
  else
    let stamp ← if assigned.updatedAt = loaded.updatedAt then call .serverNow
      else pure assigned.updatedAt
    let assigned := { assigned with updatedAt := stamp }
    match ← update (.task id) (fun _ => true) (TaskModel.merge loaded assigned) with
    | none => throw .staleDataError
    | some _ => return assigned

/-- The SET clause of a user flush. -/
def UserModel.merge (loaded assigned row : UserModel) : UserModel :=
  { row with
    passwordHash := column loaded.passwordHash assigned.passwordHash row.passwordHash
    sessionVersion := column loaded.sessionVersion assigned.sessionVersion row.sessionVersion
    updatedAt := assigned.updatedAt }

/-- `session.flush()` for a user loaded as `loaded` and now `assigned`. -/
def UserModel.flush (id : ℕ) (loaded assigned : UserModel) : Tx UserModel := do
  if assigned = loaded then
    return assigned
  else
    let stamp ← if assigned.updatedAt = loaded.updatedAt then call .serverNow
      else pure assigned.updatedAt
    let assigned := { assigned with updatedAt := stamp }
    match ← update (.user id) (fun _ => true) (UserModel.merge loaded assigned) with
    | none => throw .staleDataError
    | some _ => return assigned

/-- What a flush returns, by whether a row was matched. -/
def flushed {α β : Type} (assigned : α) : Option β → Tx α
  | none => throw .staleDataError
  | some _ => return assigned

/-- The UPDATE a flush sends at a timestamp. -/
def TaskModel.write (id : ℕ) (loaded assigned : TaskModel) (stamp : Instant) : Tx TaskModel :=
  update (.task id) (fun _ => true)
    (TaskModel.merge loaded { assigned with updatedAt := stamp }) >>=
    flushed { assigned with updatedAt := stamp }

theorem TaskModel.flush_eq (id : ℕ) (loaded assigned : TaskModel) :
    TaskModel.flush id loaded assigned =
      if assigned = loaded then pure assigned
      else if assigned.updatedAt = loaded.updatedAt then
        call .serverNow >>= TaskModel.write id loaded assigned
      else pure assigned.updatedAt >>= TaskModel.write id loaded assigned := by
  unfold TaskModel.flush
  split
  · rfl
  · split
    all_goals
      refine congrArg (Bind.bind _) (funext fun stamp => ?_)
      refine congrArg (Bind.bind _) (funext fun updated => ?_)
      cases updated <;> rfl

/-- The UPDATE a flush sends at a timestamp. -/
def UserModel.write (id : ℕ) (loaded assigned : UserModel) (stamp : Instant) : Tx UserModel :=
  update (.user id) (fun _ => true)
    (UserModel.merge loaded { assigned with updatedAt := stamp }) >>=
    flushed { assigned with updatedAt := stamp }

theorem UserModel.flush_eq (id : ℕ) (loaded assigned : UserModel) :
    UserModel.flush id loaded assigned =
      if assigned = loaded then pure assigned
      else if assigned.updatedAt = loaded.updatedAt then
        call .serverNow >>= UserModel.write id loaded assigned
      else pure assigned.updatedAt >>= UserModel.write id loaded assigned := by
  unfold UserModel.flush
  split
  · rfl
  · split
    all_goals
      refine congrArg (Bind.bind _) (funext fun stamp => ?_)
      refine congrArg (Bind.bind _) (funext fun updated => ?_)
      cases updated <;> rfl

/-! ### Detached values -/

/-- `_user`. -/
def UserModel.detach (id : ℕ) (model : UserModel) : User where
  id := some id
  emailNormalized := model.emailNormalized
  passwordHash := model.passwordHash
  sessionVersion := model.sessionVersion
  createdAt := model.createdAt
  updatedAt := model.updatedAt

/-- `_task`. -/
def TaskModel.detach (id : ℕ) (model : TaskModel) : Task where
  id := some id
  userId := model.userId
  title := model.title
  description := model.description
  isCompleted := model.isCompleted
  backgroundProcessedAt := model.backgroundProcessedAt
  createdAt := model.createdAt
  updatedAt := model.updatedAt

/-- `_outbox`. -/
def OutboxMessageModel.detach (id : Uuid) (model : OutboxMessageModel) : OutboxMessage where
  id := id
  topic := model.topic
  payload := model.payload
  createdAt := model.createdAt
  publishedAt := model.publishedAt
  leaseOwner := model.leaseOwner
  leaseExpiresAt := model.leaseExpiresAt
  attemptCount := model.attemptCount
  lastError := model.lastError

/-! ### Users -/

namespace UserRepository

/-- The driver's message for a second row with the same normalized email. -/
def duplicateEmailMessage : String :=
  "duplicate key value violates unique constraint \"uq_users_email_normalized\""

/-- The INSERT of `add`: a fresh id, the entry of the unique index, the row. -/
def flushNew (user : User) : Tx (ℕ × UserModel) := do
  let id ← nextval .users
  let indexed ← insert (.email user.emailNormalized) id
  if indexed = false then
    throw (.integrityError duplicateEmailMessage)
  else
    let model : UserModel :=
      { emailNormalized := user.emailNormalized
        passwordHash := user.passwordHash
        sessionVersion := user.sessionVersion
        createdAt := user.createdAt
        updatedAt := user.updatedAt }
    let inserted ← insert (.user id) model
    if inserted = false then
      throw (.integrityError "duplicate key value violates unique constraint \"pk_users\"")
    else
      return (id, model)

def add (uni : Unicode) (user : User) : Tx User := do
  let (id, model) ← tryCatch (flushNew user) fun
    | .integrityError orig =>
      if contains "email" (uni.casefold orig) then
        throw (.duplicateEmailError "That email is already registered.")
      else
        throw (.integrityError orig)
    | error => throw error
  return model.detach id

def getById (userId : ℕ) : Tx (Option User) := do
  let model ← select (.user userId) fun _ => true
  return model.map (UserModel.detach userId)

def getByIdForUpdate (userId : ℕ) : Tx (Option User) := do
  let model ← selectForUpdate (.user userId) fun _ => true
  return model.map (UserModel.detach userId)

/-- The row is found through the unique index and locked under its id. -/
def getByEmailForUpdate (emailNormalized : String) : Tx (Option User) := do
  match ← select (.email emailNormalized) fun _ => true with
  | none => return none
  | some userId =>
    let model ← selectForUpdate (.user userId) fun row => row.emailNormalized == emailNormalized
    return model.map (UserModel.detach userId)

def updateCredentials (user : User) : Tx User := do
  match user.id with
  | none => throw (.valueError "Cannot update an unpersisted user.")
  | some userId =>
    match ← select (.user userId) fun _ => true with
    | none => throw (.valueError "Cannot update a missing user.")
    | some loaded =>
      let model ← UserModel.flush userId loaded
        { loaded with
          passwordHash := user.passwordHash
          sessionVersion := user.sessionVersion
          updatedAt := user.updatedAt }
      return model.detach userId

end UserRepository

/-! ### Tasks -/

namespace TaskRepository

/-- Where the check of the foreign key finds no user, the statement shows a fault of the database;
users are never deleted, so that this is an id never given to one. -/
def add (task : Task) : Tx Task := do
  let id ← nextval .tasks
  let model : TaskModel :=
    { userId := task.userId
      title := task.title
      description := task.description
      isCompleted := task.isCompleted
      backgroundProcessedAt := task.backgroundProcessedAt
      createdAt := task.createdAt
      updatedAt := task.updatedAt }
  let inserted ← insert (.task id) model
  if inserted = false then
    throw (.integrityError "duplicate key value violates unique constraint \"pk_tasks\"")
  else
    return model.detach id

/-- `_owned_query`, run. -/
def ownedQuery (taskId userId : ℕ) : Tx (Option TaskModel) :=
  select (.task taskId) fun row => row.userId == userId

def getOwned (taskId userId : ℕ) : Tx (Option Task) := do
  let model ← ownedQuery taskId userId
  return model.map (TaskModel.detach taskId)

/-- The tasks among the rows of a scan. -/
def tasks (rows : List ((k : Key) × Row k)) : List Task :=
  rows.filterMap fun
    | ⟨.task id, row⟩ => some (row.detach id)
    | _ => none

/-- `WHERE user_id = user_id` over the whole table. -/
def ownedBy (userId : ℕ) : (k : Key) × Row k → Bool
  | ⟨.task _, row⟩ => row.userId == userId
  | _ => false

/-- `ORDER BY created_at DESC, id DESC`. -/
def newestFirst : (k : Key) × Row k → (k : Key) × Row k → Bool
  | ⟨.task a, rowA⟩, ⟨.task b, rowB⟩ =>
    decide (rowB.createdAt < rowA.createdAt ∨ rowB.createdAt = rowA.createdAt ∧ b ≤ a)
  | _, _ => false

def listOwned (userId : ℕ) : Tx (List Task) := do
  let rows ← scan (ownedBy userId) newestFirst
  return tasks rows

def update (task : Task) : Tx Task := do
  match task.id with
  | none => throw (.valueError "Cannot update an unpersisted task.")
  | some taskId =>
    match ← ownedQuery taskId task.userId with
    | none => throw (.valueError "Cannot update a missing or unowned task.")
    | some loaded =>
      let model ← TaskModel.flush taskId loaded
        { loaded with
          title := task.title
          description := task.description
          isCompleted := task.isCompleted
          backgroundProcessedAt := task.backgroundProcessedAt
          updatedAt := task.updatedAt }
      return model.detach taskId

def deleteOwned (taskId userId : ℕ) : Tx Bool := do
  let deleted ← delete (.task taskId) fun row => row.userId == userId
  return deleted.isSome

def markBackgroundProcessed (taskId : ℕ) (processedAt : Instant) : Tx (Option Task) := do
  let _ ← Lsstack.update (.task taskId) (fun row => row.backgroundProcessedAt.isNone)
    fun row => { row with backgroundProcessedAt := some processedAt, updatedAt := processedAt }
  let model ← select (.task taskId) fun _ => true
  return model.map (TaskModel.detach taskId)

end TaskRepository

/-! ### Outbox -/

namespace OutboxRepository

def add (message : OutboxMessage) : Tx OutboxMessage := do
  let model : OutboxMessageModel :=
    { topic := message.topic
      payload := message.payload
      createdAt := message.createdAt
      publishedAt := message.publishedAt
      leaseOwner := message.leaseOwner
      leaseExpiresAt := message.leaseExpiresAt
      attemptCount := message.attemptCount
      lastError := message.lastError }
  let inserted ← insert (.message message.id) model
  if inserted = false then
    throw (.integrityError "duplicate key value violates unique constraint \"pk_outbox_messages\"")
  else
    return model.detach message.id

/-- The WHERE clause of `claim_batch`. -/
def eligible (now : Instant) (row : OutboxMessageModel) : Bool :=
  row.publishedAt.isNone &&
    match row.leaseExpiresAt with
    | none => true
    | some expiresAt => decide (expiresAt ≤ now)

/-- `ORDER BY created_at ASC, id ASC`. -/
def oldestFirst : (k : Key) × Row k → (k : Key) × Row k → Bool
  | ⟨.message a, rowA⟩, ⟨.message b, rowB⟩ =>
    decide (rowA.createdAt < rowB.createdAt ∨ rowA.createdAt = rowB.createdAt ∧ a.toNat ≤ b.toNat)
  | _, _ => false

/-- The ids among the rows of a scan. -/
def ids (rows : List ((k : Key) × Row k)) : List Uuid :=
  rows.filterMap fun
    | ⟨.message id, _⟩ => some id
    | _ => none

/-- `LIMIT limit FOR UPDATE SKIP LOCKED`: the candidates of the snapshot are
locked one after another, each re-checked on its latest committed row. -/
def lockRows (now : Instant) : ℕ → List Uuid → Tx (List (Uuid × OutboxMessageModel))
  | 0, _ => return []
  | _, [] => return []
  | limit + 1, id :: rest => do
    match ← selectForUpdateSkipLocked (.message id) (eligible now) with
    | none => lockRows now (limit + 1) rest
    | some model =>
      let models ← lockRows now limit rest
      return (id, model) :: models

/-- The SET clause of a claimed model's flush: the count is the loaded one plus
one. -/
def lease (owner : String) (leaseExpiresAt : Instant) (model row : OutboxMessageModel) :
    OutboxMessageModel :=
  { row with
    leaseOwner := some owner
    leaseExpiresAt := some leaseExpiresAt
    attemptCount := model.attemptCount + 1
    lastError := none }

/-- The flush of the claimed models, one UPDATE for each. -/
def flushLeases (owner : String) (leaseExpiresAt : Instant) :
    List (Uuid × OutboxMessageModel) → Tx (List OutboxMessage)
  | [] => return []
  | (id, model) :: rest => do
    match ← Lsstack.update (.message id) (fun _ => true) (lease owner leaseExpiresAt model) with
    | none => throw .staleDataError
    | some _ =>
      let messages ← flushLeases owner leaseExpiresAt rest
      return (lease owner leaseExpiresAt model model).detach id :: messages

/-- The WHERE clause of the snapshot. -/
def candidate (now : Instant) : (k : Key) × Row k → Bool
  | ⟨.message _, row⟩ => eligible now row
  | _ => false

def claimBatch (owner : String) (now leaseExpiresAt : Instant) (limit : ℕ) :
    Tx (List OutboxMessage) := do
  let rows ← scan (candidate now) oldestFirst
  let models ← lockRows now limit (ids rows)
  flushLeases owner leaseExpiresAt models

/-- The WHERE clause of `mark_published` and `mark_failed` beside the id. -/
def ownedUnpublished (owner : String) (row : OutboxMessageModel) : Bool :=
  row.leaseOwner == some owner && row.publishedAt.isNone

def markPublished (messageId : Uuid) (owner : String) (publishedAt : Instant) : Tx Bool := do
  let published ← Lsstack.update (.message messageId) (ownedUnpublished owner) fun row =>
    { row with
      publishedAt := some publishedAt
      leaseOwner := none
      leaseExpiresAt := none
      lastError := none }
  return published.isSome

def markFailed (messageId : Uuid) (owner error : String) : Tx Bool := do
  let failed ← Lsstack.update (.message messageId) (ownedUnpublished owner) fun row =>
    { row with lastError := some error }
  return failed.isSome

end OutboxRepository

end Lsstack
