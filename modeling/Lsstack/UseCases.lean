/-
The application layer: registration, login, sessions, profiles, tasks and the
outbox, each over the repositories of one transaction.
-/
import Lsstack.Repositories

namespace Lsstack

/-! ### Registration, login and sessions -/

section Auth

variable (uni : Unicode)

def register (email password : String) : Tx AuthResult := do
  let emailNormalized ← liftExcept (normalizeEmail uni email)
  liftExcept (validatePassword uni password emailNormalized)
  let now ← now
  let passwordHash ← call (.hash password)
  let user ← UserRepository.add uni
    { id := none
      emailNormalized := emailNormalized
      passwordHash := passwordHash
      sessionVersion := 0
      createdAt := now
      updatedAt := now }
  match user.id with
  | none => throw (.runtimeError "The user repository returned an unpersisted user.")
  | some id => return ⟨id, user.emailNormalized, user.sessionVersion⟩

/-- The account is judged under its row lock. -/
def authenticate (email password : String) : Tx AuthResult := do
  match normalizeEmail uni email with
  | .error (.validationError _ _) =>
    call (.verifyUnknown password)
    throw (.invalidCredentialsError "Invalid email or password.")
  | .error error => throw error
  | .ok emailNormalized =>
    match ← UserRepository.getByEmailForUpdate emailNormalized with
    | none =>
      call (.verifyUnknown password)
      throw (.invalidCredentialsError "Invalid email or password.")
    | some user =>
      let verification ← call (.verify password user.passwordHash)
      if verification.valid = false then
        throw (.invalidCredentialsError "Invalid email or password.")
      else
        let user ← match verification.replacementHash with
          | none => pure user
          | some replacementHash => do
            let now ← now
            UserRepository.updateCredentials (user.withRehashedPassword replacementHash now)
        match user.id with
        | none => throw (.runtimeError "The user repository returned an unpersisted user.")
        | some id => return ⟨id, user.emailNormalized, user.sessionVersion⟩

end Auth

/-- The persisted session identity, read without a lock. -/
def getUserSession (userId : ℕ) : Tx (Option UserSession) := do
  match ← UserRepository.getById userId with
  | none => return none
  | some user =>
    match user.id with
    | none => return none
    | some id => return some ⟨id, user.emailNormalized, user.sessionVersion⟩

/-- Absolute, non-sliding session claims. -/
def issueSession (auth : AuthResult) (lifetime : Duration) : Tx SessionClaims := do
  if lifetime ≤ 0 then
    throw (.valueError "Session lifetime must be positive.")
  else
    let issuedAt ← now
    return ⟨auth.userId, auth.sessionVersion, issuedAt, issuedAt + lifetime⟩

/-- Expiry, existence of the user and revocation version, on every request. -/
def revalidateSession (claims : SessionClaims) : Tx UserSession := do
  let time ← now
  if claims.expiresAt ≤ time then
    throw (.invalidSessionError "Session expired.")
  else
    match ← getUserSession claims.userId with
    | none => throw (.invalidSessionError "Session is no longer valid.")
    | some current =>
      if current.sessionVersion ≠ claims.sessionVersion then
        throw (.invalidSessionError "Session is no longer valid.")
      else
        return current

/-- Replace a password and revoke all earlier session versions. -/
def changePassword (uni : Unicode) (userId : ℕ)
    (currentPassword newPassword newPasswordConfirmation : String) : Tx ℕ := do
  match ← UserRepository.getByIdForUpdate userId with
  | none => throw (.invalidSessionError "The authenticated user no longer exists.")
  | some user =>
    let verification ← call (.verify currentPassword user.passwordHash)
    if verification.valid = false then
      throw (.currentPasswordMismatchError "Current password is incorrect.")
    else if newPassword ≠ newPasswordConfirmation then
      throw (.validationError "new_password_confirmation" "Passwords do not match.")
    else
      liftExcept (validatePassword uni newPassword user.emailNormalized)
      let passwordHash ← call (.hash newPassword)
      let now ← now
      let updated ← UserRepository.updateCredentials (user.withPassword passwordHash now)
      return updated.sessionVersion

/-! ### Tasks -/

def taskCreatedTopic : String := "task.created.v1"

/-- `_result`. -/
def taskResult (task : Task) : Except Exn TaskResult :=
  match task.id with
  | none => .error (.runtimeError "The task repository returned an unpersisted task.")
  | some id =>
    .ok
      { id := id
        userId := task.userId
        title := task.title
        description := task.description
        isCompleted := task.isCompleted
        backgroundProcessedAt := task.backgroundProcessedAt
        createdAt := task.createdAt
        updatedAt := task.updatedAt }

def listTasks (userId : ℕ) : Tx (List TaskResult) := do
  let tasks ← TaskRepository.listOwned userId
  liftExcept (tasks.mapM taskResult)

/-- The payload `{"version": 1, "task_id": id}`. -/
def taskCreatedPayload (taskId : ℕ) : JsonValue :=
  .dict [("version", .int 1), ("task_id", .int taskId)]

/-- The task and its message, in the caller's transaction. -/
def createTask (userId : ℕ) (title : String) (description : Option String := none)
    (messageId : Option Uuid := none) : Tx TaskCreatedResult := do
  let now ← now
  let title ← liftExcept (normalizeTitle title)
  let description ← liftExcept (normalizeDescription description)
  let task ← TaskRepository.add
    { id := none
      userId := userId
      title := title
      description := description
      isCompleted := false
      backgroundProcessedAt := none
      createdAt := now
      updatedAt := now }
  let result ← liftExcept (taskResult task)
  let outboxId ← match messageId with
    | some id => pure id
    | none => call .uuid4
  let _ ← OutboxRepository.add
    { id := outboxId
      topic := taskCreatedTopic
      payload := taskCreatedPayload result.id
      createdAt := now }
  return ⟨result, outboxId⟩

def getTask (userId taskId : ℕ) : Tx TaskResult := do
  match ← TaskRepository.getOwned taskId userId with
  | none => throw (.taskNotFoundError "Task not found.")
  | some task => liftExcept (taskResult task)

def updateTask (userId taskId : ℕ) (title : String) (description : Option String) :
    Tx TaskResult := do
  match ← TaskRepository.getOwned taskId userId with
  | none => throw (.taskNotFoundError "Task not found.")
  | some task =>
    let now ← now
    let edited ← liftExcept (task.edited title description now)
    let updated ← TaskRepository.update edited
    liftExcept (taskResult updated)

def toggleTask (userId taskId : ℕ) : Tx TaskResult := do
  match ← TaskRepository.getOwned taskId userId with
  | none => throw (.taskNotFoundError "Task not found.")
  | some task =>
    let now ← now
    let updated ← TaskRepository.update (task.withCompletion (!task.isCompleted) now)
    liftExcept (taskResult updated)

def deleteTask (userId taskId : ℕ) : Tx Unit := do
  let deleted ← TaskRepository.deleteOwned taskId userId
  if deleted = false then
    throw (.taskNotFoundError "Task not found.")
  else
    return ()

/-- The worker's effect; a duplicate becomes a read. -/
def processTaskCreated (taskId : ℕ) : Tx (Option TaskResult) := do
  let now ← now
  match ← TaskRepository.markBackgroundProcessed taskId now with
  | none => return none
  | some task =>
    let result ← liftExcept (taskResult task)
    return some result

/-! ### The outbox -/

def claimMessages (owner : String) (leaseDuration : Duration) (limit : ℕ := 25) :
    Tx (List ClaimedMessage) := do
  if owner = "" then
    throw (.valueError "A lease owner is required.")
  else if leaseDuration ≤ 0 then
    throw (.valueError "Lease duration must be positive.")
  else if limit < 1 ∨ limit > 1000 then
    throw (.valueError "Outbox claim limit must be between 1 and 1000.")
  else
    let now ← now
    let claimed ← OutboxRepository.claimBatch owner now (now + leaseDuration) limit
    return claimed.map fun message =>
      ⟨message.id, message.topic, message.payload, message.attemptCount⟩

def acknowledgeMessage (messageId : Uuid) (owner : String) : Tx Bool := do
  let now ← now
  OutboxRepository.markPublished messageId owner now

/-- The text `fail_message` stores: stripped, cut to 2000 characters, never
empty. -/
def safeError (error : String) : String :=
  let cut := truncate 2000 (strip error)
  if cut = "" then "Queue publication failed." else cut

def failMessage (messageId : Uuid) (owner error : String) : Tx Bool :=
  OutboxRepository.markFailed messageId owner (safeError error)

end Lsstack
