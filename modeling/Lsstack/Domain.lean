/-
The domain layer: users, tasks, outbox messages and their errors.
-/
import Lsstack.Text

namespace Lsstack

/-! ### Errors -/

/-- The exceptions the application raises or meets.  The first six are its
domain errors; `integrityError` carries the driver's message. -/
inductive Exn where
  | validationError (field message : String)
  | duplicateEmailError (message : String)
  | invalidCredentialsError (message : String)
  | invalidSessionError (message : String)
  | currentPasswordMismatchError (message : String)
  | taskNotFoundError (message : String)
  | valueError (message : String)
  | typeError (message : String)
  | runtimeError (message : String)
  | integrityError (orig : String)
  | staleDataError
  | databaseError (message : String)
  | queueError (message : String)
  | cancelledError
  deriving DecidableEq

/-! ### Users -/

def maxEmailLength : ℕ := 320
def minPasswordLength : ℕ := 12
def maxPasswordLength : ℕ := 128

/-- The single canonical login representation of an email. -/
def normalizeEmail (uni : Unicode) (value : String) : Except Exn String :=
  let normalized := uni.casefold (strip (uni.nfkc value))
  if normalized.length = 0 ∨ normalized.length > maxEmailLength ∨
      normalized.toList.count '@' ≠ 1 ∨ normalized.toList.any isSpace then
    .error (.validationError "email" "Enter a valid email address.")
  else
    let localPart := normalized.toList.takeWhile (· != '@')
    let domain := (normalized.toList.dropWhile (· != '@')).tail
    if localPart = [] ∨ domain = [] ∨ '.' ∉ domain then
      .error (.validationError "email" "Enter a valid email address.")
    else
      .ok normalized

/-- Intentionally small, Unicode-aware password rules. -/
def validatePassword (uni : Unicode) (password emailNormalized : String) : Except Exn Unit :=
  if password.length < minPasswordLength ∨ password.length > maxPasswordLength then
    .error (.validationError "password"
      s!"Password must be {minPasswordLength}-{maxPasswordLength} characters.")
  else if password ≠ strip password then
    .error (.validationError "password" "Password must not start or end with whitespace.")
  else if contains emailNormalized (uni.casefold (uni.nfkc password)) then
    .error (.validationError "password" "Password must not contain your email address.")
  else
    .ok ()

/-- Detached immutable user state. -/
structure User where
  id : Option ℕ
  emailNormalized : String
  passwordHash : String
  sessionVersion : ℕ
  createdAt : Instant
  updatedAt : Instant
  deriving DecidableEq

/-- Replace the password and revoke all sessions. -/
def User.withPassword (user : User) (passwordHash : String) (changedAt : Instant) : User :=
  { user with
    passwordHash := passwordHash
    sessionVersion := user.sessionVersion + 1
    updatedAt := changedAt }

/-- Replace the hash of the same password. -/
def User.withRehashedPassword (user : User) (passwordHash : String) (changedAt : Instant) :
    User :=
  { user with passwordHash := passwordHash, updatedAt := changedAt }

/-! ### Tasks -/

def maxTaskTitleLength : ℕ := 200
def maxTaskDescriptionLength : ℕ := 5000

def normalizeTitle (value : String) : Except Exn String :=
  let title := strip value
  if title.length = 0 then
    .error (.validationError "title" "A task title is required.")
  else if title.length > maxTaskTitleLength then
    .error (.validationError "title"
      s!"Task titles may not exceed {maxTaskTitleLength} characters.")
  else
    .ok title

def normalizeDescription : Option String → Except Exn (Option String)
  | none => .ok none
  | some value =>
    let description := strip value
    if description.length > maxTaskDescriptionLength then
      .error (.validationError "description"
        s!"Task descriptions may not exceed {maxTaskDescriptionLength} characters.")
    else if description.length = 0 then
      .ok none
    else
      .ok (some description)

/-- Detached immutable task state. -/
structure Task where
  id : Option ℕ
  userId : ℕ
  title : String
  description : Option String
  isCompleted : Bool
  backgroundProcessedAt : Option Instant
  createdAt : Instant
  updatedAt : Instant
  deriving DecidableEq

def Task.edited (task : Task) (title : String) (description : Option String)
    (changedAt : Instant) : Except Exn Task := do
  let title ← normalizeTitle title
  let description ← normalizeDescription description
  return { task with title := title, description := description, updatedAt := changedAt }

def Task.withCompletion (task : Task) (completed : Bool) (changedAt : Instant) : Task :=
  { task with isCompleted := completed, updatedAt := changedAt }

/-! ### Outbox messages -/

/-- A JSON value as Python's `json` module represents it.  A finite `float` is
given by its exact value. -/
inductive JsonValue where
  | null
  | bool (b : Bool)
  | int (n : ℤ)
  | float (x : ℚ)
  | str (s : String)
  | list (items : List JsonValue)
  | dict (items : List (String × JsonValue))

/-- A durable message and its publication lease state. -/
structure OutboxMessage where
  id : Uuid
  topic : String
  payload : JsonValue
  createdAt : Instant
  publishedAt : Option Instant := none
  leaseOwner : Option String := none
  leaseExpiresAt : Option Instant := none
  attemptCount : ℕ := 0
  lastError : Option String := none

namespace OutboxMessage

def leased (message : OutboxMessage) (owner : String) (expiresAt _attemptedAt : Instant) :
    OutboxMessage :=
  { message with
    leaseOwner := some owner
    leaseExpiresAt := some expiresAt
    attemptCount := message.attemptCount + 1
    lastError := none }

def published (message : OutboxMessage) (publishedAt : Instant) : OutboxMessage :=
  { message with
    publishedAt := some publishedAt
    leaseOwner := none
    leaseExpiresAt := none
    lastError := none }

/-- The lease is kept, so that a hot failure cannot be reclaimed at once. -/
def failed (message : OutboxMessage) (error : String) : OutboxMessage :=
  { message with lastError := some error }

end OutboxMessage

/-! ### What the checks accept -/

/-- An email is refused with a validation error only. -/
theorem normalizeEmail_error {uni : Unicode} {value : String} {e : Exn}
    (h : normalizeEmail uni value = .error e) :
    ∃ field message, e = .validationError field message := by
  simp only [normalizeEmail] at h
  split at h
  · cases h
    exact ⟨_, _, rfl⟩
  · split at h <;> cases h
    exact ⟨_, _, rfl⟩

theorem normalizeTitle_ok {value title : String} (h : normalizeTitle value = .ok title) :
    title = strip value ∧ 0 < title.length ∧ title.length ≤ maxTaskTitleLength := by
  simp only [normalizeTitle] at h
  split at h
  · cases h
  · split at h <;> cases h
    exact ⟨rfl, by omega, by omega⟩

theorem normalizeDescription_ok {value : Option String} {description : String}
    (h : normalizeDescription value = .ok (some description)) :
    0 < description.length ∧ description.length ≤ maxTaskDescriptionLength := by
  rcases value with _ | value
  · cases h
  · simp only [normalizeDescription] at h
    split at h
    · cases h
    · split at h <;> cases h
      exact ⟨by omega, by omega⟩

/-- An edit changes the two texts and the time stamp only. -/
theorem Task.edited_ok {task task' : Task} {title : String} {description : Option String}
    {changedAt : Instant} (h : task.edited title description changedAt = .ok task') :
    ∃ t d, normalizeTitle title = .ok t ∧ normalizeDescription description = .ok d ∧
      task' = { task with title := t, description := d, updatedAt := changedAt } := by
  unfold Task.edited at h
  rcases ht : normalizeTitle title with e | t
  · rw [ht] at h
    cases h
  · rcases hd : normalizeDescription description with e | d
    · rw [ht, hd] at h
      cases h
    · rw [ht, hd] at h
      cases h
      exact ⟨t, d, rfl, rfl, rfl⟩

end Lsstack
