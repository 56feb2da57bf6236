/-
The processes of the account side: registrations, logins, password changes,
authenticated requests and the development seed.

A web request brings the claims of its session cookie and runs its use cases in
transactions of their own; forms and templates are reduced to the values they
carry.  The seed repairs the password of its user and adds sample tasks in one
transaction.
-/
import Lsstack.UseCases

namespace Lsstack

open Concurrency

/-! ### Web handlers -/

/-- The answer of a handler; `session` are the claims it stores in the cookie. -/
inductive Page where
  | redirect (path : String) (session : Option SessionClaims)
  | template (status : ℕ) (errors : List String)

/-- `_current_user`; the cookie, once read, holds claims or nothing. -/
def currentUser (cookie : Option SessionClaims) : Tx (Option CurrentUser) :=
  match cookie with
  | none => return none
  | some claims =>
    tryCatch
      (do
        let user ← transactionRunner .visited do
          let session ← revalidateSession claims
          return ⟨session.userId, session.emailNormalized, session.sessionVersion⟩
        return some user)
      fun
      | .invalidSessionError _ => return none
      | error => throw error

/-- `_run_authenticated`: revalidation and the use case in one transaction. -/
def runAuthenticated {α : Type} (cookie : Option SessionClaims)
    (outcome : CurrentUser × α → Outcome) (operation : CurrentUser → Tx α) :
    Tx (Option (CurrentUser × α)) :=
  match cookie with
  | none => return none
  | some claims =>
    tryCatch
      (do
        let result ← transactionRunner outcome do
          let session ← revalidateSession claims
          let user : CurrentUser :=
            ⟨session.userId, session.emailNormalized, session.sessionVersion⟩
          let result ← operation user
          return (user, result)
        return some result)
      fun
      | .invalidSessionError _ => return none
      | error => throw error

section Handlers

variable (uni : Unicode) (lifetime : Duration)

def registerAction (cookie : Option SessionClaims)
    (email password passwordConfirmation : String) : Tx Page := do
  match ← currentUser cookie with
  | some _ => return .redirect "/tasks" none
  | none =>
    if password ≠ passwordConfirmation then
      return .template 422 ["The passwords do not match."]
    else
      let result ← tryCatch
        (do
          let auth ← transactionRunner .registered (register uni (strip email) password)
          return Except.ok auth)
        fun
        | .duplicateEmailError _ =>
          return .error (.template 409 ["An account with this email already exists."])
        | .validationError _ message => return .error (.template 422 [message])
        | error => throw error
      match result with
      | .error page => return page
      | .ok auth =>
        let claims ← issueSession auth lifetime
        return .redirect "/tasks" (some claims)

def loginAction (cookie : Option SessionClaims) (email password : String) : Tx Page := do
  match ← currentUser cookie with
  | some _ => return .redirect "/tasks" none
  | none =>
    let result ← tryCatch
      (do
        let auth ← transactionRunner .authenticated (authenticate uni email password)
        return Except.ok auth)
      fun
      | .invalidCredentialsError _ => return .error (.template 401 ["Invalid email or password."])
      | .validationError _ _ => return .error (.template 401 ["Invalid email or password."])
      | error => throw error
    match result with
    | .error page => return page
    | .ok auth =>
      let claims ← issueSession auth lifetime
      return .redirect "/tasks" (some claims)

/-- What the password form led to: it was refused, `change_password` raised, or
there is a new version. -/
inductive PasswordChange where
  | submitted (errors : List String)
  | message (error : String)
  | version (sessionVersion : ℕ)

/-- What the log records of it. -/
def PasswordChange.outcome : CurrentUser × PasswordChange → Outcome
  | (user, .version sessionVersion) => .passwordChanged user.id sessionVersion
  | (user, _) => .visited user

/-- The use case of `change_password_action`. -/
def changePasswordOperation (currentPassword newPassword newPasswordConfirmation : String)
    (user : CurrentUser) : Tx PasswordChange :=
  if newPassword ≠ newPasswordConfirmation then
    return .submitted ["The new passwords do not match."]
  else
    tryCatch
      (do
        let version ←
          changePassword uni user.id currentPassword newPassword newPasswordConfirmation
        return .version version)
      fun
      | .currentPasswordMismatchError _ => return .message "Current password is incorrect."
      | .validationError _ message => return .message message
      | error => throw error

def changePasswordAction (cookie : Option SessionClaims)
    (currentPassword newPassword newPasswordConfirmation : String) : Tx Page := do
  let authenticated ← runAuthenticated cookie PasswordChange.outcome
    (changePasswordOperation uni currentPassword newPassword newPasswordConfirmation)
  match authenticated with
  | none => return .redirect "/login" none
  | some (_, .submitted errors) => return .template 422 errors
  | some (_, .message error) => return .template 422 [error]
  | some (user, .version sessionVersion) =>
    let claims ← issueSession ⟨user.id, user.email, sessionVersion⟩ lifetime
    return .redirect "/profile?password-changed=1" (some claims)

end Handlers

/-- `profile`: an authenticated request without a use case. -/
def profile (cookie : Option SessionClaims) : Tx Page := do
  match ← runAuthenticated cookie (fun result => .visited result.1) fun _ => pure () with
  | none => return .redirect "/login" none
  | some _ => return .template 200 []

/-! ### The seed -/

/-- `SEED_TASKS`. -/
def seedTasks : List (String × String × Bool) :=
  [("Review the agent workflow", "Explore the Justfile and AGENTS.md.", false),
    ("Inspect observability traces", "Follow a request through the local stack.", false),
    ("Run the fast test suite", "Use `just test-fast` before committing.", true)]

/-- The identity part of `seed_operation`: the user's id, whether it was created
and whether its password was repaired. -/
def seedUser (uni : Unicode) (email password : String) : Tx (ℕ × Bool × Bool) := do
  match ← UserRepository.getByEmailForUpdate (uni.casefold email) with
  | none =>
    let auth ← register uni email password
    return (auth.userId, true, false)
  | some user =>
    match user.id with
    | none => throw (.runtimeError "Seed user unexpectedly has no persisted ID.")
    | some _ =>
      let verification ← call (.verify password user.passwordHash)
      let (user, repaired) ←
        if verification.valid = false then do
          let passwordHash ← call (.hash password)
          let now ← now
          let updated ← UserRepository.updateCredentials (user.withPassword passwordHash now)
          pure (updated, true)
        else
          match verification.replacementHash with
          | none => pure (user, false)
          | some replacementHash => do
            let now ← now
            let updated ←
              UserRepository.updateCredentials (user.withRehashedPassword replacementHash now)
            pure (updated, false)
      match user.id with
      | none => throw (.runtimeError "Seed user unexpectedly lost its persisted ID.")
      | some userId => return (userId, false, repaired)

/-- The loop over the sample tasks; the result is the number of those created. -/
def seedMissing (userId : ℕ) (existingTitles : List String) :
    ℕ → List (String × String × Bool) → Tx ℕ
  | created, [] => return created
  | created, (title, description, completed) :: rest =>
    if title ∈ existingTitles then
      seedMissing userId existingTitles created rest
    else do
      let task ← createTask userId title (some description)
      if completed then
        let _ ← toggleTask userId task.task.id
      seedMissing userId existingTitles (created + 1) rest

def seedOperation (uni : Unicode) (email password : String) : Tx SeedResult := do
  let (userId, userCreated, passwordRepaired) ← seedUser uni email password
  let tasks ← TaskRepository.listOwned userId
  let tasksCreated ← seedMissing userId (tasks.map Task.title) 0 seedTasks
  return ⟨uni.casefold email, userCreated, passwordRepaired, tasksCreated⟩

/-! ### Processes -/

/-- A request to run one credential use case in one transaction, one handler, or
the seed. -/
inductive AccountRequest where
  | register (email password : String)
  | authenticate (email password : String)
  | changePassword (userId : ℕ) (currentPassword newPassword newPasswordConfirmation : String)
  | registerAction (cookie : Option SessionClaims) (email password passwordConfirmation : String)
  | loginAction (cookie : Option SessionClaims) (email password : String)
  | changePasswordAction (cookie : Option SessionClaims)
      (currentPassword newPassword newPasswordConfirmation : String)
  | profile (cookie : Option SessionClaims)
  | seed (email password : String)

/-- The claims it presents. -/
def AccountRequest.cookie : AccountRequest → Option SessionClaims
  | .registerAction cookie _ _ _ => cookie
  | .loginAction cookie _ _ => cookie
  | .changePasswordAction cookie _ _ _ => cookie
  | .profile cookie => cookie
  | _ => none

/-- What a process returns. -/
inductive AccountResponse where
  | outcome (result : Outcome)
  | page (page : Page)

/-- The claims it puts into the cookie. -/
def AccountResponse.session : AccountResponse → Option SessionClaims
  | .page (.redirect _ session) => session
  | _ => none

/-- One use case in one transaction, answering what it commits. -/
def accountTransaction {α : Type} (outcome : α → Outcome) (operation : Tx α) :
    Tx AccountResponse := do
  let result ← transactionRunner outcome operation
  return .outcome (outcome result)

/-- One handler. -/
def answerPage (handler : Tx Page) : Tx AccountResponse := do
  let page ← handler
  return .page page

/-- What a process runs; `lifetime` is the configured length of a session. -/
def AccountRequest.code (uni : Unicode) (lifetime : Duration) : AccountRequest → Tx AccountResponse
  | .register email password =>
    accountTransaction .registered (Lsstack.register uni email password)
  | .authenticate email password =>
    accountTransaction .authenticated (Lsstack.authenticate uni email password)
  | .changePassword userId currentPassword newPassword newPasswordConfirmation =>
    accountTransaction (.passwordChanged userId)
      (Lsstack.changePassword uni userId currentPassword newPassword newPasswordConfirmation)
  | .registerAction cookie email password passwordConfirmation =>
    answerPage (Lsstack.registerAction uni lifetime cookie email password passwordConfirmation)
  | .loginAction cookie email password =>
    answerPage (Lsstack.loginAction uni lifetime cookie email password)
  | .changePasswordAction cookie currentPassword newPassword newPasswordConfirmation =>
    answerPage (Lsstack.changePasswordAction uni lifetime cookie currentPassword newPassword
      newPasswordConfirmation)
  | .profile cookie => answerPage (Lsstack.profile cookie)
  | .seed email password => accountTransaction .seeded (seedOperation uni email password)

/-- Configurations of the account side. -/
abbrev AccountConfig := Config Command Command.Reply Exn AccountRequest AccountResponse Db

/-- A process of the account side. -/
abbrev AccountProcess := Process Command Command.Reply Exn AccountRequest AccountResponse

end Lsstack
