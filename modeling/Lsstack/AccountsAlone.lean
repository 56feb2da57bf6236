/-
The account side of the application, seen alone.

Visits, task pages, tasks and the outbox read the users at most: they write tasks and messages.
So a run of everything that the application serves, seen from the account side, is a run of the
account requests alone, and what is proved of those holds amid the others.

A new task also shares the row of its user, by the check of its foreign key.  The store leaves this
out, which only gives it more runs; so a run of the database is one of the store here, whose locks
on users are those of the account side, and it is what is committed that the two have in common.

* `accountSide` — the users, the index of their emails and the requests that write them;
* `account_*` and `rest_*` — on which side the programs keep;
* `ServedRun.accounts_view` — the account side of a run, in the store, is a run of its own;
* **`ServedRun.accounts_alone`** — with it the run has in common what is committed.
-/
import Lsstack.Served
import Lsstack.Projection
import Lsstack.WorkerMarks

namespace Lsstack

open Concurrency

/-! ### The sides -/

/-- Rows of the account side. -/
def Key.account : Key → Bool
  | .user _ => true
  | .email _ => true
  | .task _ => false
  | .message _ => false

def Sequence.account : Sequence → Bool
  | .users => true
  | .tasks => false

def ServedRequest.toAccount : ServedRequest → Option AccountRequest
  | .account request => some request
  | _ => none

/-- The response of the account side; others have none, and are shown the door. -/
def ServedResponse.toAccount : ServedResponse → AccountResponse
  | .account response => response
  | _ => .page (.redirect "/login" none)

/-- The account side; it does not see the queue. -/
def accountSide : Part Key Sequence Queue ServedRequest ServedResponse AccountRequest
    AccountResponse where
  key := Key.account
  seq := Sequence.account
  elsewhere := fun _ => 0
  env := fun _ => ⟨[], []⟩
  request := ServedRequest.toAccount
  answer := ServedResponse.toAccount

/-- A statement of the account side. -/
abbrev AccountCommand (isHash : String → String → Bool) : Command → Prop :=
  accountSide.Mine (outside isHash)

/-- A statement of the rest. -/
abbrev RestCommand (isHash : String → String → Bool) : Command → Prop :=
  accountSide.Other (outside isHash)

variable {isHash : String → String → Bool}

/-- Only enqueued jobs get to the queue. -/
def Outside.enqueues : Outside → Bool
  | .enqueue _ => true
  | _ => false

theorem outside_quiet {queue queue' seen : Queue} {x : Outside} {d : Decision}
    {r : Except Exn x.Reply} (hx : x.enqueues = false)
    (h : outside isHash queue x d = some (r, queue')) :
    outside isHash seen x d = some (r, seen) := by
  -- what is answered does not depend on the queue
  cases x with
  | enqueue call => cases hx
  | hash password =>
    cases d
    case hashed h' =>
      simp only [outside] at h ⊢
      split at h
      · rename_i hhash
        cases h
        rw [if_pos hhash]
      · cases h
    all_goals cases h
  | verify password passwordHash =>
    cases d
    case upgrade replacement =>
      simp only [outside] at h ⊢
      split at h
      · rename_i hvalid
        rw [if_pos hvalid]
        rcases replacement with _ | h'
        · cases h
          rfl
        · dsimp only at h ⊢
          split at h
          · rename_i hhash
            cases h
            rw [if_pos hhash]
          · cases h
      · rename_i hvalid
        rw [if_neg hvalid]
        cases h
        rfl
    all_goals cases h
  | _ =>
    cases d
    all_goals cases h
    rfl

/-- What the account side asks for outside. -/
theorem accountCommand_ext {x : Outside} (hx : x.enqueues = false) :
    AccountCommand isHash (.ext x) := fun _ _ _ _ h => outside_quiet hx h

theorem restCommand_ext (x : Outside) : RestCommand isHash (.ext x) := fun _ _ _ _ _ => rfl

/-! ### Sessions

Both sides look at the session. -/

/-- Statements among which a session may be looked at. -/
structure Visits (kind : Command → Prop) : Prop where
  user : ∀ id p, kind (.select (.user id) p)
  now : kind (.ext .now)
  commit : ∀ out, kind (.commit out)
  rollback : kind .rollback

theorem visits_account : Visits (AccountCommand isHash) :=
  ⟨fun _ _ => rfl, accountCommand_ext rfl, fun _ => trivial, trivial⟩

theorem visits_rest : Visits (RestCommand isHash) :=
  ⟨fun _ _ => trivial, restCommand_ext _, fun _ => trivial, trivial⟩

namespace Visits

variable {kind : Command → Prop} (h : Visits kind) {cookie : Option SessionClaims}
  {lifetime : Duration}
include h

theorem transactionRunner {α : Type} {outcome : α → Outcome} {operation : Tx α}
    (hoperation : operation.Issues kind) : (transactionRunner outcome operation).Issues kind :=
  issues_transactionRunner hoperation h.commit h.rollback

theorem revalidateSession (claims : SessionClaims) : (revalidateSession claims).Issues kind := by
  refine Program.Issues.bind (.perform h.now) fun time => ?_
  split
  · exact .raise _
  · refine Program.Issues.bind (Program.Issues.bind (Program.Issues.bind
      (.perform (h.user _ _)) fun _ => .ret _) fun user => ?_) fun current => ?_
    · cases user with
      | none => exact .ret _
      | some user =>
        dsimp only
        split
        · exact .ret _
        · exact .ret _
    · cases current with
      | none => exact .raise _
      | some current =>
        dsimp only
        split
        · exact .raise _
        · exact .ret _

theorem currentUser : (currentUser cookie).Issues kind := by
  cases cookie with
  | none => exact .ret _
  | some claims =>
    refine Program.Issues.handle (Program.Issues.bind (h.transactionRunner ?_) fun _ => .ret _)
      fun e => ?_
    · exact Program.Issues.bind (h.revalidateSession claims) fun _ => .ret _
    · cases e with
      | invalidSessionError => exact .ret _
      | _ => exact .raise _

theorem runAuthenticated {α : Type} {outcome : CurrentUser × α → Outcome}
    {operation : CurrentUser → Tx α} (hoperation : ∀ user, (operation user).Issues kind) :
    (runAuthenticated cookie outcome operation).Issues kind := by
  cases cookie with
  | none => exact .ret _
  | some claims =>
    refine Program.Issues.handle (Program.Issues.bind (h.transactionRunner ?_) fun _ => .ret _)
      fun e => ?_
    · exact Program.Issues.bind (h.revalidateSession claims) fun session =>
        Program.Issues.bind (hoperation _) fun _ => .ret _
    · cases e with
      | invalidSessionError => exact .ret _
      | _ => exact .raise _

theorem issueSession (auth : AuthResult) : (issueSession auth lifetime).Issues kind := by
  rw [Lsstack.issueSession]
  split
  · exact .raise _
  · exact Program.Issues.bind (.perform h.now) fun _ => .ret _

theorem visit (route : VisitRoute) : (route.handler cookie).Issues kind := by
  have hform : ∀ {page : Option CurrentUser → Tx Page}, (∀ user, (page user).Issues kind) →
      ((Lsstack.currentUser cookie).bind page).Issues kind := fun hpage => h.currentUser.bind hpage
  cases route with
  | root =>
    refine hform fun user => ?_
    cases user with
    | none => exact .ret _
    | some user => exact .ret _
  | registerForm =>
    refine hform fun user => ?_
    cases user with
    | none => exact .ret _
    | some user => exact .ret _
  | loginForm =>
    refine hform fun user => ?_
    cases user with
    | none => exact .ret _
    | some user => exact .ret _
  | logout => exact Program.Issues.bind (h.runAuthenticated fun _ => .ret _) fun _ => .ret _

end Visits

/-! ### Account requests -/

section Accounts

variable {uni : Unicode} {lifetime : Duration} {cookie : Option SessionClaims}
  {email password confirmation : String}

theorem account_updateCredentials (user : User) :
    (UserRepository.updateCredentials user).Issues (AccountCommand isHash) := by
  unfold UserRepository.updateCredentials
  split
  · exact .raise _
  · refine Program.Issues.bind (.perform rfl) fun loaded => ?_
    rcases loaded with _ | loaded
    · exact .raise _
    · refine Program.Issues.bind ?_ fun _ => .ret _
      have hwrite : ∀ id (assigned : UserModel) stamp,
          (UserModel.write id loaded assigned stamp).Issues (AccountCommand isHash) := by
        intro id assigned stamp
        refine Program.Issues.bind (.perform rfl) fun updated => ?_
        cases updated with
        | none => exact .raise _
        | some row => exact .ret _
      rw [UserModel.flush_eq]
      split
      · exact .ret _
      · split
        · refine Program.Issues.bind (.perform ?_) fun stamp => hwrite _ _ stamp
          exact accountCommand_ext rfl
        · exact hwrite _ _ _

theorem account_add (user : User) :
    (UserRepository.add uni user).Issues (AccountCommand isHash) := by
  refine Program.Issues.bind (Program.Issues.handle ?_ fun e => ?_) fun _ => .ret _
  · refine Program.Issues.bind (.perform rfl) fun id => ?_
    refine Program.Issues.bind (.perform rfl) fun indexed => ?_
    cases indexed with
    | false => exact .raise _
    | true =>
      refine Program.Issues.bind (.perform rfl) fun inserted => ?_
      cases inserted with
      | false => exact .raise _
      | true => exact .ret _
  · cases e with
    | integrityError orig =>
      dsimp only
      split
      · exact .raise _
      · exact .raise _
    | _ => exact .raise _

theorem account_register : (register uni email password).Issues (AccountCommand isHash) := by
  refine Program.Issues.bind (issues_liftExcept _) fun address => ?_
  refine Program.Issues.bind (issues_liftExcept _) fun _ => ?_
  refine Program.Issues.bind (.perform (accountCommand_ext rfl)) fun time => ?_
  refine Program.Issues.bind (.perform (accountCommand_ext rfl)) fun hash => ?_
  refine Program.Issues.bind (account_add _) fun user => ?_
  split
  · exact .raise _
  · exact .ret _

theorem account_authenticate :
    (authenticate uni email password).Issues (AccountCommand isHash) := by
  -- an unknown email costs a verification
  have hrefused : ∀ message : String, ((call (.verifyUnknown password)).bind fun _ =>
      (.raise (.invalidCredentialsError message) : Tx AuthResult)).Issues (AccountCommand isHash) :=
    fun _ => Program.Issues.bind (.perform (accountCommand_ext rfl)) fun _ =>
      .raise _
  unfold authenticate
  split
  · exact hrefused _
  · exact .raise _
  refine Program.Issues.bind ?_ fun user => ?_
  · refine Program.Issues.bind (.perform rfl) fun userId => ?_
    cases userId with
    | none => exact .ret _
    | some userId => exact Program.Issues.bind (.perform rfl) fun _ => .ret _
  cases user with
  | none => exact hrefused _
  | some user =>
    refine Program.Issues.bind (.perform (accountCommand_ext rfl))
      fun verification => ?_
    split
    · exact .raise _
    cases verification.replacementHash with
    | none =>
      refine Program.Issues.bind (.ret _) fun user => ?_
      dsimp only
      split
      · exact .raise _
      · exact .ret _
    | some replacementHash =>
      refine Program.Issues.bind (.perform (accountCommand_ext rfl))
        fun time => ?_
      refine Program.Issues.bind (account_updateCredentials _) fun user => ?_
      dsimp only
      split
      · exact .raise _
      · exact .ret _

theorem account_changePassword {userId : ℕ} {new : String} :
    (changePassword uni userId password new confirmation).Issues (AccountCommand isHash) := by
  refine Program.Issues.bind ?_ fun user => ?_
  · exact Program.Issues.bind (.perform rfl) fun _ => .ret _
  cases user with
  | none => exact .raise _
  | some user =>
    refine Program.Issues.bind (.perform (accountCommand_ext rfl))
      fun verification => ?_
    split
    · exact .raise _
    split
    · exact .raise _
    refine Program.Issues.bind (issues_liftExcept _) fun _ => ?_
    refine Program.Issues.bind (.perform (accountCommand_ext rfl)) fun hash => ?_
    refine Program.Issues.bind (.perform (accountCommand_ext rfl)) fun time => ?_
    exact Program.Issues.bind (account_updateCredentials _) fun _ => .ret _

theorem account_registerAction :
    (registerAction uni lifetime cookie email password confirmation).Issues
      (AccountCommand isHash) := by
  refine Program.Issues.bind visits_account.currentUser fun user => ?_
  cases user with
  | some user => exact .ret _
  | none =>
    dsimp only
    split
    · exact .ret _
    · refine Program.Issues.bind (Program.Issues.handle (Program.Issues.bind
        (visits_account.transactionRunner account_register) fun _ => .ret _) fun e => ?_)
        fun result => ?_
      · cases e with
        | duplicateEmailError => exact .ret _
        | validationError => exact .ret _
        | _ => exact .raise _
      · cases result with
        | error page => exact .ret _
        | ok auth => exact Program.Issues.bind (visits_account.issueSession auth) fun _ => .ret _

theorem account_loginAction :
    (loginAction uni lifetime cookie email password).Issues (AccountCommand isHash) := by
  refine Program.Issues.bind visits_account.currentUser fun user => ?_
  cases user with
  | some user => exact .ret _
  | none =>
    refine Program.Issues.bind (Program.Issues.handle (Program.Issues.bind
      (visits_account.transactionRunner account_authenticate) fun _ => .ret _) fun e => ?_)
      fun result => ?_
    · cases e with
      | invalidCredentialsError => exact .ret _
      | validationError => exact .ret _
      | _ => exact .raise _
    · cases result with
      | error page => exact .ret _
      | ok auth => exact Program.Issues.bind (visits_account.issueSession auth) fun _ => .ret _

theorem account_changePasswordAction {new : String} :
    (changePasswordAction uni lifetime cookie password new confirmation).Issues
      (AccountCommand isHash) := by
  refine Program.Issues.bind (visits_account.runAuthenticated fun user => ?_) fun found => ?_
  · rw [changePasswordOperation]
    split
    · exact .ret _
    · refine Program.Issues.handle (Program.Issues.bind account_changePassword fun _ => .ret _)
        fun e => ?_
      cases e with
      | currentPasswordMismatchError => exact .ret _
      | validationError => exact .ret _
      | _ => exact .raise _
  · rcases found with _ | ⟨user, errors | error | version⟩
    · exact .ret _
    · exact .ret _
    · exact .ret _
    · exact Program.Issues.bind (visits_account.issueSession _) fun _ => .ret _

theorem account_request {request : AccountRequest}
    (h : (ServedRequest.account request).served = true) :
    (request.code uni lifetime).Issues (AccountCommand isHash) := by
  have htransaction : ∀ {α : Type} {outcome : α → Outcome} {p : Tx α},
      p.Issues (AccountCommand isHash) →
      (accountTransaction outcome p).Issues (AccountCommand isHash) :=
    fun hp => Program.Issues.bind (visits_account.transactionRunner hp) fun _ => .ret _
  have hpage : ∀ {p : Tx Page}, p.Issues (AccountCommand isHash) →
      (answerPage p).Issues (AccountCommand isHash) :=
    fun hp => Program.Issues.bind hp fun _ => .ret _
  cases request with
  | register => exact htransaction account_register
  | authenticate => exact htransaction account_authenticate
  | changePassword => exact htransaction account_changePassword
  | registerAction => exact hpage account_registerAction
  | loginAction => exact hpage account_loginAction
  | changePasswordAction => exact hpage account_changePasswordAction
  | profile =>
    refine hpage (Program.Issues.bind (visits_account.runAuthenticated fun _ => .ret _)
      fun found => ?_)
    cases found with
    | none => exact .ret _
    | some found => exact .ret _
  | seed => cases h

end Accounts

/-! ### Tasks and the outbox -/

section Tasks

variable {userId taskId : ℕ} {title : String} {description : Option String}

theorem rest_createTask {messageId : Option Uuid} :
    (createTask userId title description messageId).Issues (RestCommand isHash) := by
  rw [createTask]
  refine Program.Issues.bind (.perform (restCommand_ext _)) fun time => ?_
  generalize normalizeTitle title = title
  refine Program.Issues.bind (issues_liftExcept _) fun title => ?_
  generalize normalizeDescription description = description
  refine Program.Issues.bind (issues_liftExcept _) fun description => ?_
  refine Program.Issues.bind ?_ fun task => ?_
  · refine Program.Issues.bind (.perform rfl) fun id => ?_
    refine Program.Issues.bind (.perform rfl) fun inserted => ?_
    cases inserted with
    | false => exact .raise _
    | true => exact .ret _
  refine Program.Issues.bind (issues_liftExcept _) fun result => ?_
  have hadd : ∀ message : OutboxMessage, ((OutboxRepository.add message).bind fun _ =>
      (.ret ⟨result, message.id⟩ : Tx TaskCreatedResult)).Issues (RestCommand isHash) := by
    intro message
    refine Program.Issues.bind (Program.Issues.bind (.perform rfl) fun inserted => ?_) fun _ =>
      .ret _
    cases inserted with
    | false => exact .raise _
    | true => exact .ret _
  cases messageId with
  | some id => exact hadd _
  | none => exact Program.Issues.bind (.perform (restCommand_ext _)) fun id => hadd _

theorem rest_getOwned :
    (TaskRepository.getOwned taskId userId).Issues (RestCommand isHash) :=
  Program.Issues.bind (.perform trivial) fun _ => .ret _

theorem rest_getTask : (getTask userId taskId).Issues (RestCommand isHash) := by
  refine Program.Issues.bind rest_getOwned fun found => ?_
  cases found with
  | none => exact .raise _
  | some task => exact issues_liftExcept _

theorem rest_listTasks : (listTasks userId).Issues (RestCommand isHash) :=
  Program.Issues.bind (Program.Issues.bind (.perform trivial) fun _ => .ret _) fun _ =>
    issues_liftExcept _

theorem rest_update (task : Task) : (TaskRepository.update task).Issues (RestCommand isHash) := by
  rw [TaskRepository.update]
  rcases task.id with _ | id
  · exact .raise _
  refine Program.Issues.bind (.perform trivial) fun found => ?_
  cases found with
  | none => exact .raise _
  | some loaded =>
    have hwrite : ∀ (assigned : TaskModel) stamp,
        (TaskModel.write id loaded assigned stamp).Issues (RestCommand isHash) := by
      intro assigned stamp
      refine Program.Issues.bind (.perform rfl) fun updated => ?_
      cases updated with
      | none => exact .raise _
      | some row => exact .ret _
    refine Program.Issues.bind ?_ fun model => .ret _
    rw [TaskModel.flush_eq]
    split
    · exact .ret _
    · split
      · exact Program.Issues.bind (.perform (restCommand_ext _)) fun stamp => hwrite _ stamp
      · exact hwrite _ _

theorem rest_updateTask :
    (updateTask userId taskId title description).Issues (RestCommand isHash) := by
  refine Program.Issues.bind rest_getOwned fun found => ?_
  cases found with
  | none => exact .raise _
  | some task =>
    refine Program.Issues.bind (.perform (restCommand_ext _)) fun time => ?_
    generalize task.edited title description time = edited
    refine Program.Issues.bind (issues_liftExcept _) fun edited => ?_
    exact Program.Issues.bind (rest_update _) fun updated => issues_liftExcept _

theorem rest_toggleTask : (toggleTask userId taskId).Issues (RestCommand isHash) := by
  refine Program.Issues.bind rest_getOwned fun found => ?_
  cases found with
  | none => exact .raise _
  | some task =>
    refine Program.Issues.bind (.perform (restCommand_ext _)) fun time => ?_
    exact Program.Issues.bind (rest_update _) fun updated => issues_liftExcept _

theorem rest_deleteTask : (deleteTask userId taskId).Issues (RestCommand isHash) := by
  refine Program.Issues.bind (Program.Issues.bind (.perform rfl) fun _ => .ret _) fun deleted => ?_
  split
  · exact .raise _
  · exact .ret _

theorem rest_processTaskCreated : (processTaskCreated taskId).Issues (RestCommand isHash) := by
  refine Program.Issues.bind (.perform (restCommand_ext _)) fun time => ?_
  refine Program.Issues.bind (Program.Issues.bind (.perform rfl) fun marked =>
    Program.Issues.bind (.perform trivial) fun model => .ret _) fun found => ?_
  cases found with
  | none => exact .ret _
  | some task => exact Program.Issues.bind (issues_liftExcept _) fun result => .ret _

end Tasks

section Outbox

variable {owner : String} {time leaseExpiresAt : Instant}

theorem rest_lockRows : ∀ (ids : List Uuid) (limit : ℕ),
    (OutboxRepository.lockRows time limit ids).Issues (RestCommand isHash) := by
  intro ids
  induction ids with
  | nil =>
    intro limit
    cases limit with
    | zero => exact .ret _
    | succ limit => exact .ret _
  | cons id rest ih =>
    intro limit
    cases limit with
    | zero => exact .ret _
    | succ limit =>
      refine Program.Issues.bind (.perform rfl) fun row => ?_
      cases row with
      | none => exact ih _
      | some row => exact Program.Issues.bind (ih _) fun models => .ret _

theorem rest_flushLeases : ∀ models : List (Uuid × OutboxMessageModel),
    (OutboxRepository.flushLeases owner leaseExpiresAt models).Issues (RestCommand isHash) := by
  intro models
  induction models with
  | nil => exact .ret _
  | cons model rest ih =>
    refine Program.Issues.bind (.perform rfl) fun row => ?_
    cases row with
    | none => exact .raise _
    | some row => exact Program.Issues.bind ih fun _ => .ret _

theorem rest_claimMessages {lease : Duration} {limit : ℕ} :
    (claimMessages owner lease limit).Issues (RestCommand isHash) := by
  rw [claimMessages]
  split
  · exact .raise _
  split
  · exact .raise _
  split
  · exact .raise _
  refine Program.Issues.bind (.perform (restCommand_ext _)) fun time =>
    Program.Issues.bind ?_ fun claimed => .ret _
  exact Program.Issues.bind (.perform trivial) fun rows =>
    Program.Issues.bind (rest_lockRows _ _) fun models => rest_flushLeases models

theorem rest_acknowledgeMessage {messageId : Uuid} :
    (acknowledgeMessage messageId owner).Issues (RestCommand isHash) :=
  Program.Issues.bind (.perform (restCommand_ext _)) fun _ =>
    Program.Issues.bind (.perform rfl) fun _ => .ret _

theorem rest_failMessage {messageId : Uuid} {error : String} :
    (failMessage messageId owner error).Issues (RestCommand isHash) :=
  Program.Issues.bind (.perform rfl) fun _ => .ret _

theorem rest_relayMessage {acknowledged : ℕ} {message : ClaimedMessage} :
    (relayMessage owner acknowledged message).Issues (RestCommand isHash) := by
  refine Program.Issues.handle (Program.Issues.bind ?_ fun _ => ?_) fun e => ?_
  · exact Program.Issues.bind (issues_liftExcept _) fun job =>
      Program.Issues.bind (.perform (restCommand_ext _)) fun _ => .ret _
  · exact Program.Issues.bind (visits_rest.transactionRunner rest_acknowledgeMessage) fun _ =>
      .ret _
  · cases e with
    | cancelledError => exact .raise _
    | _ => exact Program.Issues.bind (visits_rest.transactionRunner rest_failMessage) fun _ =>
        .ret _

theorem rest_relayMessages : ∀ (messages : List ClaimedMessage) (acknowledged : ℕ),
    (relayMessages owner acknowledged messages).Issues (RestCommand isHash) := by
  intro messages
  induction messages with
  | nil => exact fun acknowledged => .ret _
  | cons message rest ih =>
    exact fun acknowledged => Program.Issues.bind rest_relayMessage fun _ => ih _

end Outbox

theorem rest_taskRequest (request : Request) : request.code.Issues (RestCommand isHash) := by
  have htransaction : ∀ {α : Type} {outcome : α → Outcome} {p : Tx α},
      p.Issues (RestCommand isHash) → (transaction outcome p).Issues (RestCommand isHash) :=
    fun hp => Program.Issues.bind (visits_rest.transactionRunner hp) fun _ => .ret _
  cases request with
  | create => exact htransaction rest_createTask
  | get => exact htransaction rest_getTask
  | list => exact Program.Issues.bind (visits_rest.transactionRunner rest_listTasks) fun _ => .ret _
  | edit => exact htransaction rest_updateTask
  | toggle => exact htransaction rest_toggleTask
  | delete => exact htransaction rest_deleteTask
  | process => exact htransaction rest_processTaskCreated
  | claim => exact htransaction rest_claimMessages
  | acknowledge => exact htransaction rest_acknowledgeMessage
  | fail => exact htransaction rest_failMessage
  | relay =>
    refine Program.Issues.bind (Program.Issues.bind
      (visits_rest.transactionRunner rest_claimMessages) fun claimed => ?_) fun _ => .ret _
    exact rest_relayMessages _ _
  | job =>
    refine Program.Issues.bind (Program.Issues.bind (issues_liftExcept _) fun taskId => ?_)
      fun _ => .ret _
    exact Program.Issues.bind (visits_rest.transactionRunner rest_processTaskCreated) fun _ =>
      .ret _

/-! ### Task pages -/

section Pages

variable {uni : Unicode} {codec : SqidsPublicIdCodec}

theorem rest_onTask {α : Type} {taskId : Option ℕ} {operation : ℕ → Tx α}
    (h : ∀ taskId, (operation taskId).Issues (RestCommand isHash)) :
    (onTask taskId operation).Issues (RestCommand isHash) := by
  cases taskId with
  | none => exact .ret _
  | some taskId =>
    refine Program.Issues.handle (Program.Issues.bind (h taskId) fun _ => .ret _) fun e => ?_
    cases e with
    | taskNotFoundError => exact .ret _
    | _ => exact .raise _

/-- Whichever way it goes. -/
theorem issues_ite {α : Type} {kind : Command → Prop} {c : Prop} [Decidable c] {p q : Tx α}
    (hp : p.Issues kind) (hq : q.Issues kind) : (if c then p else q).Issues kind := by
  by_cases h : c
  · rw [if_pos h]
    exact hp
  · rw [if_neg h]
    exact hq

/-- A page over the task of a path. -/
theorem rest_taskPage {α : Type} {request : WebRequest} {taskId : Except Exn (Option ℕ)}
    {operation : Option ℕ → CurrentUser → ℕ → Tx α}
    (h : ∀ id user taskId, (operation id user taskId).Issues (RestCommand isHash))
    {page : Option ℕ → Option (CurrentUser × Option α) → Tx WebResponse}
    (hpage : ∀ id found, (page id found).Issues (RestCommand isHash)) :
    ((liftExcept taskId).bind fun id =>
      (runTaskPage request fun user => onTask id (operation id user)).bind (page id)).Issues
        (RestCommand isHash) := by
  refine Program.Issues.bind (issues_liftExcept _) fun id => ?_
  exact Program.Issues.bind (visits_rest.runAuthenticated fun user => rest_onTask (h id user))
    (hpage id)

theorem rest_taskView {page : TaskView → Tx WebResponse} {result : TaskResult}
    (h : ∀ task, (page task).Issues (RestCommand isHash)) :
    ((liftExcept (taskView codec result)).bind page).Issues (RestCommand isHash) :=
  Program.Issues.bind (issues_liftExcept _) h

theorem rest_taskViews {page : List TaskView → Tx WebResponse} {results : List TaskResult}
    (h : ∀ tasks, (page tasks).Issues (RestCommand isHash)) :
    ((liftExcept (results.mapM (taskView codec))).bind page).Issues (RestCommand isHash) :=
  Program.Issues.bind (issues_liftExcept _) h

theorem rest_page (route : TaskRoute) (request : WebRequest) :
    (route.handler uni codec request).Issues (RestCommand isHash) := by
  -- the pages of tasks never write a user, whatever the route
  cases route with
  | tasks =>
    refine Program.Issues.bind (visits_rest.runAuthenticated fun _ => rest_listTasks)
      fun found => ?_
    rcases found with _ | ⟨user, results⟩
    · exact .ret _
    · exact rest_taskViews fun _ => .ret _
  | createTask =>
    show (createTaskAction uni codec request).Issues (RestCommand isHash)
    rw [createTaskAction]
    generalize taskForm request.form = submitted
    refine issues_ite ?_ ?_
    · refine Program.Issues.bind (visits_rest.runAuthenticated fun _ => rest_listTasks)
        fun found => ?_
      rcases found with _ | ⟨user, results⟩
      · exact .ret _
      · exact rest_taskViews fun _ => .ret _
    · refine Program.Issues.bind (visits_rest.runAuthenticated fun _ => ?_) fun found => ?_
      · exact Program.Issues.bind rest_createTask fun _ => .ret _
      · rcases found with _ | ⟨user, created⟩
        · exact .ret _
        · exact issues_ite (.ret _) (rest_taskView fun _ => .ret _)
  | editTaskForm publicId =>
    refine rest_taskPage (fun _ _ _ => rest_getTask) fun _ found => ?_
    rcases found with _ | ⟨user, _ | result⟩
    · exact .ret _
    · exact .ret _
    · exact rest_taskView fun _ => .ret _
  | editTask publicId =>
    show (editTaskAction uni codec request publicId).Issues (RestCommand isHash)
    rw [editTaskAction]
    generalize taskForm request.form = submitted
    refine rest_taskPage (fun _ user taskId => ?_) fun _ found => ?_
    · exact issues_ite rest_getTask rest_updateTask
    · rcases found with _ | ⟨user, _ | result⟩
      · exact .ret _
      · exact .ret _
      · exact rest_taskView fun task => issues_ite (.ret _) (issues_ite (.ret _) (.ret _))
  | toggleTask publicId =>
    refine rest_taskPage (fun _ _ _ => rest_toggleTask) fun _ found => ?_
    rcases found with _ | ⟨user, _ | result⟩
    · exact .ret _
    · exact .ret _
    · exact issues_ite (rest_taskView fun _ => .ret _) (.ret _)
  | deleteTask publicId =>
    refine rest_taskPage (fun _ _ _ => rest_deleteTask) fun _ found => ?_
    rcases found with _ | ⟨user, _ | result⟩
    · exact .ret _
    · exact .ret _
    · exact issues_ite (.ret _) (.ret _)
  | taskStatus publicId =>
    refine rest_taskPage (fun _ _ _ => rest_getTask) fun _ found => ?_
    rcases found with _ | ⟨user, _ | result⟩
    · exact .ret _
    · exact .ret _
    · exact rest_taskView fun _ => .ret _

end Pages

/-! ### Runs -/

section Runs

variable {uni : Unicode} {lifetime : Duration} {codec : SqidsPublicIdCodec}

/-- What runs keeps to its side. -/
theorem accountSide_splits :
    accountSide.Splits (outside isHash) (ServedRequest.code uni lifetime codec)
      (AccountRequest.code uni lifetime) (fun q => q.served = true)
      fun q => (ServedRequest.account q).served = true where
  keeps := by
    intro q hq
    cases q with
    | account request => exact Program.Issues.bind (account_request hq) fun _ => .ret _
    | visit route cookie => exact Program.Issues.bind (visits_rest.visit route) fun _ => .ret _
    | page route request => exact Program.Issues.bind (rest_page route request) fun _ => .ret _
    | task request => exact Program.Issues.bind (rest_taskRequest request) fun _ => .ret _
  known := by
    intro q q₁ hrequest hq
    cases q with
    | account request =>
      obtain rfl := Option.some_inj.mp hrequest
      refine ⟨?_, hq⟩
      show ((request.code uni lifetime).bind _).bind _ = _
      rw [Program.bind_assoc]
      exact Program.bind_ret _
    | _ => cases hrequest

/-- What is seen from the account side: its rows as the store has them, the numbers of its users,
its processes and what they have committed. -/
structure AccountView (cfg : ServedConfig) (view : AccountConfig) : Prop where
  users : ∀ id, view.world.cell (.user id) = cfg.world.cell (.user id)
  emails : ∀ address, view.world.cell (.email address) = cfg.world.cell (.email address)
  issued : view.world.seq .users = cfg.world.seq .users
  procs : ∀ i, view.procs i = (cfg.procs i).bind accountSide.proc
  log : view.world.log = cfg.world.log.filter fun entry => accountSide.mine cfg entry.1

theorem accountSide_view (cfg : ServedConfig) : AccountView cfg (accountSide.config cfg) :=
  ⟨fun _ => Store.restrict_cell rfl, fun _ => Store.restrict_cell rfl, rfl, fun _ => rfl, rfl⟩

namespace AccountView

variable {cfg : ServedConfig} {view : AccountConfig} (h : AccountView cfg view)
include h

theorem user_row (id : ℕ) : view.world.row (.user id) = cfg.world.row (.user id) :=
  congrArg Cell.committed (h.users id)

theorem email_row (address : String) :
    view.world.row (.email address) = cfg.world.row (.email address) :=
  congrArg Cell.committed (h.emails address)

theorem indexed (hcfg : Indexed cfg.world) : Indexed view.world := by
  intro address id
  rw [h.email_row, hcfg, emailOf, emailOf, h.user_row]

end AccountView

/-- The account side of a run, in the store, is a run of its own. -/
theorem ServedRun.accounts_view (run : ServedRun uni isHash lifetime codec) :
    ∃ alone : AccountRun uni isHash lifetime fun _ q => (ServedRequest.account q).served = true,
      ∀ n, AccountView (run.state n) (alone.state n) := by
  obtain ⟨alone, halone⟩ := Part.alone accountSide_splits run.toRun
    (fun k _ => run.unlocked k) run.unlogged
  have hview : ∀ n, AccountView (run.state n) (alone.state n) := fun n =>
    (halone n).symm ▸ accountSide_view (run.state n)
  refine ⟨⟨⟨alone, fun k => ?_, ?_⟩, (hview 0).indexed run.indexed, fun id row hrow => ?_⟩, hview⟩
  · rw [halone 0]
    show (((run.state 0).world.store.restrict Key.account).cell k).hold.owner = none
    rcases hk : k.account
    · rw [Store.restrict_cell_other hk]
      rfl
    · rw [Store.restrict_cell hk]
      exact run.unlocked k
  · rw [(hview 0).log, run.unlogged]
    rfl
  · rw [(hview 0).user_row] at hrow
    rw [(hview 0).issued]
    refine run.numbered (.user id) (.users, id) rfl ?_
    rw [hrow]
    exact Option.some_ne_none row

/-- The account sides agree: on the users and emails that are committed, the numbers issued to
users, the processes with their replies and the rest of their programs, and the results committed.
Locks are not compared. -/
structure AccountsAgree (cfg : ServedConfig) (alone : AccountConfig) : Prop where
  users : ∀ id, alone.world.row (.user id) = cfg.world.row (.user id)
  emails : ∀ address, alone.world.row (.email address) = cfg.world.row (.email address)
  issued : alone.world.seq .users = cfg.world.seq .users
  procs : ∀ i, alone.procs i = (cfg.procs i).bind accountSide.proc
  log : alone.world.log = cfg.world.log.filter fun entry => accountSide.mine cfg entry.1

/-- **Account requests run as if alone**, whatever is served beside them. -/
theorem ServedRun.accounts_alone (run : ServedRun uni isHash lifetime codec) :
    ∃ alone : AccountRun uni isHash lifetime fun _ q => (ServedRequest.account q).served = true,
      ∀ n, AccountsAgree (run.state n) (alone.state n) := by
  obtain ⟨alone, hview⟩ := run.accounts_view
  exact ⟨alone, fun n => ⟨(hview n).user_row, (hview n).email_row, (hview n).issued,
    (hview n).procs, (hview n).log⟩⟩

/-- So the index of the emails is the users' at every moment, and no two have one email. -/
theorem ServedRun.emails (run : ServedRun uni isHash lifetime codec) (n : ℕ) :
    Indexed (run.state n).world := by
  obtain ⟨alone, hview⟩ := run.accounts_view
  obtain ⟨⟨g, hinvariant, -⟩, -⟩ := alone.invariant n
  intro address id
  rw [← (hview n).email_row, emailOf, ← (hview n).user_row]
  exact hinvariant.1 address id

end Runs

end Lsstack
