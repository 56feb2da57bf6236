/-
All that the application runs over its database at once.

Its processes are the requests of the account side, the visits that only look at the session,
the task pages, the single use cases of tasks and outbox, relay passes and worker jobs.  The
development seed is not served.

* `ServedRequest.code` — what each of them runs;
* `ServedRun` — their runs over one database.
-/
import Lsstack.AccountCommits
import Lsstack.Web
import Lsstack.TaskSystem

namespace Lsstack

open Concurrency

/-! ### Visits -/

/-- `root`. -/
def root (cookie : Option SessionClaims) : Tx Page := do
  match ← currentUser cookie with
  | some _ => return .redirect "/tasks" none
  | none => return .redirect "/login" none

/-- `register_form`. -/
def registerForm (cookie : Option SessionClaims) : Tx Page := do
  match ← currentUser cookie with
  | some _ => return .redirect "/tasks" none
  | none => return .template 200 []

/-- `login_form`. -/
def loginForm (cookie : Option SessionClaims) : Tx Page := do
  match ← currentUser cookie with
  | some _ => return .redirect "/tasks" none
  | none => return .template 200 []

/-- `logout_action`; whoever asks for it, the answer is the same. -/
def logoutAction (cookie : Option SessionClaims) : Tx Page := do
  let _ ← runAuthenticated cookie (fun result => .visited result.1) fun _ => pure ()
  return .redirect "/login" none

inductive VisitRoute where
  | root
  | registerForm
  | loginForm
  | logout

/-- The handler of a visit. -/
def VisitRoute.handler (cookie : Option SessionClaims) : VisitRoute → Tx Page
  | .root => Lsstack.root cookie
  | .registerForm => Lsstack.registerForm cookie
  | .loginForm => Lsstack.loginForm cookie
  | .logout => logoutAction cookie

/-! ### Processes -/

inductive ServedRequest where
  | account (request : AccountRequest)
  | visit (route : VisitRoute) (cookie : Option SessionClaims)
  | page (route : TaskRoute) (request : WebRequest)
  | task (request : Request)

inductive ServedResponse where
  | account (response : AccountResponse)
  | visit (page : Page)
  | page (response : WebResponse)
  | task (response : Response)

/-- What a process runs. -/
def ServedRequest.code (uni : Unicode) (lifetime : Duration) (codec : SqidsPublicIdCodec) :
    ServedRequest → Tx ServedResponse
  | .account request => do
    let response ← request.code uni lifetime
    return .account response
  | .visit route cookie => do
    let page ← route.handler cookie
    return .visit page
  | .page route request => do
    let response ← route.handler uni codec request
    return .page response
  | .task request => do
    let response ← request.code
    return .task response

/-- It is not the seed. -/
def ServedRequest.served : ServedRequest → Bool
  | .account (.seed _ _) => false
  | _ => true

abbrev ServedConfig := Config Command Command.Reply Exn ServedRequest ServedResponse Db

/-- The keys that a sequence issues. -/
def Key.number : Key → Option (Sequence × ℕ)
  | .user id => some (.users, id)
  | .task id => some (.tasks, id)
  | _ => none

/-- A run of the application; at first the sequences are beyond the ids in use, and the index
of the emails is the users'. -/
structure ServedRun (uni : Unicode) (isHash : String → String → Bool) (lifetime : Duration)
    (codec : SqidsPublicIdCodec) extends
    DbRun isHash (ServedRequest.code uni lifetime codec) fun _ q => q.served = true where
  indexed : Indexed (state 0).world
  numbered : ∀ k d, k.number = some d → (state 0).world.row k ≠ none →
    d.2 < (state 0).world.seq d.1

end Lsstack
