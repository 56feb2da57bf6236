/-
The task page in the browser.

`GET /tasks` renders the page; after that HTMX swaps what the other requests answer into it.
The page is reduced to its task rows and to the placeholder of an empty list.  HTMX swaps
what is answered with a status below 400; of the rest of `responseHandling` nothing matters
here.  A row is found by its element id, `task-` and the public id: as a public id has at
least eight letters and digits, no other element of the page has such an id.

* `TaskPage.load` — the page as `tasks/list.html` renders it;
* `TaskPage.swap` — the swaps that the templates ask HTMX for;
* `Requests` — one request of the browser, beside the worker;
* `Browses` — one request after another, each offered by the page.
-/
import Lsstack.PageRequests

namespace Lsstack

open Concurrency

/-! ### The page -/

/-- `tasks/row.html`: an empty description is not shown, and of the mark only whether it is
there. -/
structure TaskRow where
  publicId : String
  title : String
  description : Option String
  isCompleted : Bool
  processed : Bool
  deriving DecidableEq

def TaskView.taskRow (view : TaskView) : TaskRow where
  publicId := view.publicId
  title := view.title
  description := view.description.filter (· ≠ "")
  isCompleted := view.isCompleted
  processed := view.backgroundProcessedAt.isSome

/-- The rows of `#task-list`, and whether `#task-empty-state` is there. -/
structure TaskPage where
  rows : List TaskRow
  emptyState : Bool
  deriving DecidableEq

/-- The `task` of a context. -/
def contextTask (context : List (String × ContextValue)) : Option TaskView :=
  match context.lookup "task" with
  | some (.task view) => some view
  | _ => none

/-- The `tasks` of a context. -/
def contextTasks (context : List (String × ContextValue)) : Option (List TaskView) :=
  match context.lookup "tasks" with
  | some (.tasks views) => some views
  | _ => none

namespace TaskPage

/-- `tasks/list_fragment.html`. -/
def render (views : List TaskView) : TaskPage where
  rows := views.map TaskView.taskRow
  emptyState := views.isEmpty

/-- `tasks/list.html`. -/
def load : WebResponse → Option TaskPage
  | .template templateName context _ =>
    if templateName = "tasks/list.html" then (contextTasks context).map render else none
  | _ => none

end TaskPage

/-- `outerHTML`, of the first row with that public id. -/
def outerHTML (publicId : String) (swapped : TaskRow → List TaskRow) : List TaskRow → List TaskRow
  | [] => []
  | row :: rows =>
    if row.publicId = publicId then swapped row ++ rows
    else row :: outerHTML publicId swapped rows

/-! ### The actions -/

/-- What the page can ask for. -/
inductive PageAction where
  | create (form : Form)
  | toggle (publicId : String)
  | delete (publicId : String)
  | poll (publicId : String)

/-- The create form is always there, the buttons are in the row, and a pending row polls. -/
def TaskPage.Offers (page : TaskPage) : PageAction → Prop
  | .create _ => True
  | .toggle publicId => ∃ row ∈ page.rows, row.publicId = publicId
  | .delete publicId => ∃ row ∈ page.rows, row.publicId = publicId
  | .poll publicId => ∃ row ∈ page.rows, row.publicId = publicId ∧ row.processed = false

/-- The swap of an answer: of `tasks/create_response.html` the two out-of-band parts. -/
def TaskPage.swap (page : TaskPage) (action : PageAction) : WebResponse → Option TaskPage
  | .template templateName context statusCode =>
    if 400 ≤ statusCode.getD 200 then some page
    else
      match action, contextTask context with
      | .create _, some view =>
        if templateName = "tasks/create_response.html" then
          some { rows := view.taskRow :: page.rows, emptyState := false }
        else none
      | .toggle publicId, some view =>
        if templateName = "tasks/row.html" then
          some { page with rows := outerHTML publicId (fun _ => [view.taskRow]) page.rows }
        else none
      | .poll publicId, some view =>
        if templateName = "tasks/status.html" then
          some { page with
            rows := outerHTML publicId
              (fun row => [{ row with processed := view.backgroundProcessedAt.isSome }]) page.rows }
        else none
      | _, _ => none
  | .response content _ statusCode =>
    if 400 ≤ statusCode then some page
    else
      match action with
      | .delete publicId =>
        if content = "" then some { page with rows := outerHTML publicId (fun _ => []) page.rows }
        else none
      | _ => none
  | .redirect _ _ => none

/-- The page after a request; one that fails is answered with a status of 500. -/
def TaskPage.takes (page : TaskPage) (action : PageAction) :
    Except Exn WebResponse → Option TaskPage
  | .ok response => page.swap action response
  | .error _ => some page

/-! ### Requests -/

section Requests

variable (isHash : String → String → Bool) (uni : Unicode) (codec : SqidsPublicIdCodec)
  (claims : SessionClaims) (i : ℕ)

/-- A request of HTMX. -/
def htmxRequest (form : Form) : WebRequest where
  session := some claims
  hxRequest := some "true"
  form := form

/-- A link of the browser. -/
def pageRequest : WebRequest where
  session := some claims
  hxRequest := none
  form := fun _ => none

/-- The handler of an action. -/
def PageAction.handler : PageAction → Tx WebResponse
  | .create form => createTaskAction uni codec (htmxRequest claims form)
  | .toggle publicId => toggleTaskAction uni codec (htmxRequest claims fun _ => none) publicId
  | .delete publicId => deleteTaskAction uni codec (htmxRequest claims fun _ => none) publicId
  | .poll publicId => taskStatus codec (htmxRequest claims fun _ => none) publicId

/-- A handler runs between two times, the worker between its statements. -/
def Requests (handler : Tx WebResponse) (lo hi : Instant) (w : Db) (r : Except Exn WebResponse)
    (w' : Db) : Prop :=
  lo ≤ hi ∧ ∃ events, Program.Runs (WorkerActs isHash i)
    (Tries Fault.exn (outside isHash) (ClockWithin lo hi) i) handler w events r w'

/-- The requests of a page, and which of them were answered. -/
inductive Browses : TaskPage → Instant → Db → List (PageAction × Bool) → TaskPage → Instant → Db →
    Prop
  | nil (page : TaskPage) (t : Instant) (w : Db) : Browses page t w [] page t w
  | cons {page page₁ page' : TaskPage} {lo hi t' : Instant} {w w₁ w' : Db} {action : PageAction}
      {r : Except Exn WebResponse} {steps : List (PageAction × Bool)}
      (offered : page.Offers action)
      (request : Requests isHash i (action.handler uni codec claims) lo hi w r w₁)
      (takes : page.takes action r = some page₁)
      (rest : Browses page₁ hi w₁ steps page' t' w') :
      Browses page lo w ((action, r.isOk) :: steps) page' t' w'

end Requests

/-- The steps that created a task. -/
def createdTasks (steps : List (PageAction × Bool)) : ℕ :=
  steps.countP fun
    | (.create form, answered) => answered && (taskForm form).errors.isEmpty
    | _ => false

/-- The steps that deleted one. -/
def deletedTasks (steps : List (PageAction × Bool)) : ℕ :=
  steps.countP fun
    | (.delete _, answered) => answered
    | _ => false

end Lsstack
