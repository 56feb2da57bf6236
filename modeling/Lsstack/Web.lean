/-
The task pages: forms, views and handlers.

A handler decodes the public id of its path, revalidates the session and runs
its use case in one transaction, and answers with a template over named values,
a redirect or a short response.  Templates stay names; a status code of `none`
is the route's default.
-/
import Lsstack.Accounts
import Lsstack.PublicIds

namespace Lsstack

/-! ### Forms -/

/-- A field of a submitted form: text, or an uploaded file. -/
inductive FormField where
  | text (value : String)
  | file

/-- The mapping of a submitted form. -/
abbrev Form : Type := String → Option FormField

/-- `text(form, key)`. -/
def formText (form : Form) (key : String) : String :=
  match form key with
  | some (.text value) => value
  | _ => ""

/-- The values `task_form` extracts. -/
structure TaskText where
  title : String
  description : String
  deriving DecidableEq

/-- `FormValues` of a task form. -/
structure FormValues where
  values : TaskText
  errors : List String
  deriving DecidableEq

def taskForm (form : Form) : FormValues :=
  let title := strip (formText form "title")
  let description := strip (formText form "description")
  let titleErrors :=
    if title.length = 0 then ["Title is required."]
    else if title.length > 200 then ["Title must be 200 characters or fewer."]
    else []
  let descriptionErrors :=
    if description.length > 5000 then ["Description must be 5,000 characters or fewer."] else []
  { values := ⟨title, description⟩
    errors := titleErrors ++ descriptionErrors }

/-- `text or None`. -/
def orNone (text : String) : Option String := if text = "" then none else some text

/-! ### Requests, views and answers -/

/-- What the handlers read of a request: the claims of its session, the
`HX-Request` header and the form. -/
structure WebRequest where
  session : Option SessionClaims
  hxRequest : Option String
  form : Form

/-- `_is_htmx`. -/
def isHtmx (uni : Unicode) (request : WebRequest) : Bool :=
  uni.casefold (request.hxRequest.getD "") == "true"

structure TaskView where
  publicId : String
  title : String
  description : Option String
  isCompleted : Bool
  backgroundProcessedAt : Option Instant
  createdAt : Instant
  deriving DecidableEq

/-- `_task_view`. -/
def taskView (codec : SqidsPublicIdCodec) (result : TaskResult) : Except Exn TaskView := do
  let publicId ← codec.encode result.id
  return ⟨publicId, result.title, result.description, result.isCompleted,
    result.backgroundProcessedAt, result.createdAt⟩

/-- A value a template is rendered over; the values of an unsubmitted form are
`none`. -/
inductive ContextValue where
  | currentUser (user : CurrentUser)
  | task (task : TaskView)
  | tasks (tasks : List TaskView)
  | errors (errors : List String)
  | values (values : Option TaskText)

inductive WebResponse where
  | template (templateName : String) (context : List (String × ContextValue))
      (statusCode : Option ℕ)
  | redirect (path : String) (statusCode : ℕ)
  | response (content mediaType : String) (statusCode : ℕ)

/-- `_redirect`. -/
def redirect (path : String) : WebResponse := .redirect path 303

/-- `_not_found`. -/
def notFound (user : CurrentUser) : WebResponse :=
  .template "errors/not_found.html" [("current_user", .currentUser user)] (some 404)

/-- A page of the list template. -/
def listPage (templateName : String) (user : CurrentUser) (tasks : List TaskView)
    (errors : List String) (values : Option TaskText) (statusCode : Option ℕ) : WebResponse :=
  .template templateName
    [("current_user", .currentUser user), ("tasks", .tasks tasks), ("errors", .errors errors),
      ("values", .values values)] statusCode

/-- A page of the edit template. -/
def editPage (user : CurrentUser) (task : TaskView) (errors : List String)
    (values : Option TaskText) (statusCode : Option ℕ) : WebResponse :=
  .template "tasks/edit.html"
    [("current_user", .currentUser user), ("task", .task task), ("errors", .errors errors),
      ("values", .values values)] statusCode

/-- A template over one task. -/
def taskPage (templateName : String) (user : CurrentUser) (task : TaskView) : WebResponse :=
  .template templateName [("current_user", .currentUser user), ("task", .task task)] none

/-! ### Handlers -/

/-- `_run_authenticated` of a task page. -/
def runTaskPage {α : Type} (request : WebRequest) (operation : CurrentUser → Tx α) :
    Tx (Option (CurrentUser × α)) :=
  runAuthenticated request.session (fun result => .visited result.1) operation

/-- Run an operation on the task named in the path; an undecodable id and a task
that is not found are both `none`. -/
def onTask {α : Type} (taskId : Option ℕ) (operation : ℕ → Tx α) : Tx (Option α) :=
  match taskId with
  | none => return none
  | some taskId =>
    tryCatch
      (do
        let result ← operation taskId
        return some result)
      fun
      | .taskNotFoundError _ => return none
      | error => throw error

section Handlers

variable (uni : Unicode) (codec : SqidsPublicIdCodec)

def taskList (request : WebRequest) : Tx WebResponse := do
  match ← runTaskPage request fun user => listTasks user.id with
  | none => return redirect "/login"
  | some (user, results) =>
    let tasks ← liftExcept (results.mapM (taskView codec))
    return listPage "tasks/list.html" user tasks [] none none

def createTaskAction (request : WebRequest) : Tx WebResponse := do
  let submitted := taskForm request.form
  if submitted.errors ≠ [] then
    match ← runTaskPage request fun user => listTasks user.id with
    | none => return redirect "/login"
    | some (user, results) =>
      let tasks ← liftExcept (results.mapM (taskView codec))
      let templateName :=
        if isHtmx uni request then "tasks/create_validation.html" else "tasks/list.html"
      return listPage templateName user tasks submitted.errors (some submitted.values) (some 422)
  else
    let authenticated ← runTaskPage request fun user => do
      let result ← createTask user.id submitted.values.title (orNone submitted.values.description)
      return result.task
    match authenticated with
    | none => return redirect "/login"
    | some (user, created) =>
      if isHtmx uni request = false then
        return redirect "/tasks"
      else
        let task ← liftExcept (taskView codec created)
        return taskPage "tasks/create_response.html" user task

def editTaskForm (request : WebRequest) (publicId : String) : Tx WebResponse := do
  let taskId ← liftExcept (codec.decode publicId)
  match ← runTaskPage request fun user => onTask taskId (getTask user.id) with
  | none => return redirect "/login"
  | some (user, none) => return notFound user
  | some (user, some result) =>
    let task ← liftExcept (taskView codec result)
    return editPage user task [] none none

def editTaskAction (request : WebRequest) (publicId : String) : Tx WebResponse := do
  let taskId ← liftExcept (codec.decode publicId)
  let submitted := taskForm request.form
  let authenticated ← runTaskPage request fun user => onTask taskId fun taskId =>
    if submitted.errors ≠ [] then
      getTask user.id taskId
    else
      updateTask user.id taskId submitted.values.title (orNone submitted.values.description)
  match authenticated with
  | none => return redirect "/login"
  | some (user, none) => return notFound user
  | some (user, some result) =>
    let task ← liftExcept (taskView codec result)
    if submitted.errors ≠ [] then
      return editPage user task submitted.errors (some submitted.values) (some 422)
    else if isHtmx uni request then
      return taskPage "tasks/row.html" user task
    else
      return redirect "/tasks"

def toggleTaskAction (request : WebRequest) (publicId : String) : Tx WebResponse := do
  let taskId ← liftExcept (codec.decode publicId)
  match ← runTaskPage request fun user => onTask taskId (toggleTask user.id) with
  | none => return redirect "/login"
  | some (user, none) => return notFound user
  | some (user, some result) =>
    if isHtmx uni request then
      let task ← liftExcept (taskView codec result)
      return taskPage "tasks/row.html" user task
    else
      return redirect "/tasks"

def deleteTaskAction (request : WebRequest) (publicId : String) : Tx WebResponse := do
  let taskId ← liftExcept (codec.decode publicId)
  match ← runTaskPage request fun user => onTask taskId (deleteTask user.id) with
  | none => return redirect "/login"
  | some (user, none) => return notFound user
  | some (_, some _) =>
    if isHtmx uni request then
      return .response "" "text/html" 200
    else
      return redirect "/tasks"

def taskStatus (request : WebRequest) (publicId : String) : Tx WebResponse := do
  let taskId ← liftExcept (codec.decode publicId)
  match ← runTaskPage request fun user => onTask taskId (getTask user.id) with
  | none => return redirect "/login"
  | some (user, none) => return notFound user
  | some (user, some result) =>
    let task ← liftExcept (taskView codec result)
    return taskPage "tasks/status.html" user task

end Handlers

/-! ### Routes -/

/-- The routes of the task pages. -/
inductive TaskRoute where
  | tasks
  | createTask
  | editTaskForm (publicId : String)
  | editTask (publicId : String)
  | toggleTask (publicId : String)
  | deleteTask (publicId : String)
  | taskStatus (publicId : String)

/-- The handler of a route. -/
def TaskRoute.handler (uni : Unicode) (codec : SqidsPublicIdCodec) (request : WebRequest) :
    TaskRoute → Tx WebResponse
  | .tasks => taskList codec request
  | .createTask => createTaskAction uni codec request
  | .editTaskForm publicId => Lsstack.editTaskForm codec request publicId
  | .editTask publicId => editTaskAction uni codec request publicId
  | .toggleTask publicId => toggleTaskAction uni codec request publicId
  | .deleteTask publicId => deleteTaskAction uni codec request publicId
  | .taskStatus publicId => Lsstack.taskStatus codec request publicId

end Lsstack
