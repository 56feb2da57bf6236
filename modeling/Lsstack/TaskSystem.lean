/-
The processes of the task and outbox side: single transactions of every use
case, relay passes and worker jobs.
-/
import Lsstack.Queue

namespace Lsstack

open Concurrency

/-- A request to run one use case in one transaction, one relay pass, or one
job. -/
inductive Request where
  | create (userId : ℕ) (title : String) (description : Option String)
  | get (userId taskId : ℕ)
  | list (userId : ℕ)
  | edit (userId taskId : ℕ) (title : String) (description : Option String)
  | toggle (userId taskId : ℕ)
  | delete (userId taskId : ℕ)
  | process (taskId : ℕ)
  | claim (owner : String) (leaseDuration : Duration) (limit : ℕ)
  | acknowledge (messageId : Uuid) (owner : String)
  | fail (messageId : Uuid) (owner error : String)
  | relay (owner : String) (leaseDuration : Duration) (batchSize : ℕ)
  | job (payload : JsonValue)

/-- What a process returns. -/
inductive Response where
  | outcome (result : Outcome)
  | tasks (results : List TaskResult)
  | count (acknowledged : ℕ)
  | job (result : JobResult)

/-- One use case in one transaction, answering what it commits. -/
def transaction {α : Type} (outcome : α → Outcome) (operation : Tx α) : Tx Response := do
  let result ← transactionRunner outcome operation
  return .outcome (outcome result)

/-- What a process runs. -/
def Request.code : Request → Tx Response
  | .create userId title description =>
    transaction .taskCreated (createTask userId title description)
  | .get userId taskId => transaction .taskRead (getTask userId taskId)
  | .list userId => do
    let results ← transactionRunner (fun _ => .tasksListed userId) (listTasks userId)
    return .tasks results
  | .edit userId taskId title description =>
    transaction .taskUpdated (updateTask userId taskId title description)
  | .toggle userId taskId => transaction .taskToggled (toggleTask userId taskId)
  | .delete userId taskId =>
    transaction (fun _ => .taskDeleted userId taskId) (deleteTask userId taskId)
  | .process taskId => transaction (.taskProcessed taskId) (processTaskCreated taskId)
  | .claim owner leaseDuration limit =>
    transaction (.claimed owner) (claimMessages owner leaseDuration limit)
  | .acknowledge messageId owner =>
    transaction (.acknowledged messageId owner) (acknowledgeMessage messageId owner)
  | .fail messageId owner error =>
    transaction (.failed messageId owner) (failMessage messageId owner error)
  | .relay owner leaseDuration batchSize => do
    let acknowledged ← relayOnce owner leaseDuration batchSize
    return .count acknowledged
  | .job payload => do
    let result ← processTaskCreatedJob payload
    return .job result

/-- The processes over one database.  No password is hashed here. -/
abbrev taskMachine : Machine Command Command.Reply Exn Request Response Db
    (Choice Fault Decision) :=
  machine (fun _ _ => false) Request.code

/-- Configurations of the task and outbox side. -/
abbrev TaskConfig := Config Command Command.Reply Exn Request Response Db

end Lsstack
