/-
The queue adapter: the outbox relay and the worker's job.

A relay pass claims a batch, publishes each message and acknowledges it, all in
separate short transactions; a failed publication or acknowledgement is
recorded in a further one.  Spans, metrics and log lines are left out.
-/
import Lsstack.UseCases

namespace Lsstack

/-! ### Exception texts -/

/-- `repr` of a string of printable characters. -/
def pyRepr (s : String) : String :=
  let quote := if '\'' ∈ s.toList ∧ '"' ∉ s.toList then '"' else '\''
  String.ofList ([quote] ++
    s.toList.flatMap (fun c => if c = quote ∨ c = '\\' then ['\\', c] else [c]) ++ [quote])

/-- `f"{type(error).__name__}: {error}"`; the classes of the database driver and
of the queue are part of their message. -/
def Exn.describe : Exn → String
  | .validationError _ message => s!"ValidationError: {message}"
  | .duplicateEmailError message => s!"DuplicateEmailError: {message}"
  | .invalidCredentialsError message => s!"InvalidCredentialsError: {message}"
  | .invalidSessionError message => s!"InvalidSessionError: {message}"
  | .currentPasswordMismatchError message => s!"CurrentPasswordMismatchError: {message}"
  | .taskNotFoundError message => s!"TaskNotFoundError: {message}"
  | .valueError message => s!"ValueError: {message}"
  | .typeError message => s!"TypeError: {message}"
  | .runtimeError message => s!"RuntimeError: {message}"
  | .integrityError orig => s!"IntegrityError: {orig}"
  | .staleDataError => "StaleDataError: "
  | .databaseError message => message
  | .queueError message => message
  | .cancelledError => "CancelledError: "

/-! ### The relay -/

def taskCreatedJob : String := "process_task_created_job"

/-- `_job_name`. -/
def jobName (topic : String) : Except Exn String :=
  if topic = "task.created.v1" then
    .ok taskCreatedJob
  else
    .error (.valueError s!"No SAQ handler is registered for outbox topic {pyRepr topic}.")

/-- The enqueue call for a message, under the outbox id as key. -/
def enqueueCall (job : String) (message : ClaimedMessage) : EnqueueCall where
  job := job
  payload := message.payload
  key := message.id.str
  retries := 3
  retryDelay := 1
  retryBackoff := true
  timeout := 30

/-- A key that is already present counts as published. -/
def publishMessage (message : ClaimedMessage) : Tx Unit := do
  let job ← liftExcept (jobName message.topic)
  let _ ← call (.enqueue (enqueueCall job message))
  return ()

/-- Publish and acknowledge one message; a failure other than a cancellation is
recorded, keeping the lease.  The result is the new count. -/
def relayMessage (owner : String) (acknowledged : ℕ) (message : ClaimedMessage) : Tx ℕ :=
  tryCatch
    (do
      publishMessage message
      let published ← transactionRunner (.acknowledged message.id owner)
        (acknowledgeMessage message.id owner)
      return acknowledged + published.toNat)
    fun
    | .cancelledError => throw .cancelledError
    | error => do
      let _ ← transactionRunner (.failed message.id owner)
        (failMessage message.id owner error.describe)
      return acknowledged

/-- The loop over the claimed batch. -/
def relayMessages (owner : String) : ℕ → List ClaimedMessage → Tx ℕ
  | acknowledged, [] => return acknowledged
  | acknowledged, message :: rest => do
    let acknowledged ← relayMessage owner acknowledged message
    relayMessages owner acknowledged rest

/-- Claim, publish and acknowledge one bounded batch. -/
def relayOnce (owner : String) (leaseDuration : Duration) (batchSize : ℕ) : Tx ℕ := do
  let claimed ← transactionRunner (.claimed owner) (claimMessages owner leaseDuration batchSize)
  relayMessages owner 0 claimed

/-! ### The job -/

/-- `version == 1` for a value that is not a `bool`. -/
def JsonValue.isOne : JsonValue → Bool
  | .int n => n == 1
  | .float x => x == 1
  | _ => false

/-- The task id of a `task.created.v1` payload, if the payload is valid. -/
def validatePayload : JsonValue → Except Exn ℕ
  | .dict items =>
    match items.lookup "version", items.lookup "task_id" with
    | some version, some (.int taskId) =>
      if version.isOne = false ∨ taskId < 1 then
        .error (.valueError "Invalid task.created.v1 payload.")
      else
        .ok taskId.toNat
    | _, _ => .error (.valueError "Invalid task.created.v1 payload.")
  | _ => .error (.typeError "task.created.v1 payload must be an object.")

/-- The answer `{"task_id": …, "processed": …}` of the job. -/
structure JobResult where
  taskId : ℕ
  processed : Bool

def processTaskCreatedJob (payload : JsonValue) : Tx JobResult := do
  let taskId ← liftExcept (validatePayload payload)
  let result ← transactionRunner (.taskProcessed taskId) (processTaskCreated taskId)
  return ⟨taskId, result.isSome⟩

end Lsstack
