/-
The SQL outbox against a store of domain messages.

The reference store keeps its messages in a dictionary, applies `leased`, `published` and
`failed`, and lets the owner of the lease acknowledge or fail, whether or not the message has
been published.  Calls are executed one after another, each with its own reading of the clock
and its own UUID.

* `Represents` — the rows are the messages, and no published message has an owner;
* `OutboxMessageModel.storable` — what the columns hold; `Stores` refuses anything else;
* `alone_transaction` — a transaction alone commits what its operation reaches, or nothing;
* `performs_of_stores` — where every row fits, nothing is refused;
* `OutboxCall.reaches` — a call does the same in both;
* **`outbox_refines`** — so does every sequence of calls on an empty outbox, as long as the
  columns hold their texts (`outbox_refines_violated`).
-/
import Lsstack.Dictionary
import Lsstack.RelayClaims
import Lsstack.Seeding
import Lsstack.TaskForms

namespace Lsstack

open Concurrency

/-! ### The reference store -/

/-- What a call draws from its surroundings. -/
structure Drawn where
  now : Instant
  uuid : Uuid

/-- The messages by id, the task ids in use and the next one. -/
structure ReferenceStore where
  values : List OutboxMessage
  taskTaken : ℕ → Bool
  nextTask : ℕ

namespace ReferenceStore

/-- `add`; an id that is taken is refused. -/
def add (message : OutboxMessage) (values : List OutboxMessage) :
    Except Exn (List OutboxMessage) :=
  if (Dictionary.get OutboxMessage.id values message.id).isSome then
    .error (.integrityError "duplicate key value violates unique constraint \"pk_outbox_messages\"")
  else
    .ok (Dictionary.set OutboxMessage.id values message)

/-- A message that may be leased. -/
def eligible (now : Instant) (message : OutboxMessage) : Bool :=
  message.publishedAt.isNone &&
    match message.leaseExpiresAt with
    | none => true
    | some expiresAt => decide (expiresAt ≤ now)

/-- By `created_at`, then by `id`. -/
def age (message : OutboxMessage) : ℤ ×ₗ ℕ := toLex (message.createdAt, message.id.toNat)

/-- The messages that may be leased, oldest first. -/
def oldest (now : Instant) (values : List OutboxMessage) : List OutboxMessage :=
  (values.filter (eligible now)).insertionSort fun a b => age a ≤ age b

/-- `claim_batch`. -/
def claimBatch (owner : String) (now leaseExpiresAt : Instant) (limit : ℕ)
    (values : List OutboxMessage) : List OutboxMessage × List OutboxMessage :=
  let claimed := ((oldest now values).take limit).map fun message =>
    message.leased owner leaseExpiresAt now
  (claimed, Dictionary.update OutboxMessage.id values claimed)

/-- An update by the owner of the lease; whether the message has been published is not asked. -/
def owned (messageId : Uuid) (owner : String) (f : OutboxMessage → OutboxMessage)
    (values : List OutboxMessage) : Bool × List OutboxMessage :=
  match Dictionary.get OutboxMessage.id values messageId with
  | none => (false, values)
  | some message =>
    if message.leaseOwner ≠ some owner then (false, values)
    else (true, Dictionary.set OutboxMessage.id values (f message))

/-- `mark_published`. -/
def markPublished (messageId : Uuid) (owner : String) (publishedAt : Instant)
    (values : List OutboxMessage) : Bool × List OutboxMessage :=
  owned messageId owner (fun message => message.published publishedAt) values

/-- `mark_failed`. -/
def markFailed (messageId : Uuid) (owner error : String) (values : List OutboxMessage) :
    Bool × List OutboxMessage :=
  owned messageId owner (fun message => message.failed error) values

/-- A new task and its message. -/
def addTask (task : TaskResult) (message : OutboxMessage) (store : ReferenceStore) :
    Except Exn TaskCreatedResult × ReferenceStore :=
  if store.taskTaken task.id then
    (.error (.integrityError "duplicate key value violates unique constraint \"pk_tasks\""), store)
  else
    match add message store.values with
    | .error e => (.error e, store)
    | .ok values =>
      (.ok ⟨task, message.id⟩,
        { store with
          values := values
          taskTaken := Function.update store.taskTaken task.id true })

/-- `create_task`.  A task id is drawn also where the call fails after that. -/
def createTask (userId : ℕ) (title : String) (description : Option String)
    (messageId : Option Uuid) (drawn : Drawn) (store : ReferenceStore) :
    Except Exn TaskCreatedResult × ReferenceStore :=
  match normalizeTitle title, normalizeDescription description with
  | .error e, _ => (.error e, store)
  | .ok _, .error e => (.error e, store)
  | .ok title, .ok description =>
    let task : TaskResult :=
      { id := store.nextTask
        userId := userId
        title := title
        description := description
        isCompleted := false
        backgroundProcessedAt := none
        createdAt := drawn.now
        updatedAt := drawn.now }
    let message : OutboxMessage :=
      { id := messageId.getD drawn.uuid
        topic := taskCreatedTopic
        payload := taskCreatedPayload store.nextTask
        createdAt := drawn.now }
    addTask task message { store with nextTask := store.nextTask + 1 }

/-- `claim_messages`. -/
def claimMessages (owner : String) (leaseDuration : Duration) (limit : ℕ) (drawn : Drawn)
    (store : ReferenceStore) : Except Exn (List ClaimedMessage) × ReferenceStore :=
  if owner = "" then (.error (.valueError "A lease owner is required."), store)
  else if leaseDuration ≤ 0 then
    (.error (.valueError "Lease duration must be positive."), store)
  else if limit < 1 ∨ limit > 1000 then
    (.error (.valueError "Outbox claim limit must be between 1 and 1000."), store)
  else
    let (claimed, values) :=
      claimBatch owner drawn.now (drawn.now + leaseDuration) limit store.values
    (.ok (claimed.map fun message =>
      ⟨message.id, message.topic, message.payload, message.attemptCount⟩),
      { store with values := values })

/-- `acknowledge_message`. -/
def acknowledgeMessage (messageId : Uuid) (owner : String) (drawn : Drawn)
    (store : ReferenceStore) : Except Exn Bool × ReferenceStore :=
  let (published, values) := markPublished messageId owner drawn.now store.values
  (.ok published, { store with values := values })

/-- `fail_message`. -/
def failMessage (messageId : Uuid) (owner error : String) (store : ReferenceStore) :
    Except Exn Bool × ReferenceStore :=
  let (failed, values) := markFailed messageId owner (safeError error) store.values
  (.ok failed, { store with values := values })

end ReferenceStore

/-! ### Calls -/

inductive OutboxCall where
  | createTask (userId : ℕ) (title : String) (description : Option String)
    (messageId : Option Uuid)
  | claimMessages (owner : String) (leaseDuration : Duration) (limit : ℕ)
  | acknowledgeMessage (messageId : Uuid) (owner : String)
  | failMessage (messageId : Uuid) (owner error : String)

namespace OutboxCall

def Result : OutboxCall → Type
  | .createTask .. => TaskCreatedResult
  | .claimMessages .. => List ClaimedMessage
  | .acknowledgeMessage .. => Bool
  | .failMessage .. => Bool

/-- The use case over the SQL repositories. -/
def operation : (call : OutboxCall) → Tx call.Result
  | .createTask userId title description messageId =>
    Lsstack.createTask userId title description messageId
  | .claimMessages owner leaseDuration limit => Lsstack.claimMessages owner leaseDuration limit
  | .acknowledgeMessage messageId owner => Lsstack.acknowledgeMessage messageId owner
  | .failMessage messageId owner error => Lsstack.failMessage messageId owner error

/-- What the log records of it. -/
def outcome : (call : OutboxCall) → call.Result → Outcome
  | .createTask .. => .taskCreated
  | .claimMessages owner .. => .claimed owner
  | .acknowledgeMessage messageId owner => .acknowledged messageId owner
  | .failMessage messageId owner _ => .failed messageId owner

/-- The call in a transaction of its own. -/
def transaction (call : OutboxCall) : Tx call.Result :=
  transactionRunner call.outcome call.operation

/-- The use case over the reference store. -/
def reference : (call : OutboxCall) → Drawn → ReferenceStore →
    Except Exn call.Result × ReferenceStore
  | .createTask userId title description messageId =>
    ReferenceStore.createTask userId title description messageId
  | .claimMessages owner leaseDuration limit =>
    ReferenceStore.claimMessages owner leaseDuration limit
  | .acknowledgeMessage messageId owner => ReferenceStore.acknowledgeMessage messageId owner
  | .failMessage messageId owner error => fun _ => ReferenceStore.failMessage messageId owner error

end OutboxCall

/-- A call with what it draws. -/
abbrev DrawnCall := OutboxCall × Drawn

/-- A call with its result. -/
abbrev Answer := (call : OutboxCall) × Except Exn call.Result

/-- The calls over the reference store, one after another. -/
def ReferenceStore.run (store : ReferenceStore) : List DrawnCall → List Answer × ReferenceStore
  | [] => ([], store)
  | (call, drawn) :: calls =>
    let (result, store) := call.reference drawn store
    let (results, store) := store.run calls
    (⟨call, result⟩ :: results, store)

/-- The surroundings answer what has been drawn. -/
def Drawn.Answers (drawn : Drawn) : (x : Outside) → x.Reply → Prop
  | .now, t => t = drawn.now
  | .uuid4, u => u = drawn.uuid
  | _, _ => True

/-! ### What PostgreSQL stores -/

/-- PostgreSQL stores the row: `varchar(200)` and `text`. -/
def OutboxMessageModel.storable (row : OutboxMessageModel) : Bool :=
  storableText 200 row.topic && row.leaseOwner.all (storableText 200) &&
    row.lastError.all fun error => !decide ('\x00' ∈ error.toList)

def Row.storable : (k : Key) → Row k → Bool
  | .task _, row => TaskModel.storable row
  | .message _, row => OutboxMessageModel.storable row
  | _, _ => true

/-- The statement writes a row that PostgreSQL does not store. -/
def unstorable (i : ℕ) (w : Db) : Command → Bool
  | .insert k row => !Row.storable k row
  | .update k p f => ((w.cell k).view i).any fun row => p row && !Row.storable k (f row)
  | _ => false

/-- The exception of a refused row. -/
def dataError : Exn := .databaseError "DataError"

/-- A statement of session `i`; one that writes what cannot be stored raises and changes
nothing, and no other fails. -/
inductive Stores (drawn : Drawn) (i : ℕ) (w : Db) (c : Command) : Except Exn c.Reply → Db → Prop
  | done {r : Except Exn c.Reply} {w' : Db} (hc : unstorable i w c = false)
      (does : Does Fault.exn (outside fun _ _ => true) drawn.Answers i w c r w') :
      Stores drawn i w c r w'
  | refused (hc : unstorable i w c = true) : Stores drawn i w c (.error dataError) w

/-- The calls over the database, one after another; nobody else uses it. -/
inductive OutboxRun :
    Db → List DrawnCall → List Answer → Db → Prop
  | nil (w : Db) : OutboxRun w [] [] w
  | cons {w w₁ w' : Db} {call : OutboxCall} {drawn : Drawn} {calls : List DrawnCall}
      {result : Except Exn call.Result} {results : List Answer} {i : ℕ}
      (first : call.transaction.Performs (Stores drawn i) w result w₁)
      (rest : OutboxRun w₁ calls results w') :
      OutboxRun w ((call, drawn) :: calls) (⟨call, result⟩ :: results) w'

/-- PostgreSQL takes the texts of the call; U+0000 is refused wherever it is sent. -/
def OutboxCall.Storable : OutboxCall → Prop
  | .createTask _ title description _ =>
    '\x00' ∉ title.toList ∧ ∀ text, description = some text → '\x00' ∉ text.toList
  | .claimMessages owner _ _ => storableText 200 owner = true
  | .acknowledgeMessage _ owner => '\x00' ∉ owner.toList
  | .failMessage _ owner error => '\x00' ∉ owner.toList ∧ '\x00' ∉ error.toList

/-! ### Transactions alone -/

/-- PostgreSQL stores what the statement writes; no rows but messages are updated. -/
def Fitting : Command → Prop
  | .insert k row => Row.storable k row = true
  | .update (.message _) _ f =>
    ∀ row : OutboxMessageModel, row.storable = true → (f row : OutboxMessageModel).storable = true
  | .update _ _ _ => False
  | _ => True

/-- And the statement does not end the transaction. -/
def Proper (c : Command) : Prop := Fitting c ∧ c.frees = false

section Transactions

variable {α : Type} {answers : (x : Outside) → x.Reply → Prop} {s : DbSession}

/-- What no statement of a program changes, the program does not change. -/
theorem strict_keeps {kind : Command → Prop} {β : Type} {field : DbSession → β} {p : Tx α}
    (hp : p.Strict kind) (hkind : ∀ s c, kind c → field (s.next c) = field s)
    {Q : Except Exn α → DbSession → Prop} (h : p.Meets (sequential answers) s Q) :
    p.Meets (sequential answers) s fun r s' => Q r s' ∧ field s' = field s := by
  induction p generalizing s with
  | ret a => exact ⟨h, rfl⟩
  | raise e => exact ⟨h, rfl⟩
  | call c k ih =>
    obtain ⟨hc, -, hok⟩ := hp
    refine ⟨trivial, ?_⟩
    rintro _ ⟨v, rfl, hv⟩
    obtain ⟨_, rfl, hmeets⟩ := h.2 _ ⟨v, rfl, hv⟩
    refine ⟨_, rfl, (ih _ (hok v) hmeets).mono ?_⟩
    rintro r s' ⟨hQ, hfield⟩
    exact ⟨hQ, hfield.trans (hkind s c hc)⟩

/-- A claim draws no task id. -/
theorem next_seq (s : DbSession) (c : Command) (hc : InClaim c) : (s.next c).seq = s.seq := by
  cases c with
  | nextval q => cases hc
  | update key p f =>
    rw [Session.next]
    split <;> rfl
  | delete key p => cases hc
  | insert key v => cases hc
  | _ => rfl

/-- **A transaction alone** commits what its operation reaches, or nothing. -/
theorem alone_transaction {outcome : α → Outcome} {operation : Tx α}
    (hp : operation.Strict Proper) {K : Except Exn α → DbSession → Prop}
    (h : operation.Meets (sequential answers) s K) :
    (transactionRunner outcome operation).Meets (sequential answers) s fun r s' =>
      ∃ s₁, K r s₁ ∧ s'.seq = s₁.seq ∧
        (∀ a, r = .ok a → s'.committed = s₁.rows) ∧
        ∀ e, r = .error e → s'.committed = s.committed := by
  refine meets_transactionRunner.mpr ((strict_keeps hp
    (fun s c hc => next_committed s c hc.2) h).mono ?_)
  rintro (e | a) s₁ ⟨hK, hcommitted⟩
  · refine meets_perform_sequential.mpr fun u _ => ?_
    exact ⟨s₁, hK, rfl, (fun a ha => by cases ha), fun _ _ => hcommitted⟩
  · refine meets_perform_sequential.mpr fun u _ => ?_
    exact ⟨s₁, hK, rfl, fun _ _ => rfl, fun e he => by cases he⟩

/-- A row that does not satisfy the condition is not written. -/
theorem alone_update_unmatched {k : Key} {p : Row k → Bool} {f : Row k → Row k}
    (hnone : (s.rows k).filter p = none) {Q : Except Exn (Option (Row k)) → DbSession → Prop}
    (h : Q (.ok none) s) : (update k p f).Meets (sequential answers) s Q := by
  rw [update, perform, meets_perform_sequential]
  rintro _ ⟨rfl, -⟩
  rw [Session.next, hnone]
  exact h

end Transactions

/-! ### The statements of a call -/

theorem OutboxMessageModel.storable_iff {row : OutboxMessageModel} :
    row.storable = true ↔ storableText 200 row.topic = true ∧
      (∀ owner, row.leaseOwner = some owner → storableText 200 owner = true) ∧
      ∀ error, row.lastError = some error → '\x00' ∉ error.toList := by
  simp only [storable, Bool.and_eq_true, Option.all_eq_true, Bool.not_eq_true', and_assoc,
    decide_eq_false_iff_not]

theorem storableText_strip {limit : ℕ} {value : String} (hfree : '\x00' ∉ value.toList)
    (hle : (strip value).length ≤ limit) : storableText limit (strip value) = true := by
  rw [storableText, Bool.and_eq_true, Bool.not_eq_true', decide_eq_true_eq, decide_eq_false_iff_not,
    mem_strip (by decide)]
  exact ⟨hle, hfree⟩

theorem storable_normalized {row : TaskModel} {title : String} {description : Option String}
    (htitle : normalizeTitle title = .ok row.title)
    (hdescription : normalizeDescription description = .ok row.description)
    (hfree : '\x00' ∉ title.toList)
    (hfree' : ∀ text, description = some text → '\x00' ∉ text.toList) : row.storable = true := by
  obtain ⟨heq, hpos, hle⟩ := normalizeTitle_ok htitle
  refine storable_iff.mpr ⟨⟨?_, hpos⟩, fun text htext => ?_⟩
  · rw [heq] at hle ⊢
    exact storableText_strip hfree hle
  · cases description with
    | none =>
      rw [htext] at hdescription
      cases hdescription
    | some value =>
      rw [htext] at hdescription
      have hle := (normalizeDescription_ok hdescription).2
      obtain rfl : strip value = text := by
        simp only [normalizeDescription] at hdescription
        split at hdescription
        · cases hdescription
        · split at hdescription <;> cases hdescription
          rfl
      exact storableText_strip (hfree' value rfl) hle

theorem safeError_free {error : String} (h : '\x00' ∉ error.toList) :
    '\x00' ∉ (safeError error).toList := by
  unfold safeError
  dsimp only
  split
  · decide
  · intro hmem
    rw [truncate, String.toList_ofList] at hmem
    exact h ((mem_strip (by decide)).mp (List.mem_of_mem_take hmem))

theorem strict_taskAdd {task : Task} (h : ∀ row : TaskModel, row.title = task.title →
      row.description = task.description → row.storable = true) :
    (TaskRepository.add task).Strict Proper := by
  refine (Program.strict_perform ⟨trivial, rfl⟩).bind fun id => ?_
  have hrow : Proper (.insert (.task id)
      ⟨task.userId, task.title, task.description, task.isCompleted, task.backgroundProcessedAt,
        task.createdAt, task.updatedAt⟩) := ⟨h _ rfl rfl, rfl⟩
  refine (Program.strict_perform hrow).bind fun inserted => ?_
  cases inserted <;> trivial

theorem strict_messageAdd {id : Uuid} {payload : JsonValue} {createdAt : Instant} :
    (OutboxRepository.add
      { id := id, topic := taskCreatedTopic, payload := payload, createdAt := createdAt }).Strict
      Proper := by
  have htopic : storableText 200 taskCreatedTopic = true := by decide
  refine Program.Strict.bind (Program.strict_perform ⟨?_, rfl⟩) fun inserted => ?_
  · exact OutboxMessageModel.storable_iff.mpr
      ⟨htopic, (fun _ h => by cases h), fun _ h => by cases h⟩
  · cases inserted <;> trivial

theorem strict_createTask {userId : ℕ} {title : String} {description : Option String}
    {messageId : Option Uuid} (hfree : '\x00' ∉ title.toList)
    (hfree' : ∀ text, description = some text → '\x00' ∉ text.toList) :
    (createTask userId title description messageId).Strict Proper := by
  unfold createTask
  rcases htitle : normalizeTitle title with e | title'
  · exact (Program.strict_perform ⟨trivial, rfl⟩).bind fun t => trivial
  rcases hdescription : normalizeDescription description with e | description'
  · exact (Program.strict_perform ⟨trivial, rfl⟩).bind fun t => trivial
  refine (Program.strict_perform ⟨trivial, rfl⟩).bind fun t => ?_
  simp only [liftExcept, Program.bind_eq, Program.ret_bind]
  refine Program.Strict.bind (strict_taskAdd fun row heq heq' => ?_) fun task => ?_
  · subst heq heq'
    exact storable_normalized htitle hdescription hfree hfree'
  rcases taskResult task with e | result
  · trivial
  · cases messageId with
    | none =>
      refine (Program.strict_perform ⟨trivial, rfl⟩).bind fun outboxId => ?_
      exact strict_messageAdd.bind fun _ => trivial
    | some id => exact strict_messageAdd.bind fun _ => trivial

/-- **A call writes what PostgreSQL stores**, and does not end its transaction early. -/
theorem OutboxCall.strict_operation {call : OutboxCall} (h : call.Storable) :
    call.operation.Strict Proper := by
  cases call with
  | createTask userId title description messageId => exact strict_createTask h.1 h.2
  | claimMessages owner leaseDuration limit =>
    refine strict_claimMessages_of ⟨trivial, rfl⟩ (fun _ _ => ⟨trivial, rfl⟩)
      (fun _ _ => ⟨trivial, rfl⟩) fun expiresAt id model => ⟨fun row hrow => ?_, rfl⟩
    have htopic := (OutboxMessageModel.storable_iff.mp hrow).1
    refine OutboxMessageModel.storable_iff.mpr ⟨htopic, ?_, fun _ h => by cases h⟩
    intro owner' howner
    obtain rfl := Option.some_inj.mp howner
    exact h
  | acknowledgeMessage messageId owner =>
    show (Lsstack.acknowledgeMessage messageId owner).Strict Proper
    refine (Program.strict_perform ⟨trivial, rfl⟩).bind fun t => ?_
    refine Program.Strict.bind (Program.strict_perform ⟨fun row hrow => ?_, rfl⟩)
      fun _ => trivial
    have htopic := (OutboxMessageModel.storable_iff.mp hrow).1
    exact OutboxMessageModel.storable_iff.mpr
      ⟨htopic, (fun _ h => by cases h), fun _ h => by cases h⟩
  | failMessage messageId owner error =>
    show (Lsstack.failMessage messageId owner error).Strict Proper
    refine Program.Strict.bind (Program.strict_perform ⟨fun row hrow => ?_, rfl⟩)
      fun _ => trivial
    obtain ⟨htopic, howner, -⟩ := OutboxMessageModel.storable_iff.mp hrow
    refine OutboxMessageModel.storable_iff.mpr ⟨htopic, howner, fun error' herror => ?_⟩
    obtain rfl := Option.some_inj.mp herror
    exact safeError_free h.2

/-! ### Rows that PostgreSQL stores -/

/-- PostgreSQL stores all of the messages. -/
def Kept (rows : Rows) : Prop :=
  ∀ id (row : OutboxMessageModel), rows (.message id) = some row → row.storable = true

theorem Kept.update {rows : Rows} {k : Key} {v : Option (Row k)} (h : Kept rows)
    (hv : ∀ row, v = some row → Row.storable k row = true) : Kept (Function.update rows k v) := by
  intro id row hrow
  by_cases hk : Key.message id = k
  · subst hk
    rw [Function.update_self] at hrow
    exact hv row hrow
  · rw [Function.update_of_ne hk] at hrow
    exact h id row hrow

theorem Kept.next {s : DbSession} {c : Command} (h : Kept s.rows) (h' : Kept s.committed)
    (hc : Fitting c) : Kept (s.next c).rows ∧ Kept (s.next c).committed := by
  cases c with
  | update k p f =>
    rw [Session.next]
    rcases hrow : (s.rows k).filter p with _ | row
    · exact ⟨h, h'⟩
    · obtain ⟨hold, -⟩ := Option.filter_eq_some_iff.mp hrow
      refine ⟨h.update fun row' heq => ?_, h'⟩
      rw [← Option.some_inj.mp heq]
      cases k with
      | message id => exact hc row (h id row hold)
      | _ => exact hc.elim
  | insert k v =>
    rw [Session.next]
    rcases s.rows k with _ | row
    · refine ⟨h.update fun row' heq => ?_, h'⟩
      rw [← Option.some_inj.mp heq]
      exact hc
    · exact ⟨h, h'⟩
  | delete k p =>
    rw [Session.next]
    rcases (s.rows k).filter p with _ | row
    · exact ⟨h, h'⟩
    · exact ⟨h.update (fun row' heq => by cases heq), h'⟩
  | commit out => exact ⟨h, h⟩
  | rollback => exact ⟨h', h'⟩
  | _ => exact ⟨h, h'⟩

section Stored

variable {drawn : Drawn} {i : ℕ} {w w' : Db} {s : DbSession}

/-- A statement whose rows fit is not refused. -/
theorem not_unstorable {c : Command} (h : Alone i w s) (hs : Kept s.rows)
    (hc : Fitting c) : unstorable i w c = false := by
  cases c with
  | insert k row =>
    have hrow : Row.storable k row = true := hc
    rw [unstorable, hrow]
    rfl
  | update k p f =>
    rw [unstorable, h.rows]
    rcases hrow : s.rows k with _ | row
    · rfl
    · have hfits : Row.storable k (f row) = true := by
        cases k with
        | message id => exact hc row (hs id row hrow)
        | _ => exact hc.elim
      rw [Option.any_some, hfits, Bool.not_true, Bool.and_false]
  | _ => rfl

/-- **Where every row fits, nothing is refused.** -/
theorem performs_of_stores {α : Type} {p : Tx α} {a : Except Exn α}
    {Q : Except Exn α → Unit → Prop} (hrun : p.Performs (Stores drawn i) w a w')
    (hp : p.Meets (Program.only Fitting) () Q) (h : Alone i w s) (hs : Kept s.rows)
    (hs' : Kept s.committed) :
    p.Performs (Does Fault.exn (outside fun _ _ => true) drawn.Answers i) w a w' ∧
      ∃ s', Alone i w' s' ∧ Kept s'.rows ∧ Kept s'.committed := by
  induction hrun generalizing s with
  | ret a w => exact ⟨.ret a w, s, h, hs, hs'⟩
  | raise e w => exact ⟨.raise e w, s, h, hs, hs'⟩
  | @call c k w w₁ w₂ r a does rest ih =>
    obtain ⟨hc, hnext⟩ := hp
    cases does with
    | refused hrefused => cases (not_unstorable h hs hc).symm.trans hrefused
    | done hfits hdoes =>
      obtain ⟨x, v, rfl, he, hv⟩ := hdoes
      obtain ⟨_, -, hmeets⟩ := hnext (.ok v) trivial
      obtain ⟨hkept, hkept'⟩ := hs.next hs' hc
      obtain ⟨hrest, hend⟩ := ih hmeets (h.exec he hv).2 hkept hkept'
      exact ⟨.call ⟨x, v, rfl, he, hv⟩ hrest, hend⟩

/-- A transaction of a call that PostgreSQL takes. -/
theorem OutboxCall.meets_fitting {call : OutboxCall} (h : call.Storable) :
    call.transaction.Meets (Program.only Fitting) () fun _ _ => True := by
  have hstrict : call.operation.Strict Fitting := (strict_operation h).mono fun _ hc => hc.1
  have hend : ∀ {c : Command} {Q : Except Exn c.Reply → Unit → Prop}, Fitting c → (∀ r, Q r ()) →
      (perform c).Meets (Program.only Fitting) () Q :=
    fun hc hQ => Program.meets_perform.mpr ⟨hc, fun r _ => ⟨(), trivial, hQ r⟩⟩
  refine meets_transactionRunner.mpr (hstrict.meets_only.mono fun r _ _ => ?_)
  cases r with
  | error e => exact hend trivial fun r => by cases r <;> trivial
  | ok a =>
    refine hend trivial fun r => ?_
    cases r with
    | error e => exact hend trivial fun r => by cases r <;> trivial
    | ok u => trivial

end Stored

/-! ### Rows and messages -/

/-- The rows of the outbox are the messages of the store; whoever is published has no owner. -/
structure Represents (rows : Rows) (seq : Sequence → ℕ) (store : ReferenceStore) : Prop where
  messages : ∀ id, (rows (.message id)).map (OutboxMessageModel.detach id) =
    Dictionary.get OutboxMessage.id store.values id
  nodup : (store.values.map OutboxMessage.id).Nodup
  released : ∀ message ∈ store.values, message.publishedAt ≠ none → message.leaseOwner = none
  tasks : ∀ id, (rows (.task id)).isSome = store.taskTaken id
  next : seq .tasks = store.nextTask

/-- An assignment of a message, and one of its row. -/
theorem Represents.set {rows rows' : Rows} {seq : Sequence → ℕ} {store : ReferenceStore}
    (h : Represents rows seq store) {id : Uuid} {row : OutboxMessageModel}
    (hrow : rows' = Function.update rows (.message id) (some row))
    (hreleased : row.publishedAt ≠ none → row.leaseOwner = none) :
    Represents rows' seq
      { store with values := Dictionary.set OutboxMessage.id store.values (row.detach id) } where
  messages := by
    intro id'
    rw [Dictionary.get_set, hrow]
    by_cases hid : id' = id
    · subst hid
      rw [Function.update_self, Option.map_some]
      exact (if_pos rfl).symm
    · have hne : Key.message id' ≠ .message id := fun heq => hid (by cases heq; rfl)
      rw [Function.update_of_ne hne, h.messages]
      exact (if_neg hid).symm
  nodup := Dictionary.nodup_set h.nodup
  released := by
    intro message hmem
    rcases Dictionary.mem_set hmem with rfl | hmem
    · exact hreleased
    · exact h.released message hmem
  tasks := by
    intro id'
    rw [hrow, Function.update_of_ne (by simp)]
    exact h.tasks id'
  next := h.next

section

variable {rows : Rows} {seq : Sequence → ℕ} {store : ReferenceStore} {id : Uuid}

theorem Represents.get_of_row (h : Represents rows seq store) {row : OutboxMessageModel}
    (hrow : rows (.message id) = some row) :
    Dictionary.get OutboxMessage.id store.values id = some (row.detach id) := by
  rw [← h.messages, hrow]
  rfl

theorem Represents.get_of_none (h : Represents rows seq store)
    (hrow : rows (.message id) = none) :
    Dictionary.get OutboxMessage.id store.values id = none := by
  rw [← h.messages, hrow]
  rfl

/-- The owner of a message leaves it unpublished. -/
theorem Represents.unpublished (h : Represents rows seq store) {row : OutboxMessageModel}
    {owner : String} (hrow : rows (.message id) = some row) (howner : row.leaseOwner = some owner) :
    row.publishedAt = none := by
  by_contra hpublished
  have hmem := Dictionary.mem_of_get (h.get_of_row hrow)
  cases howner.symm.trans (h.released _ hmem hpublished)

/-- A task id is drawn. -/
theorem Represents.draw (h : Represents rows seq store) :
    Represents rows (Function.update seq .tasks (seq .tasks + 1))
      { store with nextTask := store.nextTask + 1 } :=
  ⟨h.messages, h.nodup, h.released, h.tasks, by rw [Function.update_self, h.next]⟩

/-- A task is added. -/
theorem Represents.addTask (h : Represents rows seq store) (id : ℕ) (row : TaskModel) :
    Represents (Function.update rows (.task id) (some row)) seq
      { store with taskTaken := Function.update store.taskTaken id true } where
  messages := by
    intro id'
    rw [Function.update_of_ne (by simp)]
    exact h.messages id'
  nodup := h.nodup
  released := h.released
  tasks := by
    intro id'
    by_cases hid : id' = id
    · subst hid
      rw [Function.update_self]
      exact (Function.update_self (f := store.taskTaken) id' true).symm
    · have hne : Key.task id' ≠ .task id := fun heq => hid (by cases heq; rfl)
      rw [Function.update_of_ne hne, h.tasks]
      exact (Function.update_of_ne hid true store.taskTaken).symm
  next := h.next

end

/-! ### One call -/

/-- What a call reaches: the result of the reference, and the rows of its store, unless it
raises. -/
structure Reaches {α : Type} (reference : Except Exn α × ReferenceStore) (rows : Rows)
    (r : Except Exn α) (s' : DbSession) : Prop where
  result : r = reference.1
  ok : ∀ a, r = .ok a → Represents s'.rows s'.seq reference.2
  error : ∀ e, r = .error e → Represents rows s'.seq reference.2

theorem Reaches.returned {α : Type} {store : ReferenceStore} {rows : Rows} {a : α}
    {s' : DbSession} (h : Represents s'.rows s'.seq store) :
    Reaches (.ok a, store) rows (.ok a) s' :=
  ⟨rfl, fun _ _ => h, fun e he => by cases he⟩

theorem Reaches.raised {α : Type} {store : ReferenceStore} {rows : Rows} {e : Exn}
    {s' : DbSession} (h : Represents rows s'.seq store) :
    Reaches (α := α) (.error e, store) rows (.error e) s' :=
  ⟨rfl, (fun a ha => by cases ha), fun _ _ => h⟩

section Calls

variable {drawn : Drawn} {store : ReferenceStore} {s : DbSession}

theorem alone_now {Q : Except Exn Instant → DbSession → Prop} (h : Q (.ok drawn.now) s) :
    (call .now).Meets (sequential drawn.Answers) s Q := by
  refine alone_call.mpr fun t ht => ?_
  obtain rfl : t = drawn.now := ht
  exact h

/-- **The guard `published_at IS NULL` decides nothing**: the `UPDATE` of `mark_published` and
`mark_failed` does what the owner of the lease may do. -/
theorem alone_owned {id : Uuid} {owner : String} {f : OutboxMessageModel → OutboxMessageModel}
    {g : OutboxMessage → OutboxMessage} (h : Represents s.rows s.seq store)
    (hf : ∀ row, (f row).detach id = g (row.detach id))
    (hreleased : ∀ row, row.publishedAt = none → (f row).publishedAt ≠ none →
      (f row).leaseOwner = none) :
    (update (.message id) (OutboxRepository.ownedUnpublished owner) f).Meets
      (sequential drawn.Answers) s fun r s' => ∃ updated, r = .ok updated ∧
        updated.isSome = (ReferenceStore.owned id owner g store.values).1 ∧
        Represents s'.rows s'.seq
          { store with values := (ReferenceStore.owned id owner g store.values).2 } := by
  -- both look the message up, and both leave it alone unless the owner has it leased
  rcases hrow : s.rows (.message id) with _ | row
  · have hnone : ReferenceStore.owned id owner g store.values = (false, store.values) := by
      rw [ReferenceStore.owned, h.get_of_none hrow]
    refine alone_update_unmatched (by rw [hrow]; rfl) ⟨none, rfl, ?_, ?_⟩
    · rw [hnone]
      rfl
    · rw [hnone]
      exact h
  · by_cases howner : row.leaseOwner = some owner
    · have hmatch : OutboxRepository.ownedUnpublished owner row = true := by
        rw [OutboxRepository.ownedUnpublished, howner, h.unpublished hrow howner, beq_self_eq_true]
        rfl
      have hsome : ReferenceStore.owned id owner g store.values =
          (true, Dictionary.set OutboxMessage.id store.values ((f row).detach id)) := by
        rw [ReferenceStore.owned, h.get_of_row hrow, hf]
        exact if_neg (not_not.mpr howner)
      refine alone_update hrow hmatch ⟨some (f row), rfl, ?_, ?_⟩
      · rw [hsome]
        rfl
      · rw [hsome]
        exact h.set rfl (hreleased row (h.unpublished hrow howner))
    · have hmatch : OutboxRepository.ownedUnpublished owner row = false := by
        rw [OutboxRepository.ownedUnpublished, beq_eq_false_iff_ne.mpr howner, Bool.false_and]
      have hnone : ReferenceStore.owned id owner g store.values = (false, store.values) := by
        rw [ReferenceStore.owned, h.get_of_row hrow]
        exact if_pos howner
      refine alone_update_unmatched ?_ ⟨none, rfl, ?_, ?_⟩
      · rw [hrow, Option.filter_some, hmatch]
        rfl
      · rw [hnone]
        rfl
      · rw [hnone]
        exact h

theorem reaches_acknowledgeMessage (h : Represents s.rows s.seq store) (id : Uuid)
    (owner : String) :
    (acknowledgeMessage id owner).Meets (sequential drawn.Answers) s
      (Reaches (store.acknowledgeMessage id owner drawn) s.rows) := by
  refine Program.meets_bind.mpr (alone_now ?_)
  refine Program.meets_bind.mpr ((alone_owned
    (g := fun message => message.published drawn.now) h (fun _ => rfl) fun _ _ _ => rfl).mono ?_)
  rintro _ s' ⟨updated, rfl, hupdated, hrepresents⟩
  exact ⟨congrArg Except.ok hupdated, fun _ _ => hrepresents, fun e he => by cases he⟩

theorem reaches_failMessage (h : Represents s.rows s.seq store) (id : Uuid)
    (owner error : String) :
    (failMessage id owner error).Meets (sequential drawn.Answers) s
      (Reaches (store.failMessage id owner error) s.rows) := by
  refine Program.meets_bind.mpr ((alone_owned
    (f := fun row => { row with lastError := some (safeError error) })
    (g := fun message => message.failed (safeError error)) h (fun _ => rfl)
    fun row hnone hsome => absurd hnone hsome).mono ?_)
  rintro _ s' ⟨updated, rfl, hupdated, hrepresents⟩
  exact ⟨congrArg Except.ok hupdated, fun _ _ => hrepresents, fun e he => by cases he⟩

/-- The message of a new task is added, or its id is taken. -/
theorem reaches_addMessage {task : TaskResult} {message : OutboxMessage} {rows : Rows}
    (hmessage : message.publishedAt = none) (htaken : store.taskTaken task.id = false)
    (hbefore : Represents rows s.seq store)
    (h : Represents s.rows s.seq
      { store with taskTaken := Function.update store.taskTaken task.id true }) :
    ((OutboxRepository.add message).bind fun _ => .ret ⟨task, message.id⟩).Meets
      (sequential drawn.Answers) s (Reaches (store.addTask task message) rows) := by
  refine Program.meets_bind.mpr (Program.meets_bind.mpr (alone_insert (fun hfree => ?_) ?_))
  · have hadd : ReferenceStore.add message store.values =
        .ok (Dictionary.set OutboxMessage.id store.values message) := by
      have hnone : Dictionary.get OutboxMessage.id store.values message.id = none :=
        h.get_of_none hfree
      rw [ReferenceStore.add, hnone]
      rfl
    rw [ReferenceStore.addTask, htaken, hadd]
    exact Reaches.returned (h.set rfl fun hpublished => absurd hmessage hpublished)
  · intro row hrow
    have hadd : ReferenceStore.add message store.values = .error (.integrityError
        "duplicate key value violates unique constraint \"pk_outbox_messages\"") := by
      have hsome : Dictionary.get OutboxMessage.id store.values message.id =
          some (OutboxMessageModel.detach message.id row) := h.get_of_row hrow
      rw [ReferenceStore.add, hsome]
      rfl
    rw [ReferenceStore.addTask, htaken, hadd]
    exact Reaches.raised hbefore

theorem reaches_createTask (h : Represents s.rows s.seq store) (userId : ℕ) (title : String)
    (description : Option String) (messageId : Option Uuid) :
    (createTask userId title description messageId).Meets (sequential drawn.Answers) s
      (Reaches (store.createTask userId title description messageId drawn) s.rows) := by
  unfold createTask
  rw [Program.bind_eq, Program.meets_bind]
  refine alone_now ?_
  rw [Program.onOk_ok, Program.bind_eq, Program.meets_bind, meets_liftExcept,
    ReferenceStore.createTask]
  rcases normalizeTitle title with e | title'
  · exact Reaches.raised h
  rw [Program.onOk_ok, Program.bind_eq, Program.meets_bind, meets_liftExcept]
  rcases normalizeDescription description with e | description'
  · exact Reaches.raised h
  rw [Program.onOk_ok, Program.bind_eq, Program.meets_bind, TaskRepository.add, Program.bind_eq,
    Program.meets_bind, alone_nextval, Program.onOk_ok, Program.bind_eq, Program.meets_bind,
    h.next]
  -- both draw the number first, and keep it where the insert fails
  have hdraw := h.draw
  rw [h.next] at hdraw
  refine alone_insert (fun hfree => ?_) fun row hrow => ?_
  · have htaken : store.taskTaken store.nextTask = false := by
      rw [← h.tasks, hfree]
      rfl
    have hadded := hdraw.addTask store.nextTask ⟨userId, title', description', false, none,
      drawn.now, drawn.now⟩
    simp only [Program.onOk_ok, Bool.true_eq_false, if_false, Program.pure_eq, Program.meets_ret,
      TaskModel.detach, taskResult, liftExcept, Program.bind_eq, Program.ret_bind]
    cases messageId with
    | some outboxId => exact reaches_addMessage rfl htaken hdraw hadded
    | none =>
      refine Program.meets_bind.mpr (alone_call.mpr fun outboxId houtbox => ?_)
      obtain rfl : outboxId = drawn.uuid := houtbox
      exact reaches_addMessage rfl htaken hdraw hadded
  · have htaken : store.taskTaken store.nextTask = true := by
      rw [← h.tasks, hrow]
      rfl
    simp only [ReferenceStore.addTask, htaken]
    exact Reaches.raised hdraw

theorem mem_oldest {now : Instant} {values : List OutboxMessage} {message : OutboxMessage} :
    message ∈ ReferenceStore.oldest now values ↔
      message ∈ values ∧ ReferenceStore.eligible now message = true := by
  rw [ReferenceStore.oldest, List.mem_insertionSort, List.mem_filter]

theorem nodup_oldest {now : Instant} {values : List OutboxMessage}
    (h : (values.map OutboxMessage.id).Nodup) :
    ((ReferenceStore.oldest now values).map OutboxMessage.id).Nodup := by
  have hperm := (List.perm_insertionSort
    (fun a b => ReferenceStore.age a ≤ ReferenceStore.age b)
    (values.filter (ReferenceStore.eligible now))).map OutboxMessage.id
  exact hperm.nodup_iff.mpr (h.sublist (List.filter_sublist.map _))

/-- They are the messages a claim may take, in its order. -/
theorem Represents.lists (h : Represents s.rows s.seq store) (hfree : ∀ k, ¬ s.blocked k)
    (now : Instant) :
    Lists now s ((ReferenceStore.oldest now store.values).map OutboxMessage.id) where
  mem := by
    intro id
    rw [List.mem_map]
    constructor
    · rintro ⟨message, hmem, rfl⟩
      obtain ⟨hvalue, heligible⟩ := mem_oldest.mp hmem
      have hget := (Dictionary.mem_iff_get h.nodup).mp hvalue
      rw [← h.messages] at hget
      obtain ⟨row, hrow, hdetach⟩ := Option.map_eq_some_iff.mp hget
      rw [← hdetach] at heligible
      exact ⟨⟨row, hrow, heligible⟩, hfree _⟩
    · rintro ⟨⟨row, hrow, heligible⟩, -⟩
      refine ⟨row.detach id, mem_oldest.mpr ⟨?_, heligible⟩, rfl⟩
      exact Dictionary.mem_of_get (h.get_of_row hrow)
  -- both sort by age, and the ids decide between messages of the same age
  sorted := by
    have hsorted := List.pairwise_insertionSort
      (fun a b => ReferenceStore.age a ≤ ReferenceStore.age b)
      (store.values.filter (ReferenceStore.eligible now))
    have hnodup : (ReferenceStore.oldest now store.values).Pairwise fun a b => a.id ≠ b.id :=
      List.pairwise_map.mp (nodup_oldest h.nodup)
    refine List.pairwise_map.mpr ((hsorted.and hnodup).imp_of_mem ?_)
    intro a b ha hb hab rowA rowB hrowA hrowB
    have hvalue : ∀ {message : OutboxMessage} {row : OutboxMessageModel},
        message ∈ ReferenceStore.oldest now store.values →
        s.rows (.message message.id) = some row → row.detach message.id = message := by
      intro message row hmem hrow
      have hget := (Dictionary.mem_iff_get h.nodup).mp (mem_oldest.mp hmem).1
      exact Option.some_inj.mp ((h.get_of_row hrow).symm.trans hget)
    have hle : rowA.age a.id ≤ rowB.age b.id := by
      have hage := hab.1
      rw [← hvalue ha hrowA, ← hvalue hb hrowB] at hage
      exact hage
    refine lt_of_le_of_ne hle fun heq => hab.2 ?_
    exact BitVec.eq_of_toNat_eq (congrArg (fun age => (ofLex age).2) heq)

/-- What a claim answers about a message. -/
def answered (message : OutboxMessage) : ClaimedMessage :=
  ⟨message.id, message.topic, message.payload, message.attemptCount⟩

section Claimed

variable {owner : String} {expiresAt now : Instant} {limit : ℕ} {claimed : List ClaimedMessage}
  {rows : Rows}

/-- A message of the claim and its row. -/
theorem Represents.row_of_oldest (h : Represents s.rows s.seq store) {message : OutboxMessage}
    (hmem : message ∈ ReferenceStore.oldest now store.values) :
    ∃ row, s.rows (.message message.id) = some row ∧ row.detach message.id = message := by
  have hget := (Dictionary.mem_iff_get h.nodup).mp (mem_oldest.mp hmem).1
  rw [← h.messages] at hget
  exact Option.map_eq_some_iff.mp hget

/-- **A claim takes the messages of the reference**, in its order. -/
theorem Represents.claimed_eq (h : Represents s.rows s.seq store) (hfree : ∀ k, ¬ s.blocked k)
    (hclaims : Claims owner expiresAt now limit s claimed rows) :
    claimed =
      (ReferenceStore.claimBatch owner now expiresAt limit store.values).1.map answered := by
  obtain ⟨ids, hlists, hids⟩ := hclaims.first
  obtain rfl := hlists.unique (h.lists hfree now)
  -- both are what the rows of the same ids answer
  have hrows : claimed.map some =
      (claimed.map (·.id)).map fun id => (s.rows (.message id)).map (·.claimedMessage id) := by
    rw [List.map_map]
    refine List.map_congr_left fun message hmem => ?_
    obtain ⟨row, hrow, hmessage, -⟩ := hclaims.leased message hmem
    show some message = (s.rows (.message message.id)).map _
    rw [hrow, Option.map_some, ← hmessage]
  have hvalues : ((ReferenceStore.claimBatch owner now expiresAt limit store.values).1.map
      answered).map some = (((ReferenceStore.oldest now store.values).take limit).map
        OutboxMessage.id).map fun id => (s.rows (.message id)).map (·.claimedMessage id) := by
    rw [ReferenceStore.claimBatch, List.map_map, List.map_map, List.map_map]
    refine List.map_congr_left fun message hmem => ?_
    obtain ⟨row, hrow, hdetach⟩ := h.row_of_oldest (List.mem_of_mem_take hmem)
    show some (answered (message.leased owner expiresAt now)) =
      (s.rows (.message message.id)).map _
    rw [hrow, Option.map_some, ← hdetach]
    rfl
  refine List.map_injective_iff.mpr (Option.some_injective _) ?_
  rw [hrows, hvalues, hids, ← List.map_take]

theorem mem_claimBatch {values : List OutboxMessage} {message : OutboxMessage}
    (hmem : message ∈ (ReferenceStore.claimBatch owner now expiresAt limit values).1) :
    ∃ old ∈ ReferenceStore.oldest now values, message = old.leased owner expiresAt now := by
  obtain ⟨old, hold, rfl⟩ := List.mem_map.mp hmem
  exact ⟨old, List.mem_of_mem_take hold, rfl⟩

/-- **And it leaves what the reference leaves.** -/
theorem Represents.claim (h : Represents s.rows s.seq store) (hfree : ∀ k, ¬ s.blocked k)
    (hclaims : Claims owner expiresAt now limit s claimed rows) :
    Represents rows s.seq
      { store with
        values := (ReferenceStore.claimBatch owner now expiresAt limit store.values).2 } where
  messages := by
    intro id
    have hclaimed := h.claimed_eq hfree hclaims
    have hnodup : ((ReferenceStore.claimBatch owner now expiresAt limit store.values).1.map
        OutboxMessage.id).Nodup := by
      rw [ReferenceStore.claimBatch, List.map_map]
      exact (nodup_oldest h.nodup).sublist ((List.take_sublist _ _).map OutboxMessage.id)
    show _ = Dictionary.get OutboxMessage.id (Dictionary.update OutboxMessage.id store.values
      (ReferenceStore.claimBatch owner now expiresAt limit store.values).1) id
    rw [Dictionary.get_update hnodup]
    -- what is not claimed stays, and what is claimed is leased in both
    rcases hget : Dictionary.get OutboxMessage.id
        (ReferenceStore.claimBatch owner now expiresAt limit store.values).1 id with _ | message
    · rw [Option.none_or, ← h.messages, hclaims.others]
      intro message hmem heq
      cases heq
      rw [hclaimed] at hmem
      obtain ⟨old, hold, rfl⟩ := List.mem_map.mp hmem
      exact Dictionary.get_eq_none.mp hget (List.mem_map_of_mem hold)
    · obtain rfl := Dictionary.key_of_get hget
      have hmem := Dictionary.mem_of_get hget
      have hanswered : answered message ∈ claimed := by
        rw [hclaimed]
        exact List.mem_map_of_mem hmem
      obtain ⟨row, hrow, -, hleased⟩ := hclaims.leased _ hanswered
      obtain ⟨old, hold, rfl⟩ := mem_claimBatch hmem
      obtain ⟨row', hrow', hdetach⟩ := h.row_of_oldest hold
      obtain rfl : row = row' := Option.some_inj.mp (hrow.symm.trans hrow')
      have hrows : rows (.message old.id) = some (row.leased owner expiresAt) := hleased
      show (rows (.message old.id)).map _ = some _
      rw [hrows, Option.map_some, ← hdetach]
      rfl
  nodup := Dictionary.nodup_update h.nodup
  released := by
    intro message hmem hpublished
    rcases Dictionary.mem_update hmem with hmem | hmem
    · obtain ⟨old, hold, rfl⟩ := mem_claimBatch hmem
      have heligible := (mem_oldest.mp hold).2
      rw [ReferenceStore.eligible, Bool.and_eq_true, Option.isNone_iff_eq_none] at heligible
      exact absurd heligible.1 hpublished
    · exact h.released message hmem hpublished
  tasks := by
    intro id
    rw [hclaims.others _ (by simp)]
    exact h.tasks id
  next := h.next

end Claimed

theorem reaches_claimMessages (h : Represents s.rows s.seq store) (hfree : ∀ k, ¬ s.blocked k)
    (owner : String) (leaseDuration : Duration) (limit : ℕ) :
    (claimMessages owner leaseDuration limit).Meets (sequential drawn.Answers) s
      (Reaches (store.claimMessages owner leaseDuration limit drawn) s.rows) := by
  by_cases hrefused : Refused owner leaseDuration limit
  · unfold claimMessages ReferenceStore.claimMessages
    split
    · exact Reaches.raised h
    split
    · exact Reaches.raised h
    split
    · exact Reaches.raised h
    · rename_i howner hlease hlimit
      obtain hrefused | hrefused | hrefused := hrefused
      · exact absurd hrefused howner
      · exact absurd hrefused hlease
      · exact absurd hrefused hlimit
  -- the settings are accepted by both
  · have hreference : store.claimMessages owner leaseDuration limit drawn =
        (.ok ((ReferenceStore.claimBatch owner drawn.now (drawn.now + leaseDuration) limit
          store.values).1.map answered),
          { store with
            values := (ReferenceStore.claimBatch owner drawn.now (drawn.now + leaseDuration) limit
              store.values).2 }) := by
      obtain ⟨howner, hlease, hlimit⟩ : owner ≠ "" ∧ ¬ leaseDuration ≤ 0 ∧
          ¬ (limit < 1 ∨ limit > 1000) := by
        simpa only [Refused, not_or] using hrefused
      rw [ReferenceStore.claimMessages, if_neg howner, if_neg hlease, if_neg hlimit]
      rfl
    rw [claimMessages_accepted hrefused, hreference]
    refine Program.meets_bind.mpr (alone_now ?_)
    refine Program.meets_bind.mpr
      ((strict_keeps (strict_claimBatch _ _ _ _) next_seq alone_claimBatch).mono ?_)
    rintro _ s' ⟨⟨messages, rfl, hclaims⟩, hseq⟩
    have hclaimed := h.claimed_eq hfree hclaims
    have hclaim := h.claim hfree hclaims
    rw [← hseq] at hclaim
    rw [← hclaimed]
    exact Reaches.returned hclaim

/-- **A call does in the database what it does in the reference store.** -/
theorem OutboxCall.reaches (call : OutboxCall) (h : Represents s.rows s.seq store)
    (hfree : ∀ k, ¬ s.blocked k) :
    call.operation.Meets (sequential drawn.Answers) s
      (Reaches (call.reference drawn store) s.rows) := by
  cases call with
  | createTask userId title description messageId => exact reaches_createTask h _ _ _ _
  | claimMessages owner leaseDuration limit => exact reaches_claimMessages h hfree _ _ _
  | acknowledgeMessage messageId owner => exact reaches_acknowledgeMessage h _ _
  | failMessage messageId owner error => exact reaches_failMessage h _ _ _

end Calls

/-! ### Sequences of calls -/

/-- The reference store of a database without messages. -/
def ReferenceStore.start (w : Db) : ReferenceStore :=
  ⟨[], fun id => (w.row (.task id)).isSome, w.seq .tasks⟩

/-- Between two calls the database is the reference store. -/
structure Refines (w : Db) (store : ReferenceStore) : Prop where
  rest : AtRest w
  kept : Kept w.row
  represents : Represents w.row w.seq store

theorem Refines.start {w : Db} (hw : AtRest w) (hempty : ∀ id, w.row (.message id) = none) :
    Refines w (.start w) where
  rest := hw
  kept := by
    intro id row hrow
    cases hrow.symm.trans (hempty id)
  represents :=
    { messages := by
        intro id
        rw [hempty]
        rfl
      nodup := List.nodup_nil
      released := by
        intro message hmem
        cases hmem
      tasks := fun _ => rfl
      next := rfl }

/-- **One call**: the same result, and the database is the reference store again. -/
theorem Refines.call {w w' : Db} {store : ReferenceStore} {call : OutboxCall} {drawn : Drawn}
    {i : ℕ} {result : Except Exn call.Result} (hw : Refines w store) (hcall : call.Storable)
    (hrun : call.transaction.Performs (Stores drawn i) w result w') :
    result = (call.reference drawn store).1 ∧ Refines w' (call.reference drawn store).2 := by
  have halone := Alone.of_unlocked (i := i) hw.rest
  obtain ⟨hdoes, s, hs, -, hkept⟩ :=
    performs_of_stores hrun (OutboxCall.meets_fitting hcall) halone hw.kept hw.kept
  have hreach : call.operation.Meets (sequential drawn.Answers)
      ⟨w.row, w.row, w.seq, fun _ => False⟩ (Reaches (call.reference drawn store) w.row) :=
    call.reaches hw.represents fun _ => id
  obtain ⟨s', hs', s₁, hreaches, hseq, hok, herror⟩ :=
    halone.performs hdoes (alone_transaction (OutboxCall.strict_operation hcall) hreach)
  have hrow : w'.row = s'.committed := funext hs'.committed
  refine ⟨hreaches.result, hdoes.unlocks meets_transaction_freeing hw.rest, ?_, ?_⟩
  · rw [funext hs.committed]
    exact hkept
  · rw [hrow, hs'.seq, hseq]
    cases hresult : result with
    | ok a =>
      rw [hok a hresult]
      exact hreaches.ok a hresult
    | error e =>
      rw [herror e hresult]
      exact hreaches.error e hresult

theorem OutboxRun.refines {w w' : Db} {calls : List DrawnCall} {results : List Answer}
    {store : ReferenceStore} (run : OutboxRun w calls results w')
    (hcalls : ∀ x ∈ calls, x.1.Storable) (hw : Refines w store) :
    results = (store.run calls).1 ∧ Refines w' (store.run calls).2 := by
  induction run generalizing store with
  | nil w => exact ⟨rfl, hw⟩
  | @cons w w₁ w' call drawn calls result results i first rest ih =>
    obtain ⟨hcall, hrest⟩ := List.forall_mem_cons.mp hcalls
    obtain ⟨rfl, hw₁⟩ := hw.call hcall first
    obtain ⟨rfl, hw'⟩ := ih hrest hw₁
    exact ⟨rfl, hw'⟩

/-- Every call can be run. -/
theorem Drawn.exists_answer (drawn : Drawn) (queue : Queue) (x : Outside) :
    ∃ (d : Decision) (v : x.Reply) (queue' : Queue),
      outside (fun _ _ => true) queue x d = some (.ok v, queue') ∧ drawn.Answers x v := by
  cases x with
  | now => exact ⟨.time drawn.now, _, _, rfl, rfl⟩
  | serverNow => exact ⟨.time 0, _, _, rfl, trivial⟩
  | uuid4 => exact ⟨.uuid drawn.uuid, _, _, rfl, rfl⟩
  | hash password => exact ⟨.hashed "", _, _, rfl, trivial⟩
  | verify password passwordHash => exact ⟨.upgrade none, _, _, rfl, trivial⟩
  | verifyUnknown password => exact ⟨.verified, _, _, rfl, trivial⟩
  | enqueue call => exact ⟨.accepted, _, _, rfl, trivial⟩

theorem Refines.exists_run {w : Db} {store : ReferenceStore} {calls : List DrawnCall}
    (hw : Refines w store) (hcalls : ∀ x ∈ calls, x.1.Storable) :
    ∃ results w', OutboxRun w calls results w' := by
  induction calls generalizing w store with
  | nil => exact ⟨[], w, .nil w⟩
  | cons x calls ih =>
    obtain ⟨call, drawn⟩ := x
    obtain ⟨hcall, hrest⟩ := List.forall_mem_cons.mp hcalls
    have hstep : ∀ w : Db, (∃ s, Alone 0 w s ∧ ∀ k, ¬ s.blocked k) → ∀ c, ∃ r w',
        Stores drawn 0 w c r w' ∧ ∃ s, Alone 0 w' s ∧ ∀ k, ¬ s.blocked k := by
      rintro w ⟨s, hs, hfree⟩ c
      cases hc : unstorable 0 w c with
      | true => exact ⟨_, w, .refused hc, s, hs, hfree⟩
      | false =>
        obtain ⟨x, v, w', he, hv⟩ : ∃ (x : Choice Fault Decision) (v : c.Reply) (w' : Db),
            exec Fault.exn (outside fun _ _ => true) w 0 c x = some (.ok v, w') ∧
              Answered drawn.Answers c v :=
          hs.exists_exec hfree drawn.exists_answer c
        refine ⟨.ok v, w', .done hc ⟨x, v, rfl, he, hv⟩, s.next c, (hs.exec he hv).2, ?_⟩
        rw [Session.next_blocked]
        exact hfree
    obtain ⟨result, w₁, first, -⟩ := Program.exists_performs hstep call.transaction
      ⟨_, Alone.of_unlocked hw.rest, fun _ => id⟩
    obtain ⟨results, w', rest⟩ := ih (hw.call hcall first).2 hrest
    exact ⟨⟨call, result⟩ :: results, w', .cons first rest⟩

/-- A task whose message is claimed, published and acknowledged twice. -/
def relayCalls : List DrawnCall :=
  [(.createTask 1 "A" none none, ⟨0, 7⟩), (.claimMessages "relay" 60 25, ⟨1, 0⟩),
    (.acknowledgeMessage 7 "relay", ⟨2, 0⟩), (.acknowledgeMessage 7 "relay", ⟨3, 0⟩)]

theorem storable_relayCalls : ∀ x ∈ relayCalls, x.1.Storable := by
  simp only [relayCalls, List.forall_mem_cons, OutboxCall.Storable]
  refine ⟨⟨by decide, fun text h => by cases h⟩, by decide, by decide, by decide, ?_⟩
  exact fun x hx => by cases hx

instance Drawn.decidableAnswers (drawn : Drawn) :
    (x : Outside) → (v : x.Reply) → Decidable (drawn.Answers x v)
  | .now, t => inferInstanceAs (Decidable (t = drawn.now))
  | .uuid4, u => inferInstanceAs (Decidable (u = drawn.uuid))
  | .serverNow, _ => inferInstanceAs (Decidable True)
  | .hash _, _ => inferInstanceAs (Decidable True)
  | .verify _ _, _ => inferInstanceAs (Decidable True)
  | .verifyUnknown _, _ => inferInstanceAs (Decidable True)
  | .enqueue _, _ => inferInstanceAs (Decidable True)

/-- One statement, as the environment decides. -/
def attemptStores (drawn : Drawn) (i : ℕ) (w : Db) (c : Command) (x : Choice Fault Decision) :
    Option (Except Exn c.Reply × Db) :=
  if unstorable i w c then some (.error dataError, w)
  else attempt Fault.exn (outside fun _ _ => true) drawn.Answers i w c x

theorem stores_of_attempt {drawn : Drawn} {i : ℕ} {w w' : Db} {c : Command}
    {x : Choice Fault Decision} {r : Except Exn c.Reply}
    (h : attemptStores drawn i w c x = some (r, w')) : Stores drawn i w c r w' := by
  unfold attemptStores at h
  split at h
  · rename_i hc
    cases h
    exact .refused hc
  · rename_i hc
    exact .done (Bool.eq_false_of_not_eq_true hc) (does_of_attempt h)

/-- An owner that `lease_owner` cannot hold. -/
def longOwner : String := String.ofList (List.replicate 201 'x')

/-- The first call of `relayCalls`, and a claim by that owner. -/
def longCalls : List DrawnCall :=
  [(.createTask 1 "A" none none, ⟨0, 7⟩), (.claimMessages longOwner 60 25, ⟨1, 0⟩)]

end Lsstack
