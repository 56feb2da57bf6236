/-
How every process of the task and outbox side talks to the database.

The ghost state of a process is what its current transaction has written so far
(`Effect`), its last clock reading, the batch a relay has claimed and what it
has published of it.  The protocol `outboxing` says which statements may follow
and which result a transaction may report:

* **`meets_createTask`**, **`meets_claimMessages`**, **`meets_acknowledgeMessage`**,
  **`meets_failMessage`** — one transaction each;
* **`meets_relayOnce`** — a relay acknowledges only what it has published;
* **`editing_simulates`** — the writers of single tasks, through `editing`;
* **`Request.meets`** — every request keeps to the protocol.
-/
import Lsstack.TaskEdits

namespace Lsstack

open Concurrency

/-! ### Rows and messages -/

/-- The row `createTask` adds to the outbox. -/
def freshMessage (taskId : ℕ) (createdAt : Instant) : OutboxMessageModel where
  topic := taskCreatedTopic
  payload := taskCreatedPayload taskId
  createdAt := createdAt
  publishedAt := none
  leaseOwner := none
  leaseExpiresAt := none
  attemptCount := 0
  lastError := none

namespace OutboxMessageModel

/-- The row after `mark_published`. -/
def acknowledged (publishedAt : Instant) (row : OutboxMessageModel) : OutboxMessageModel :=
  { row with
    publishedAt := some publishedAt
    leaseOwner := none
    leaseExpiresAt := none
    lastError := none }

/-- The row after `mark_failed`. -/
def failing (error : String) (row : OutboxMessageModel) : OutboxMessageModel :=
  { row with lastError := some error }

/-- What a claim answers about a row it has found as `model`. -/
def claimedMessage (id : Uuid) (model : OutboxMessageModel) : ClaimedMessage :=
  ⟨id, model.topic, model.payload, model.attemptCount + 1⟩

end OutboxMessageModel

/-! ### The protocol -/

/-- What a transaction has written so far. -/
inductive Effect where
  | nothing
  | drawn (taskId : ℕ)
  | task (taskId : ℕ) (row : TaskModel)
  | announced (taskId : ℕ) (row : TaskModel) (id : Uuid) (createdAt : Instant)
  | claim (owner : String) (expiresAt now : Instant)
      (locked : List (Uuid × OutboxMessageModel)) (leased : List Uuid)
  | acknowledge (id : Uuid) (owner : String)
  | fail (id : Uuid) (owner : String)
  | edit
  | mark (taskId : ℕ)
  | over

/-- The ghost state of a process. -/
structure OutboxGhost where
  request : Option Request
  clock : Option Instant
  effect : Effect
  created : Bool
  batch : List ClaimedMessage
  sent : List ClaimedMessage

namespace OutboxGhost

/-- Before its arrival. -/
def idle : OutboxGhost := ⟨none, none, .nothing, false, [], []⟩

/-- Nothing is written, and the request is not one of the worker's. -/
structure Ready (g : OutboxGhost) : Prop where
  effect : g.effect = .nothing
  user : ∃ q, g.request = some q ∧ q.marks = false

/-- The results a transaction may report, by what it has written. -/
def Written (g : OutboxGhost) : Outcome → Prop
  | .taskCreated result => g.created = false ∧ ∃ taskId row id createdAt,
      g.effect = .announced taskId row id createdAt ∧ result.task.id = taskId ∧
      result.outboxMessageId = id
  | .claimed owner messages =>
    (g.effect = .nothing ∧ messages = []) ∨
    ∃ expiresAt now locked leased, g.effect = .claim owner expiresAt now locked leased ∧
      g.clock = some now ∧ (∀ x ∈ locked, x.1 ∈ leased) ∧
      messages = locked.map fun x => x.2.claimedMessage x.1
  | .acknowledged id owner result =>
    g.effect = (if result then .acknowledge id owner else .nothing) ∧
    (g.request = some (.acknowledge id owner) ∨
      (result = true → ∃ message ∈ g.sent, message.id = id))
  | .failed id owner result => g.effect = if result then .fail id owner else .nothing
  | .taskUpdated _ => g.effect = .nothing ∨ g.effect = .edit
  | .taskToggled _ => g.effect = .nothing ∨ g.effect = .edit
  | .taskDeleted _ _ => g.effect = .nothing ∨ g.effect = .edit
  | .taskProcessed taskId _ => g.effect = .nothing ∨ g.effect = .mark taskId
  | _ => g.effect = .nothing

/-- The worker's requests report that their task is processed, the others
anything else. -/
def Reports (g : OutboxGhost) (out : Outcome) : Prop :=
  g.Written out ∧ ∃ q, g.request = some q ∧
    match out with
    | .taskProcessed taskId _ => q.marks = true ∧ q.task = some taskId
    | _ => q.marks = false

/-- A job that may be enqueued: the one for a claimed message. -/
def MayEnqueue (g : OutboxGhost) (call : EnqueueCall) (message : ClaimedMessage) : Prop :=
  message ∈ g.batch ∧ ∃ job, jobName message.topic = .ok job ∧ call = enqueueCall job message

/-- After the commit of a result. -/
def committed (g : OutboxGhost) (out : Outcome) : OutboxGhost :=
  { g with
    effect := .nothing
    created := match out with
      | .taskCreated _ => true
      | _ => g.created
    batch := match out with
      | .claimed _ messages => messages
      | _ => g.batch }

/-- What may follow a statement.  Errors and rows that are not found change
nothing. -/
def Does (g : OutboxGhost) : (c : Command) → Except Exn c.Reply → OutboxGhost → Prop
  | .select _ _, _, g' => g' = g
  | .scan _ _, _, g' => g' = g
  | .tryLock (.message id) p, .ok (some model), g' =>
    ∃ owner expiresAt now locked,
      (g.effect = .nothing ∧ locked = [] ∨ g.effect = .claim owner expiresAt now locked []) ∧
      g.clock = some now ∧ now < expiresAt ∧ p = OutboxRepository.eligible now ∧
      g' = { g with effect := .claim owner expiresAt now (locked ++ [(id, model)]) [] }
  | .tryLock _ _, .ok (some _), _ => False
  | .tryLock _ _, _, g' => g' = g
  | .update (.message id) p f, .ok (some _), g' =>
    (∃ owner expiresAt now locked leased model,
      g.effect = .claim owner expiresAt now locked leased ∧ (id, model) ∈ locked ∧
      f = OutboxRepository.lease owner expiresAt model ∧
      g' = { g with effect := .claim owner expiresAt now locked (id :: leased) }) ∨
    (∃ owner publishedAt, g.effect = .nothing ∧ p = OutboxRepository.ownedUnpublished owner ∧
      f = OutboxMessageModel.acknowledged publishedAt ∧
      g' = { g with effect := .acknowledge id owner }) ∨
    (∃ owner error, g.effect = .nothing ∧ p = OutboxRepository.ownedUnpublished owner ∧
      f = OutboxMessageModel.failing error ∧ g' = { g with effect := .fail id owner })
  | .update (.task taskId) p f, .ok (some _), g' =>
    (g.effect = .nothing ∧ g' = { g with effect := .edit }) ∨
    (g.effect = .nothing ∧ p = (fun row => row.backgroundProcessedAt.isNone) ∧
      (∃ stamp, f = TaskModel.marked stamp) ∧ g' = { g with effect := .mark taskId })
  | .update _ _ _, .ok (some _), _ => False
  | .update _ _ _, _, g' => g' = g
  | .insert (.task taskId) row, .ok true, g' =>
    g.effect = .drawn taskId ∧ g' = { g with effect := .task taskId row }
  | .insert (.message id) message, .ok true, g' =>
    ∃ taskId row createdAt, g.effect = .task taskId row ∧
      message = freshMessage taskId createdAt ∧
      g' = { g with effect := .announced taskId row id createdAt }
  | .insert _ _, .ok true, _ => False
  | .insert _ _, _, g' => g' = g
  | .delete (.task _) _, .ok (some _), g' =>
    g.effect = .nothing ∧ g' = { g with effect := .edit }
  | .delete _ _, .ok (some _), _ => False
  | .delete _ _, _, g' => g' = g
  | .nextval .tasks, .ok taskId, g' =>
    g.effect = .nothing ∧ g' = { g with effect := .drawn taskId }
  | .nextval _, .ok _, _ => False
  | .nextval _, _, g' => g' = g
  | .commit out, .ok _, g' => g' = g.committed out
  | .commit _, .error _, g' => g' = { g with effect := .over, created := true }
  | .rollback, _, g' => g' = { g with effect := .nothing }
  | .ext .now, .ok now, g' => g' = { g with clock := some now }
  | .ext (.enqueue call), .ok _, g' =>
    ∃ message, g.MayEnqueue call message ∧ g' = { g with sent := message :: g.sent }
  | .ext _, _, g' => g' = g
  | .lock _ _, _, _ => False

/-- What must hold before a statement. -/
def Permits (g : OutboxGhost) : Command → Prop
  | .commit out => g.Reports out
  | .ext (.enqueue call) => ∃ message, g.MayEnqueue call message
  | _ => True

end OutboxGhost

/-- The protocol of the task and outbox side. -/
def outboxing : Protocol Command Command.Reply Exn OutboxGhost where
  guard := OutboxGhost.Permits
  reply := fun _ _ _ => True
  step := OutboxGhost.Does

/-! ### Rules -/

section Rules

variable {g : OutboxGhost}

theorem outboxing_select {k : Key} {p : Row k → Bool}
    {Q : Except Exn (Option (Row k)) → OutboxGhost → Prop} (h : ∀ r, Q r g) :
    (select k p).Meets outboxing g Q :=
  Program.meets_perform.mpr ⟨trivial, fun r _ => ⟨g, rfl, h r⟩⟩

theorem outboxing_scan {p : (k : Key) × Row k → Bool}
    {le : (k : Key) × Row k → (k : Key) × Row k → Bool}
    {Q : Except Exn (List ((k : Key) × Row k)) → OutboxGhost → Prop} (h : ∀ r, Q r g) :
    (scan p le).Meets outboxing g Q :=
  Program.meets_perform.mpr ⟨trivial, fun r _ => ⟨g, rfl, h r⟩⟩

theorem outboxing_now {Q : Except Exn Instant → OutboxGhost → Prop}
    (hok : ∀ t, Q (.ok t) { g with clock := some t }) (herror : ∀ e, Q (.error e) g) :
    now.Meets outboxing g Q := by
  refine Program.meets_perform.mpr ⟨trivial, fun r _ => ?_⟩
  rcases r with e | t
  · exact ⟨g, rfl, herror e⟩
  · exact ⟨_, rfl, hok t⟩

theorem outboxing_uuid4 {Q : Except Exn Uuid → OutboxGhost → Prop} (h : ∀ r, Q r g) :
    (call .uuid4).Meets outboxing g Q := by
  refine Program.meets_perform.mpr ⟨trivial, fun r _ => ⟨g, ?_, h r⟩⟩
  rcases r with e | u <;> exact rfl

theorem outboxing_update {id : Uuid} {p : OutboxMessageModel → Bool}
    {f : OutboxMessageModel → OutboxMessageModel}
    {Q : Except Exn (Option OutboxMessageModel) → OutboxGhost → Prop}
    (hrow : ∀ row, ∃ g', g.Does (.update (.message id) p f) (.ok (some row)) g' ∧
      Q (.ok (some row)) g')
    (hnone : Q (.ok none) g) (herror : ∀ e, Q (.error e) g) :
    (update (.message id) p f).Meets outboxing g Q := by
  refine Program.meets_perform.mpr ⟨trivial, fun r _ => ?_⟩
  rcases r with e | _ | row
  · exact ⟨g, rfl, herror e⟩
  · exact ⟨g, rfl, hnone⟩
  · exact hrow row

theorem outboxing_insert {k : Key} {v : Row k} {Q : Except Exn Bool → OutboxGhost → Prop}
    (htrue : ∃ g', g.Does (.insert k v) (.ok true) g' ∧ Q (.ok true) g')
    (hfalse : Q (.ok false) g) (herror : ∀ e, Q (.error e) g) :
    (insert k v).Meets outboxing g Q := by
  refine Program.meets_perform.mpr ⟨trivial, fun r _ => ?_⟩
  rcases r with e | _ | _
  · exact ⟨g, by cases k <;> exact rfl, herror e⟩
  · exact ⟨g, by cases k <;> exact rfl, hfalse⟩
  · exact htrue

/-- A transaction ends with nothing written: it has reported its result, or it
has been rolled back. -/
theorem settled_outboxing {α : Type} {outcome : α → Outcome} {Q : Except Exn α → OutboxGhost → Prop}
    {r : Except Exn α}
    (hok : ∀ a, r = .ok a → g.Reports (outcome a) ∧ Q (.ok a) (g.committed (outcome a)))
    (herror : ∀ e created, Q (.error e) { g with effect := .nothing, created := created }) :
    settled outboxing outcome Q r g := by
  have hback : ∀ e created effect, rolledBack outboxing Q e
      { g with effect := effect, created := created } := by
    intro e created effect
    refine Program.meets_perform.mpr ⟨trivial, fun r _ => ⟨_, rfl, ?_⟩⟩
    rcases r with e' | u <;> exact herror _ _
  rcases r with e | a
  · exact hback e g.created g.effect
  · obtain ⟨hreports, hQ⟩ := hok a rfl
    refine Program.meets_perform.mpr ⟨hreports, fun r _ => ?_⟩
    rcases r with e | u
    · exact ⟨_, rfl, hback e true .over⟩
    · exact ⟨_, rfl, hQ⟩

theorem settled_outboxing_error {α : Type} {outcome : α → Outcome}
    {Q : Except Exn α → OutboxGhost → Prop} {e : Exn}
    (herror : ∀ e created, Q (.error e) { g with effect := .nothing, created := created }) :
    settled outboxing outcome Q (.error e) g :=
  settled_outboxing (fun _ h => by cases h) herror

end Rules

/-! ### Single transactions -/

section Transactions

variable {g : OutboxGhost}

/-- **A create draws an id, inserts the task and then its message.** -/
theorem meets_createTask (userId : ℕ) (title : String) (description : Option String)
    (hready : g.Ready) (hcreated : g.created = false) :
    (transactionRunner .taskCreated (createTask userId title description)).Meets outboxing g
      fun _ _ => True := by
  have herror : ∀ e g', settled outboxing (α := TaskCreatedResult) .taskCreated (fun _ _ => True)
      (.error e) g' := fun e g' => settled_outboxing_error fun _ _ => trivial
  unfold createTask
  refine meets_transactionRunner.mpr (Program.meets_bind.mpr (outboxing_now ?_ ?_))
  case refine_2 => exact fun e => herror e _
  -- title and description are checked before anything is written
  intro t
  rw [Program.onOk_ok, Program.bind_eq, Program.meets_bind, meets_liftExcept]
  rcases normalizeTitle title with e | title
  · exact herror e _
  rw [Program.onOk_ok, Program.bind_eq, Program.meets_bind, meets_liftExcept]
  rcases normalizeDescription description with e | description
  · exact herror e _
  rw [Program.onOk_ok, Program.bind_eq, Program.meets_bind, TaskRepository.add, Program.bind_eq,
    Program.meets_bind]
  refine Program.meets_perform.mpr ⟨trivial, fun r _ => ?_⟩
  rcases r with e | taskId
  · exact ⟨_, rfl, herror e _⟩
  refine ⟨_, ⟨hready.effect, rfl⟩, Program.meets_bind.mpr (outboxing_insert ?_ ?_ ?_)⟩
  case refine_2 => simpa using herror _ _
  case refine_3 => exact fun e => herror e _
  refine ⟨_, ⟨rfl, rfl⟩, ?_⟩
  simp only [Program.onOk_ok, Bool.true_eq_false, if_false, Program.pure_eq, Program.meets_ret,
    TaskModel.detach, taskResult, liftExcept, Program.bind_eq, Program.ret_bind]
  -- the message's id is drawn after the task's
  refine Program.meets_bind.mpr (outboxing_uuid4 fun r => ?_)
  rcases r with e | id
  · exact herror e _
  rw [Program.onOk_ok, Program.meets_bind, OutboxRepository.add, Program.bind_eq,
    Program.meets_bind]
  refine outboxing_insert ?_ ?_ ?_
  case refine_2 => simpa using herror _ _
  case refine_3 => exact fun e => herror e _
  refine ⟨_, ⟨taskId, _, t, rfl, rfl, rfl⟩, ?_⟩
  simp only [Program.onOk_ok, Bool.true_eq_false, if_false, Program.pure_eq, Program.meets_ret]
  exact settled_outboxing
    (fun a ha => by
      cases ha
      exact ⟨⟨⟨hcreated, taskId, _, id, t, rfl, rfl, rfl⟩, hready.user⟩, trivial⟩)
    fun _ _ => trivial

/-- The rows a claim has locked. -/
def OutboxGhost.locking (g : OutboxGhost) (owner : String) (expiresAt now : Instant)
    (locked : List (Uuid × OutboxMessageModel)) : OutboxGhost :=
  { g with
    effect := if locked = [] then .nothing else .claim owner expiresAt now locked []
    clock := some now }

/-- The candidates are locked one after another. -/
theorem meets_lockRows {owner : String} {expiresAt now : Instant} (hnow : now < expiresAt)
    (limit : ℕ) (ids : List Uuid)
    (locked : List (Uuid × OutboxMessageModel))
    {Q : Except Exn (List (Uuid × OutboxMessageModel)) → OutboxGhost → Prop}
    (hok : ∀ models, Q (.ok models) (g.locking owner expiresAt now (locked ++ models)))
    (herror : ∀ e locked, Q (.error e) (g.locking owner expiresAt now locked)) :
    (OutboxRepository.lockRows now limit ids).Meets outboxing
      (g.locking owner expiresAt now locked) Q := by
  induction limit, ids using OutboxRepository.lockRows.induct generalizing locked Q with
  | case1 ids => simpa [OutboxRepository.lockRows] using hok []
  | case2 limit _ => simpa [OutboxRepository.lockRows] using hok []
  | case3 limit id rest ihskip ihtake =>
    rw [OutboxRepository.lockRows]
    refine Program.meets_bind.mpr (Program.meets_perform.mpr ⟨trivial, fun r _ => ?_⟩)
    rcases r with e | _ | model
    · exact ⟨_, rfl, herror e _⟩
    · exact ⟨_, rfl, ihskip locked hok herror⟩
    · refine ⟨g.locking owner expiresAt now (locked ++ [(id, model)]),
        ⟨owner, expiresAt, now, locked, ?_, rfl, hnow, rfl, ?_⟩, ?_⟩
      · by_cases hl : locked = []
        · exact .inl ⟨by simp [OutboxGhost.locking, hl], hl⟩
        · exact .inr (by simp [OutboxGhost.locking, hl])
      · simp [OutboxGhost.locking]
      · refine Program.meets_bind.mpr (ihtake _ (fun models => ?_) fun e locked => herror e _)
        simpa using hok ((id, model) :: models)

/-- The locked rows are leased one after another. -/
theorem meets_flushLeases {owner : String} {expiresAt now : Instant}
    {locked : List (Uuid × OutboxMessageModel)} (models : List (Uuid × OutboxMessageModel))
    (leased : List Uuid) (hmodels : ∀ x ∈ models, x ∈ locked)
    {Q : Except Exn (List OutboxMessage) → OutboxGhost → Prop}
    (hok : ∀ leased', (∀ x ∈ models, x.1 ∈ leased') → leased ⊆ leased' →
      Q (.ok (models.map fun x => (OutboxRepository.lease owner expiresAt x.2 x.2).detach x.1))
        { g with effect := .claim owner expiresAt now locked leased' })
    (herror : ∀ e leased', Q (.error e)
      { g with effect := .claim owner expiresAt now locked leased' }) :
    (OutboxRepository.flushLeases owner expiresAt models).Meets outboxing
      { g with effect := .claim owner expiresAt now locked leased } Q := by
  induction models generalizing leased Q with
  | nil => exact hok leased (by simp) (List.Subset.refl _)
  | cons x rest ih =>
    obtain ⟨id, model⟩ := x
    rw [OutboxRepository.flushLeases]
    refine Program.meets_bind.mpr (outboxing_update (fun row => ?_) (herror _ _)
      fun e => herror e _)
    refine ⟨_, .inl ⟨owner, expiresAt, now, locked, leased, model, rfl,
      hmodels _ List.mem_cons_self, rfl, rfl⟩, ?_⟩
    refine Program.meets_bind.mpr (ih (id :: leased)
      (fun x hx => hmodels x (List.mem_cons_of_mem _ hx)) (fun leased' hall hsub => ?_)
      fun e leased' => herror e _)
    refine hok leased' (fun x hx => ?_) (List.Subset.trans (List.subset_cons_self _ _) hsub)
    rcases List.mem_cons.mp hx with rfl | hx
    · exact hsub List.mem_cons_self
    · exact hall x hx

/-- **A claim locks candidates, leases them all, and answers them.** -/
theorem meets_claimMessages {owner : String} {leaseDuration : Duration} {limit : ℕ}
    (hready : g.Ready) {Q : Except Exn (List ClaimedMessage) → OutboxGhost → Prop}
    (hok : ∀ messages g', g'.Ready → g'.batch = messages → Q (.ok messages) g')
    (herror : ∀ e g', Q (.error e) g') :
    (transactionRunner (.claimed owner) (claimMessages owner leaseDuration limit)).Meets
      outboxing g Q := by
  have hfail : ∀ e g', settled outboxing (.claimed owner) Q (.error e) g' :=
    fun e g' => settled_outboxing_error fun e created => herror e _
  -- with any messages the effect covers, the commit is one of the claim
  have hcommit : ∀ messages g', g'.request = g.request → g'.Written (.claimed owner messages) →
      settled outboxing (.claimed owner) Q (.ok messages) g' := by
    intro messages g' hrequest hwritten
    have huser : ∃ q, g'.request = some q ∧ q.marks = false := hrequest ▸ hready.user
    refine settled_outboxing (fun a ha => ?_) fun e created => herror e _
    cases ha
    exact ⟨⟨hwritten, huser⟩, hok messages _ ⟨rfl, huser⟩ rfl⟩
  refine meets_transactionRunner.mpr ?_
  unfold claimMessages
  by_cases howner : owner = ""
  · rw [if_pos howner, Program.throw_eq, Program.meets_raise]
    exact hfail _ _
  rw [if_neg howner]
  by_cases hlease : leaseDuration ≤ 0
  · rw [if_pos hlease, Program.throw_eq, Program.meets_raise]
    exact hfail _ _
  rw [if_neg hlease]
  by_cases hlimit : limit < 1 ∨ limit > 1000
  · rw [if_pos hlimit, Program.throw_eq, Program.meets_raise]
    exact hfail _ _
  rw [if_neg hlimit]
  refine Program.meets_bind.mpr (outboxing_now (fun t => ?_) fun e => hfail e _)
  -- the lease is positive, so it ends after the time that was read
  have hnow : t < t + leaseDuration := Int.lt_add_of_pos_right t (Int.not_le.mp hlease)
  refine Program.meets_bind.mpr (Program.meets_bind.mpr (outboxing_scan fun r => ?_))
  rcases r with e | rows
  · exact hfail e _
  have hstart : { g with clock := some t } = g.locking owner (t + leaseDuration) t [] := by
    simp [OutboxGhost.locking, hready.effect]
  rw [Program.onOk_ok, hstart, Program.bind_eq, Program.meets_bind]
  refine meets_lockRows hnow limit _ [] (fun models => ?_) fun e locked => hfail e _
  rw [Program.onOk_ok, List.nil_append]
  -- nothing is locked where nothing is claimed, and the effect stays empty
  rcases models with _ | ⟨x, models⟩
  · simpa [OutboxRepository.flushLeases] using
      hcommit [] (g.locking owner (t + leaseDuration) t []) rfl
        (.inl ⟨by simp [OutboxGhost.locking], rfl⟩)
  · have hlocked : g.locking owner (t + leaseDuration) t (x :: models) =
        { { g with clock := some t } with
          effect := .claim owner (t + leaseDuration) t (x :: models) [] } := by
      simp [OutboxGhost.locking]
    rw [hlocked]
    refine meets_flushLeases (x :: models) [] (fun _ hx => hx) (fun leased hall _ => ?_)
      fun e leased => hfail e _
    rw [Program.onOk_ok, Program.pure_eq, Program.meets_ret]
    refine hcommit _ _ rfl (.inr ⟨_, t, x :: models, leased, rfl, rfl, hall, ?_⟩)
    rw [List.map_map]
    rfl

/-- **An acknowledgement writes the row of its owner, if it is unpublished.** -/
theorem meets_acknowledgeMessage {id : Uuid} {owner : String} (hready : g.Ready)
    (hmay : g.request = some (.acknowledge id owner) ∨ ∃ message ∈ g.sent, message.id = id)
    {Q : Except Exn Bool → OutboxGhost → Prop}
    (hQ : ∀ r g', g'.Ready → g'.batch = g.batch → Q r g') :
    (transactionRunner (.acknowledged id owner) (acknowledgeMessage id owner)).Meets outboxing g
      Q := by
  have hfail : ∀ e g', g'.request = g.request → g'.batch = g.batch →
      settled outboxing (.acknowledged id owner) Q (.error e) g' :=
    fun e g' hrequest hbatch => settled_outboxing_error fun e created =>
      hQ _ _ ⟨rfl, hrequest ▸ hready.user⟩ hbatch
  have hmay' : ∀ b, g.request = some (.acknowledge id owner) ∨
      (b = true → ∃ message ∈ g.sent, message.id = id) := fun b => hmay.imp_right fun h _ => h
  refine meets_transactionRunner.mpr (Program.meets_bind.mpr (outboxing_now (fun t => ?_)
    fun e => hfail e _ rfl rfl))
  refine Program.meets_bind.mpr (outboxing_update (fun row => ?_) ?_ fun e => hfail e _ rfl rfl)
  · refine ⟨_, .inr (.inl ⟨owner, t, hready.effect, rfl, rfl, rfl⟩), ?_⟩
    simp only [Program.onOk_ok, Program.pure_eq, Program.meets_ret, Option.isSome_some]
    refine settled_outboxing (fun a ha => ?_) fun e created => hQ _ _ ⟨rfl, hready.user⟩ rfl
    cases ha
    exact ⟨⟨⟨rfl, hmay' true⟩, hready.user⟩, hQ _ _ ⟨rfl, hready.user⟩ rfl⟩
  · simp only [Program.onOk_ok, Program.pure_eq, Program.meets_ret, Option.isSome_none]
    refine settled_outboxing (fun a ha => ?_) fun e created => hQ _ _ ⟨rfl, hready.user⟩ rfl
    cases ha
    exact ⟨⟨⟨hready.effect, hmay' false⟩, hready.user⟩, hQ _ _ ⟨rfl, hready.user⟩ rfl⟩

/-- **A failure is recorded in the row of its owner, if it is unpublished.** -/
theorem meets_failMessage {id : Uuid} {owner error : String} (hready : g.Ready)
    {Q : Except Exn Bool → OutboxGhost → Prop}
    (hQ : ∀ r g', g'.Ready → g'.batch = g.batch → Q r g') :
    (transactionRunner (.failed id owner) (failMessage id owner error)).Meets outboxing g Q := by
  have hfail : ∀ e, settled outboxing (.failed id owner) Q (.error e) g :=
    fun e => settled_outboxing_error fun e created => hQ _ _ ⟨rfl, hready.user⟩ rfl
  refine meets_transactionRunner.mpr (Program.meets_bind.mpr (outboxing_update
    (fun row => ?_) ?_ hfail))
  · refine ⟨_, .inr (.inr ⟨owner, safeError error, hready.effect, rfl, rfl, rfl⟩), ?_⟩
    simp only [Program.onOk_ok, Program.pure_eq, Program.meets_ret, Option.isSome_some]
    refine settled_outboxing (fun a ha => ?_) fun e created => hQ _ _ ⟨rfl, hready.user⟩ rfl
    cases ha
    exact ⟨⟨rfl, hready.user⟩, hQ _ _ ⟨rfl, hready.user⟩ rfl⟩
  · simp only [Program.onOk_ok, Program.pure_eq, Program.meets_ret, Option.isSome_none]
    refine settled_outboxing (fun a ha => ?_) fun e created => hQ _ _ ⟨rfl, hready.user⟩ rfl
    cases ha
    exact ⟨⟨hready.effect, hready.user⟩, hQ _ _ ⟨rfl, hready.user⟩ rfl⟩

end Transactions

/-! ### The relay -/

section Relay

variable {g : OutboxGhost}

/-- **One message**: it is acknowledged only once it has been published. -/
theorem meets_relayMessage {owner : String} {acknowledged : ℕ} {message : ClaimedMessage}
    (hready : g.Ready) (hmem : message ∈ g.batch)
    {Q : Except Exn ℕ → OutboxGhost → Prop}
    (hQ : ∀ r g', g'.Ready → g'.batch = g.batch → Q r g') :
    (relayMessage owner acknowledged message).Meets outboxing g Q := by
  unfold relayMessage
  rw [Program.tryCatch_eq, Program.meets_handle]
  refine Program.Meets.mono (Q := fun _ g' => g'.Ready ∧ g'.batch = g.batch) ?_ ?_
  -- a failure is recorded in a transaction of its own, unless it is a cancellation
  swap
  · rintro (e | n) g' ⟨hready', hbatch⟩
    · rw [Program.onError_error]
      split
      · exact hQ _ _ hready' hbatch
      · refine Program.meets_bind.mpr (meets_failMessage hready' fun r g'' he hb => ?_)
        rcases r with e | b <;> exact hQ _ _ he (hb.trans hbatch)
    · exact hQ _ _ hready' hbatch
  rw [Program.bind_eq, Program.meets_bind,
    publishMessage, Program.bind_eq, Program.meets_bind, meets_liftExcept]
  rcases hjob : jobName message.topic with e | job
  · exact ⟨hready, rfl⟩
  -- only a message of the batch is sent, before it is acknowledged
  · have hmay : g.MayEnqueue (enqueueCall job message) message := ⟨hmem, job, hjob, rfl⟩
    refine Program.meets_bind.mpr (Program.meets_perform.mpr ⟨⟨message, hmay⟩, fun r _ => ?_⟩)
    rcases r with e | b
    · exact ⟨g, rfl, hready, rfl⟩
    · refine ⟨_, ⟨message, hmay, rfl⟩, ?_⟩
      refine Program.meets_bind.mpr (meets_acknowledgeMessage
        (g := { g with sent := message :: g.sent }) ⟨hready.effect, hready.user⟩
        (.inr ⟨message, List.mem_cons_self, rfl⟩) fun r g' he hb => ?_)
      rcases r with e | b
      · exact ⟨he, hb⟩
      · exact ⟨he, hb⟩

theorem meets_relayMessages {owner : String} (messages : List ClaimedMessage) (acknowledged : ℕ)
    {g : OutboxGhost} (hready : g.Ready) (hmem : ∀ m ∈ messages, m ∈ g.batch)
    {Q : Except Exn ℕ → OutboxGhost → Prop} (hQ : ∀ r g', Q r g') :
    (relayMessages owner acknowledged messages).Meets outboxing g Q := by
  induction messages generalizing acknowledged g with
  | nil => exact hQ _ _
  | cons message rest ih =>
    rw [relayMessages]
    refine Program.meets_bind.mpr (meets_relayMessage hready (hmem _ List.mem_cons_self)
      fun r g' he hb => ?_)
    rcases r with e | acknowledged
    · exact hQ _ _
    · exact ih acknowledged he fun m hm => hb ▸ hmem m (List.mem_cons_of_mem _ hm)

/-- **A relay pass** acknowledges only messages of its batch that it has published. -/
theorem meets_relayOnce {owner : String} {leaseDuration : Duration} {batchSize : ℕ}
    (hready : g.Ready) {Q : Except Exn ℕ → OutboxGhost → Prop}
    (hQ : ∀ r g', Q r g') :
    (relayOnce owner leaseDuration batchSize).Meets outboxing g Q := by
  refine Program.meets_bind.mpr (meets_claimMessages hready (fun messages g' he hb => ?_)
    fun e g' => hQ _ _)
  exact meets_relayMessages messages 0 he (fun m hm => hb ▸ hm) hQ

end Relay

/-! ### The writers of single tasks -/

/-- How far an editing transaction has come in terms of effects. -/
structure EditEffect (e : EditGhost) (g : OutboxGhost) : Prop where
  request : ∃ q, g.request = some q ∧ e.task = q.task ∧ e.marks = q.marks
  marks : e.op ≠ none → e.marks = false
  effect : match e.phase with
    | .flushed _ _ => g.effect = .edit ∧ e.op ≠ none
    | .removed => g.effect = .edit ∧ e.marks = false
    | .marked => e.op = none ∧ e.marks = true ∧
        ∃ taskId, e.task = some taskId ∧ g.effect = .mark taskId
    | .closed => True
    | _ => g.effect = .nothing

/-- What `editing` lets a transaction report, `outboxing` does. -/
theorem EditEffect.reports {e : EditGhost} {g : OutboxGhost} (h : EditEffect e g) {out : Outcome}
    (hg : editGuard e (.commit out)) : g.Reports out := by
  obtain ⟨hreports, hphase⟩ := hg
  obtain ⟨q, hq, htask, hmarks⟩ := h.request
  have heffect := h.effect
  obtain ⟨op, task, marks, phase⟩ := e
  -- an edit or a deletion has written its row, or nothing
  have hedit : (marks = false ∨ op ≠ none) → g.effect = .nothing ∨ g.effect = .edit := by
    intro hm
    rcases phase with _ | _ | _ | _ | _ | _ | _
    case flushed => exact .inr heffect.1
    case removed => exact .inr heffect.1
    case marked =>
      obtain ⟨rfl, rfl, -⟩ := heffect
      obtain hm | hm := hm
      · cases hm
      · exact absurd rfl hm
    case closed => exact hphase.elim
    all_goals exact .inl heffect
  cases out with
  | taskUpdated result =>
    have hop : op ≠ none := Option.isSome_iff_ne_none.mp hreports
    exact ⟨hedit (.inr hop), q, hq, hmarks.symm.trans (h.marks hop)⟩
  | taskToggled result =>
    have hop : op ≠ none := Option.isSome_iff_ne_none.mp hreports
    exact ⟨hedit (.inr hop), q, hq, hmarks.symm.trans (h.marks hop)⟩
  | taskDeleted userId taskId => exact ⟨hedit (.inl hreports), q, hq, hmarks.symm.trans hreports⟩
  | taskProcessed taskId result =>
    obtain ⟨rfl, rfl⟩ : marks = true ∧ task = some taskId := hreports
    refine ⟨?_, q, hq, hmarks.symm, htask.symm⟩
    rcases phase with _ | _ | _ | _ | _ | _ | _
    case flushed => exact absurd (h.marks heffect.2) (by simp)
    case removed => exact absurd heffect.2 (by simp)
    case marked =>
      obtain ⟨-, -, taskId', ht, he⟩ := heffect
      obtain rfl := Option.some_inj.mp ht
      exact .inr he
    case closed => exact hphase.elim
    all_goals exact .inl heffect
  | _ => exact hreports.elim

/-- What the ghost has of the request stays, so the effect decides. -/
theorem EditEffect.move {e e' : EditGhost} {g g' : OutboxGhost} (h : EditEffect e g)
    (hop : e'.op = e.op) (htask : e'.task = e.task) (hmarks : e'.marks = e.marks)
    (hrequest : g'.request = g.request)
    (heffect : match e'.phase with
      | .flushed _ _ => g'.effect = .edit ∧ e'.op ≠ none
      | .removed => g'.effect = .edit ∧ e'.marks = false
      | .marked => e'.op = none ∧ e'.marks = true ∧
          ∃ taskId, e'.task = some taskId ∧ g'.effect = .mark taskId
      | .closed => True
      | _ => g'.effect = .nothing) : EditEffect e' g' := by
  refine ⟨?_, ?_, heffect⟩
  · rw [hrequest, htask, hmarks]
    exact h.request
  · rw [hop, hmarks]
    exact h.marks

/-- A read leaves the effect as it is, whatever it finds. -/
theorem EditEffect.select {e : EditGhost} {g : OutboxGhost} {taskId : ℕ} {p : TaskModel → Bool}
    (h : EditEffect e g) (hg : editGuard e (.select (.task taskId) p)) (row : TaskModel) :
    EditEffect (e.next (.select (.task taskId) p) (.ok (some row))) g := by
  have heffect := h.effect
  obtain ⟨op, task, marks, phase⟩ := e
  rcases phase with _ | s | _ | _ | _ | _ | _
  case start => rcases op with _ | op <;> exact h.move rfl rfl rfl rfl heffect
  case first => rcases op with _ | op <;> exact h.move rfl rfl rfl rfl heffect
  case marked => rcases op with _ | op <;> exact h.move rfl rfl rfl rfl heffect
  all_goals exact hg.2.elim

/-- The UPDATE is the worker's mark, or an edit of the row that was read again. -/
theorem EditEffect.update {e : EditGhost} {g : OutboxGhost} {taskId : ℕ} {p : TaskModel → Bool}
    {f : TaskModel → TaskModel} (h : EditEffect e g)
    (hg : editGuard e (.update (.task taskId) p f)) (row : TaskModel) :
    ∃ g', outboxing.step g (.update (.task taskId) p f) (.ok (some row)) g' ∧
      EditEffect (e.next (.update (.task taskId) p f) (.ok (some row))) g' := by
  have heffect := h.effect
  obtain ⟨op, task, marks, phase⟩ := e
  rcases phase with _ | _ | ⟨s, l⟩ | _ | _ | _ | _
  case start =>
    obtain ⟨htask, hop, hmarks, rfl, hf⟩ := hg
    exact ⟨_, .inr ⟨heffect, rfl, hf, rfl⟩,
      h.move rfl rfl rfl rfl ⟨hop, hmarks, taskId, htask, rfl⟩⟩
  case second =>
    obtain ⟨htask, op', stamp, hop, rfl⟩ := hg
    exact ⟨_, .inl ⟨heffect, rfl⟩,
      h.move rfl rfl rfl rfl ⟨rfl, fun hnone => by cases hop.symm.trans hnone⟩⟩
  all_goals exact hg.2.elim

/-- **A transaction that keeps to `editing` keeps to `outboxing`.** -/
theorem editing_simulates : editing.Simulates outboxing EditEffect := by
  intro e g c h hg
  rcases c with ⟨k, p⟩ | _ | _ | _ | ⟨k, p, f⟩ | _ | ⟨k, p⟩ | _ | out | _ | y
  case select =>
    rcases k with _ | _ | taskId | _
    all_goals try exact hg.elim
    refine ⟨trivial, fun r _ => ⟨trivial, ?_⟩⟩
    rintro _ rfl
    refine ⟨g, rfl, ?_⟩
    rcases r with err | _ | row
    · exact h
    · exact h
    · exact h.select hg row
  case update =>
    rcases k with _ | _ | taskId | _
    all_goals try exact hg.elim
    refine ⟨trivial, fun r _ => ⟨trivial, ?_⟩⟩
    rintro _ rfl
    rcases r with err | _ | row
    · exact ⟨g, rfl, h⟩
    · exact ⟨g, rfl, h⟩
    · exact h.update hg row
  case delete =>
    rcases k with _ | _ | taskId | _
    all_goals try exact hg.elim
    refine ⟨trivial, fun r _ => ⟨trivial, ?_⟩⟩
    rintro _ rfl
    rcases r with err | _ | row
    · exact ⟨g, rfl, h⟩
    · exact ⟨g, rfl, h⟩
    · have heffect := h.effect
      obtain ⟨op, task, marks, phase⟩ := e
      obtain ⟨htask, hop, hmarks, rfl⟩ := hg
      exact ⟨_, ⟨heffect, rfl⟩, h.move rfl rfl rfl rfl ⟨rfl, hmarks⟩⟩
  case commit =>
    refine ⟨h.reports hg, fun r _ => ⟨trivial, ?_⟩⟩
    rintro _ rfl
    rcases r with err | u
    · exact ⟨_, rfl, h.move rfl rfl rfl rfl trivial⟩
    · exact ⟨_, rfl, h.move rfl rfl rfl rfl trivial⟩
  case rollback =>
    refine ⟨trivial, fun r _ => ⟨trivial, ?_⟩⟩
    rintro _ rfl
    exact ⟨_, rfl, h.move rfl rfl rfl rfl trivial⟩
  case ext =>
    have hnext : ∀ r, e.next (.ext y) r = e := fun r => by rcases r with err | v <;> rfl
    refine ⟨?_, fun r _ => ⟨trivial, ?_⟩⟩
    · cases y with
      | enqueue call => exact hg.elim
      | _ => trivial
    · intro e' he'
      obtain rfl : e' = e := Eq.trans he' (hnext r)
      cases y with
      | enqueue call => exact hg.elim
      | now =>
        rcases r with err | t
        · exact ⟨g, rfl, h⟩
        · exact ⟨_, rfl, h.move rfl rfl rfl rfl h.effect⟩
      | _ => rcases r with err | v <;> exact ⟨g, rfl, h⟩
  all_goals exact hg.elim

/-! ### Every request -/

/-- The ghost state of a request at its arrival. -/
def Request.outboxGhost (q : Request) : OutboxGhost := ⟨some q, none, .nothing, false, [], []⟩

/-- A writer of one task. -/
theorem meets_of_editing {α : Type} {p : Tx α} {q : Request}
    (h : p.Meets editing q.editGhost fun _ _ => True)
    (hmarks : q.userEdit ≠ none → q.marks = false) :
    p.Meets outboxing q.outboxGhost fun _ _ => True := by
  have hrel : EditEffect q.editGhost q.outboxGhost := ⟨⟨q, rfl, rfl, rfl⟩, hmarks, rfl⟩
  exact (h.transfer editing_simulates hrel).mono fun _ _ _ => trivial

theorem meets_answer {α β : Type} {p : Tx α} {f : α → β} {g : OutboxGhost}
    (h : p.Meets outboxing g fun _ _ => True) :
    (p.bind fun a => .ret (f a)).Meets outboxing g fun _ _ => True :=
  Program.meets_bind.mpr (h.mono fun r _ _ => by rcases r with e | a <;> trivial)

/-- A transaction that only reads. -/
theorem meets_reader {α : Type} {outcome : α → Outcome} {operation : Tx α} {g : OutboxGhost}
    (hreports : ∀ a, g.Reports (outcome a))
    (h : ∀ {Q : Except Exn α → OutboxGhost → Prop}, (∀ r, Q r g) → operation.Meets outboxing g Q) :
    (transactionRunner outcome operation).Meets outboxing g fun _ _ => True :=
  meets_transactionRunner.mpr (h fun _ => settled_outboxing
    (fun a _ => ⟨hreports a, trivial⟩) fun _ _ => trivial)

/-- **Every request keeps to the protocol.** -/
theorem Request.meets (q : Request) :
    q.code.Meets outboxing q.outboxGhost fun _ _ => True := by
  -- the edits and the job come by the protocol of editing, the others by their own
  cases q with
  | create userId title description =>
    exact meets_answer (meets_createTask userId title description ⟨rfl, _, rfl, rfl⟩ rfl)
  | get userId taskId =>
    refine meets_answer (meets_reader (fun _ => ⟨rfl, _, rfl, rfl⟩) fun hQ => ?_)
    unfold getTask TaskRepository.getOwned
    refine Program.meets_bind.mpr (Program.meets_bind.mpr (outboxing_select fun r => ?_))
    rcases r with e | _ | row <;> exact hQ _
  | list userId =>
    refine meets_answer (meets_reader (fun _ => ⟨rfl, _, rfl, rfl⟩) fun hQ => ?_)
    refine Program.meets_bind.mpr (Program.meets_bind.mpr (outboxing_scan fun r => ?_))
    rcases r with e | rows
    · exact hQ _
    · exact meets_liftExcept.mpr (hQ _)
  | edit userId taskId title description =>
    exact meets_answer (meets_of_editing (meets_updateTask userId taskId title description)
      fun _ => rfl)
  | toggle userId taskId =>
    exact meets_answer (meets_of_editing (meets_toggleTask userId taskId) fun _ => rfl)
  | delete userId taskId =>
    exact meets_answer (meets_of_editing (meets_deleteTask userId taskId) fun _ => rfl)
  | process taskId =>
    exact meets_answer (meets_of_editing (meets_processTaskCreated taskId)
      fun h => absurd rfl h)
  | claim owner leaseDuration limit =>
    exact meets_answer (meets_claimMessages ⟨rfl, _, rfl, rfl⟩ (fun _ _ _ _ => trivial)
      fun _ _ => trivial)
  | acknowledge id owner =>
    exact meets_answer (meets_acknowledgeMessage ⟨rfl, _, rfl, rfl⟩ (.inl rfl)
      fun _ _ _ _ => trivial)
  | fail id owner error =>
    exact meets_answer (meets_failMessage ⟨rfl, _, rfl, rfl⟩ fun _ _ _ _ => trivial)
  | relay owner leaseDuration batchSize =>
    exact meets_answer (meets_relayOnce ⟨rfl, _, rfl, rfl⟩ fun _ _ => trivial)
  | job payload =>
    refine meets_answer (Program.meets_bind.mpr (meets_liftExcept.mpr ?_))
    rcases htask : validatePayload payload with e | taskId
    · trivial
    · have heq : (Request.job payload).editGhost = (Request.process taskId).editGhost := by
        simp [Request.editGhost, Request.userEdit, Request.task, Request.marks, htask,
          Except.toOption]
      have hmeets := meets_processTaskCreated taskId
      rw [← heq] at hmeets
      exact meets_answer (meets_of_editing hmeets fun h => absurd rfl h)

end Lsstack
