/-
What a commit does to the outbox and to the tasks.

Each process holds locks on exactly the rows its effect names, and what it has
written there is what its effect says (`OutboxAsserts`).  So the result a
transaction reports determines what its commit does to every row:

* **`MessageStep`**, **`TaskStep`** — the possible changes of one row;
* **`OutboxAsserts.message_step`**, **`OutboxAsserts.task_step`** — no others
  happen;
* **`outbox_relyGuarantee`** — the assertions hold along every run;
* **`TaskSystemRun.step`** — what one step of the whole system does.
-/
import Lsstack.OutboxProtocol

namespace Lsstack

open Concurrency

/-! ### Changes of one row -/

/-- The result touches the message. -/
def Outcome.writes (id : Uuid) : Outcome → Bool
  | .taskCreated result => decide (result.outboxMessageId = id)
  | .claimed _ messages => messages.any fun message => decide (message.id = id)
  | .acknowledged id' _ result => result && decide (id' = id)
  | .failed id' _ result => result && decide (id' = id)
  | _ => false

/-- What the commit of `out` may do to the message `id`; `clock` is the last
reading of the clock by the committing process. -/
inductive MessageStep (clock : Option Instant) (out : Outcome) (id : Uuid) :
    Option OutboxMessageModel → Option OutboxMessageModel → Prop
  | same (row : Option OutboxMessageModel) (h : out.writes id = false) :
      MessageStep clock out id row row
  | created (result : TaskCreatedResult) (createdAt : Instant) (h : out = .taskCreated result)
      (hid : result.outboxMessageId = id) :
      MessageStep clock out id none (some (freshMessage result.task.id createdAt))
  | claimed (owner : String) (messages : List ClaimedMessage) (now expiresAt : Instant)
      (model : OutboxMessageModel) (h : out = .claimed owner messages)
      (hmem : model.claimedMessage id ∈ messages)
      (hall : ∀ message ∈ messages, message.id = id → message = model.claimedMessage id)
      (hclock : clock = some now)
      (hnow : now < expiresAt) (heligible : OutboxRepository.eligible now model = true) :
      MessageStep clock out id (some model)
        (some (OutboxRepository.lease owner expiresAt model model))
  | acknowledged (owner : String) (publishedAt : Instant) (row : OutboxMessageModel)
      (h : out = .acknowledged id owner true)
      (howned : OutboxRepository.ownedUnpublished owner row = true) :
      MessageStep clock out id (some row) (some (row.acknowledged publishedAt))
  | failed (owner error : String) (row : OutboxMessageModel) (h : out = .failed id owner true)
      (howned : OutboxRepository.ownedUnpublished owner row = true) :
      MessageStep clock out id (some row) (some (row.failing error))

/-- What the commit of `out` may do to the task `taskId`. -/
inductive TaskStep (out : Outcome) (taskId : ℕ) : Option TaskModel → Option TaskModel → Prop
  | same (row : Option TaskModel) (h : ∀ result, out = .taskCreated result →
      result.task.id ≠ taskId) : TaskStep out taskId row row
  | created (result : TaskCreatedResult) (row : TaskModel) (h : out = .taskCreated result)
      (hid : result.task.id = taskId) : TaskStep out taskId none (some row)
  | edited (row : TaskModel) (row' : Option TaskModel)
      (h : (∃ result, out = .taskUpdated result) ∨ (∃ result, out = .taskToggled result) ∨
        ∃ userId taskId, out = .taskDeleted userId taskId) :
      TaskStep out taskId (some row) row'
  | marked (result : Option TaskResult) (row : TaskModel) (stamp : Instant)
      (h : out = .taskProcessed taskId result) (hmark : row.backgroundProcessedAt = none) :
      TaskStep out taskId (some row) (some (row.marked stamp))

/-- Messages stay, with their contents. -/
def KeepsMessages (w w' : Db) : Prop :=
  ∀ id row, w.row (.message id) = some row → ∃ row', w'.row (.message id) = some row' ∧
    row'.topic = row.topic ∧ row'.payload = row.payload ∧ row'.createdAt = row.createdAt

theorem KeepsMessages.refl (w : Db) : KeepsMessages w w :=
  fun _ row h => ⟨row, h, rfl, rfl, rfl⟩

theorem KeepsMessages.trans {w₁ w₂ w₃ : Db} (h : KeepsMessages w₁ w₂)
    (h' : KeepsMessages w₂ w₃) : KeepsMessages w₁ w₃ := by
  intro id row hrow
  obtain ⟨row₂, hrow₂, ht, hp, hc⟩ := h id row hrow
  obtain ⟨row₃, hrow₃, ht', hp', hc'⟩ := h' id row₂ hrow₂
  exact ⟨row₃, hrow₃, ht'.trans ht, hp'.trans hp, hc'.trans hc⟩

theorem KeepsMessages.of_row_eq {w w' : Db} (h : ∀ k, w'.row k = w.row k) :
    KeepsMessages w w' :=
  fun id row hrow => ⟨row, (h (.message id)).trans hrow, rfl, rfl, rfl⟩

/-- No change of a message touches its contents. -/
theorem MessageStep.contents {clock : Option Instant} {out : Outcome} {id : Uuid}
    {row row' : Option OutboxMessageModel} (h : MessageStep clock out id row row')
    {model : OutboxMessageModel} (hrow : row = some model) :
    ∃ model', row' = some model' ∧ model'.topic = model.topic ∧
      model'.payload = model.payload ∧ model'.createdAt = model.createdAt := by
  cases h with
  | same row _ => exact ⟨model, hrow, rfl, rfl, rfl⟩
  | created result createdAt _ _ => cases hrow
  | claimed owner messages now expiresAt model' _ _ _ _ _ _ =>
    cases hrow
    exact ⟨_, rfl, rfl, rfl, rfl⟩
  | acknowledged owner publishedAt row _ _ =>
    cases hrow
    exact ⟨_, rfl, rfl, rfl, rfl⟩
  | failed owner error row _ _ =>
    cases hrow
    exact ⟨_, rfl, rfl, rfl, rfl⟩

/-! ### What is known of a process -/

/-- A claimed message stands for a row with its topic and payload. -/
def ClaimedMessage.Known (message : ClaimedMessage) (w : Db) : Prop :=
  ∃ row, w.row (.message message.id) = some row ∧ row.topic = message.topic ∧
    row.payload = message.payload

theorem ClaimedMessage.Known.keeps {message : ClaimedMessage} {w w' : Db}
    (h : message.Known w) (hk : KeepsMessages w w') : message.Known w' := by
  obtain ⟨row, hrow, ht, hp⟩ := h
  obtain ⟨row', hrow', ht', hp', -⟩ := hk _ row hrow
  exact ⟨row', hrow', ht'.trans ht, hp'.trans hp⟩

/-- It has been handed to the queue. -/
def ClaimedMessage.Enqueued (message : ClaimedMessage) (w : Db) : Prop :=
  ∃ job, jobName message.topic = .ok job ∧ enqueueCall job message ∈ w.env.enqueued

theorem ClaimedMessage.Enqueued.mono {message : ClaimedMessage} {w w' : Db}
    (h : message.Enqueued w) (hw : ∀ call ∈ w.env.enqueued, call ∈ w'.env.enqueued) :
    message.Enqueued w' := by
  obtain ⟨job, hjob, hmem⟩ := h
  exact ⟨job, hjob, hw _ hmem⟩

namespace Effect

/-- The rows it has locked for certain. -/
def keys : Effect → List Key
  | .task taskId _ => [.task taskId]
  | .announced taskId _ id _ => [.task taskId, .message id]
  | .claim _ _ _ locked _ => locked.map fun x => .message x.1
  | .acknowledge id _ => [.message id]
  | .fail id _ => [.message id]
  | .mark taskId => [.task taskId]
  | _ => []

/-- The id it has drawn. -/
def drawnId : Effect → Option ℕ
  | .drawn taskId => some taskId
  | .task taskId _ => some taskId
  | .announced taskId _ _ _ => some taskId
  | _ => none

/-- What a session `i` has written under its locks. -/
def Holds (effect : Effect) (i : ℕ) : (k : Key) → Cell (Row k) → Prop
  | .message id, c =>
    match effect with
    | .announced taskId _ id' createdAt => id' = id ∧ c.committed = none ∧
        c.view i = some (freshMessage taskId createdAt)
    | .claim owner expiresAt now locked leased => (∃ model, (id, model) ∈ locked) ∧
        now < expiresAt ∧ ∀ model, (id, model) ∈ locked → c.committed = some model ∧
          OutboxRepository.eligible now model = true ∧
          c.view i = some
            (if id ∈ leased then OutboxRepository.lease owner expiresAt model model else model)
    | .acknowledge id' owner => id' = id ∧ ∃ row publishedAt, c.committed = some row ∧
        OutboxRepository.ownedUnpublished owner row = true ∧
        c.view i = some (row.acknowledged publishedAt)
    | .fail id' owner => id' = id ∧ ∃ row error, c.committed = some row ∧
        OutboxRepository.ownedUnpublished owner row = true ∧
        c.view i = some (row.failing error)
    | .over => True
    | _ => False
  | .task taskId, c =>
    match effect with
    | .task taskId' row => taskId' = taskId ∧ c.committed = none ∧ c.view i = some row
    | .announced taskId' row _ _ => taskId' = taskId ∧ c.committed = none ∧ c.view i = some row
    | .edit => c.committed.isSome
    | .mark taskId' => taskId' = taskId ∧ ∃ row stamp, c.committed = some row ∧
        row.backgroundProcessedAt = none ∧ c.view i = some (row.marked stamp)
    | .over => True
    | _ => False
  | _, _ => effect = .over

/-- What it reads is committed. -/
def Unlocked : Effect → Prop
  | .nothing => True
  | .drawn _ => True
  | _ => False

end Effect

theorem Effect.Unlocked.not_holds {effect : Effect} (hu : effect.Unlocked) {i : ℕ} {k : Key}
    {c : Cell (Row k)} : ¬ effect.Holds i k c := by
  intro hh
  cases effect
  all_goals first | exact hu | skip
  all_goals rcases k with _ | _ | _ | _ <;> first | exact hh | cases hh

/-- What holds of a process with ghost state `g`. -/
structure OutboxAsserts (w : Db) (i : ℕ)
    (p : Option (Process Command Command.Reply Exn Request Response)) (g : OutboxGhost) :
    Prop where
  request : ∀ p', p = some p' → g.request = some p'.request
  clock : ∀ p', p = some p' → g.clock = lastReading p'.calls
  held : w.HeldBy i (g.effect.Holds i)
  owns : ∀ k ∈ g.effect.keys, (w.cell k).hold.owner = some i
  drawn : ∀ p', p = some p' → ∀ taskId, g.effect.drawnId = some taskId →
    (⟨.nextval .tasks, .ok taskId⟩ : (c : Command) × Except Exn c.Reply) ∈ p'.calls
  created : ∀ result, (i, .taskCreated result) ∈ w.log → g.created = true
  batch : ∀ message ∈ g.batch, message.Known w
  sent : ∀ message ∈ g.sent, message.Known w ∧ message.Enqueued w

namespace OutboxAsserts

variable {w w' : Db} {i : ℕ} {g : OutboxGhost}
  {p : Option (Process Command Command.Reply Exn Request Response)}

/-- A row its effect does not name is not locked. -/
theorem view_eq_row (h : OutboxAsserts w i p g) {k : Key}
    (hk : ¬ g.effect.Holds i k (w.cell k)) : (w.cell k).view i = w.row k :=
  World.view_eq_row fun ho => hk (h.held k ho)

/-- A row the transaction does not hold stays as it is. -/
theorem same_message {clock : Option Instant} {out : Outcome} {id : Uuid}
    (h : OutboxAsserts w i p g)
    (hk : ¬ g.effect.Holds i (.message id) (w.cell (.message id)))
    (hout : out.writes id = false) :
    MessageStep clock out id (w.row (.message id)) ((w.cell (.message id)).view i) := by
  rw [h.view_eq_row hk]
  exact .same _ hout

/-- The commit of a claim leases the messages that it has locked. -/
theorem claimed_step {p : Process Command Command.Reply Exn Request Response} {owner : String}
    {messages : List ClaimedMessage} (h : OutboxAsserts w i (some p) g)
    (hg : g.Written (.claimed owner messages)) (id : Uuid) :
    MessageStep (lastReading p.calls) (.claimed owner messages) id (w.row (.message id))
      ((w.cell (.message id)).view i) := by
  obtain ⟨he, rfl⟩ | ⟨expiresAt, now, locked, leased, he, hclock, hall, rfl⟩ := hg
  · exact h.same_message (fun hh => by rw [he] at hh; exact hh) rfl
  -- each message locked is leased at the commit
  by_cases hid : ∃ model, (id, model) ∈ locked
  · obtain ⟨model, hmem⟩ := hid
    have hh := h.held (.message id) (h.owns _ (by
      rw [he]
      exact List.mem_map.mpr ⟨_, hmem, rfl⟩))
    rw [he] at hh
    obtain ⟨-, hnow, hh⟩ := hh
    obtain ⟨hrow, heligible, hview⟩ := hh model hmem
    rw [hview, if_pos (hall _ hmem), show w.row (.message id) = some model from hrow]
    have hunique : ∀ message ∈ locked.map (fun x => x.2.claimedMessage x.1),
        message.id = id → message = model.claimedMessage id := by
      intro message hm hid
      obtain ⟨⟨id', model'⟩, hmem', rfl⟩ := List.mem_map.mp hm
      obtain rfl : id' = id := hid
      have hrow' := (hh model' hmem').1
      rw [Option.some_inj.mp (hrow'.symm.trans hrow)]
    exact .claimed owner _ now expiresAt model rfl (List.mem_map.mpr ⟨_, hmem, rfl⟩) hunique
      ((h.clock p rfl).symm.trans hclock) hnow heligible
  · refine h.same_message (fun hh => ?_) ?_
    · rw [he] at hh
      exact hid hh.1
    · simp only [Outcome.writes, List.any_map, List.any_eq_false]
      rintro ⟨id', model⟩ hmem hid'
      exact hid ⟨model, of_decide_eq_true hid' ▸ hmem⟩

/-- **What a commit does to a message.** -/
theorem message_step {p : Process Command Command.Reply Exn Request Response} {out : Outcome}
    (h : OutboxAsserts w i (some p) g) (hg : g.Written out) (id : Uuid) :
    MessageStep (lastReading p.calls) out id (w.row (.message id))
      ((w.cell (.message id)).view i) := by
  have hnothing : g.effect = .nothing →
      ¬ g.effect.Holds i (.message id) (w.cell (.message id)) := by
    intro he hh
    rw [he] at hh
    exact hh
  have hheld : Key.message id ∈ g.effect.keys →
      g.effect.Holds i (.message id) (w.cell (.message id)) := fun hk => h.held _ (h.owns _ hk)
  -- one case for each result; the effect of the ghost says which rows are written under it
  cases out with
  | taskCreated result =>
    obtain ⟨-, taskId, row, id', createdAt, he, htask, hid⟩ := hg
    by_cases hid' : id' = id
    · subst hid'
      have hh := hheld (by simp [he, Effect.keys])
      rw [he] at hh
      obtain ⟨-, hrow, hview⟩ := hh
      rw [hview, ← htask, show w.row (.message id') = none from hrow]
      exact .created result createdAt rfl hid
    · refine h.same_message (fun hh => ?_) (by simp [Outcome.writes, hid, hid'])
      rw [he] at hh
      exact hid' hh.1
  | claimed owner messages => exact h.claimed_step hg id
  | acknowledged id' owner result =>
    obtain ⟨he, -⟩ := hg
    -- `False` means that the UPDATE has found no row of the owner
    cases result with
    | false => exact h.same_message (hnothing he) rfl
    | true =>
      by_cases hid : id' = id
      · subst hid
        have hh := hheld (by simp [he, Effect.keys])
        rw [he] at hh
        obtain ⟨-, row, publishedAt, hrow, howned, hview⟩ := hh
        rw [hview, show w.row (.message id') = some row from hrow]
        exact .acknowledged owner publishedAt row rfl howned
      · refine h.same_message (fun hh => ?_) (by simp [Outcome.writes, hid])
        rw [he] at hh
        exact hid hh.1
  | failed id' owner result =>
    cases result with
    | false => exact h.same_message (hnothing hg) rfl
    | true =>
      have he : g.effect = .fail id' owner := hg
      by_cases hid : id' = id
      · subst hid
        have hh := hheld (by simp [he, Effect.keys])
        rw [he] at hh
        obtain ⟨-, row, error, hrow, howned, hview⟩ := hh
        rw [hview, show w.row (.message id') = some row from hrow]
        exact .failed owner error row rfl howned
      · refine h.same_message (fun hh => ?_) (by simp [Outcome.writes, hid])
        rw [he] at hh
        exact hid hh.1
  | taskProcessed taskId result =>
    refine h.same_message (fun hh => ?_) rfl
    obtain he | he := hg <;> rw [he] at hh <;> exact hh
  | taskUpdated result =>
    refine h.same_message (fun hh => ?_) rfl
    obtain he | he := hg <;> rw [he] at hh <;> exact hh
  | taskToggled result =>
    refine h.same_message (fun hh => ?_) rfl
    obtain he | he := hg <;> rw [he] at hh <;> exact hh
  | taskDeleted userId taskId =>
    refine h.same_message (fun hh => ?_) rfl
    obtain he | he := hg <;> rw [he] at hh <;> exact hh
  | _ => exact h.same_message (hnothing hg) rfl

/-- **What a commit does to a task.** -/
theorem task_step {out : Outcome} (h : OutboxAsserts w i p g) (hg : g.Written out)
    (taskId : ℕ) :
    TaskStep out taskId (w.row (.task taskId)) ((w.cell (.task taskId)).view i) := by
  -- a task without a pending change is as committed
  have hsame : ¬ g.effect.Holds i (.task taskId) (w.cell (.task taskId)) →
      (∀ result, out = .taskCreated result → result.task.id ≠ taskId) →
      TaskStep out taskId (w.row (.task taskId)) ((w.cell (.task taskId)).view i) := by
    intro hk hout
    rw [h.view_eq_row hk]
    exact .same _ hout
  have hedit : (g.effect = .nothing ∨ g.effect = .edit) →
      ((∃ result, out = .taskUpdated result) ∨ (∃ result, out = .taskToggled result) ∨
        ∃ userId taskId, out = .taskDeleted userId taskId) →
      TaskStep out taskId (w.row (.task taskId)) ((w.cell (.task taskId)).view i) := by
    intro he hout
    by_cases hh : g.effect.Holds i (.task taskId) (w.cell (.task taskId))
    · obtain he | he := he
      · rw [he] at hh
        exact hh.elim
      · rw [he] at hh
        obtain ⟨row, hrow⟩ := Option.isSome_iff_exists.mp hh
        rw [show w.row (.task taskId) = some row from hrow]
        exact .edited row _ hout
    · refine hsame hh fun result hr => ?_
      rw [hr] at hout
      obtain ⟨_, ho⟩ | ⟨_, ho⟩ | ⟨_, _, ho⟩ := hout <;> cases ho
  -- tasks change at creations, edits, deletions and marks, the rest leaves them alone
  cases out with
  | taskCreated result =>
    obtain ⟨-, taskId', row, id, createdAt, he, htask, hid⟩ := hg
    by_cases ht : taskId' = taskId
    · subst ht
      have hh := h.held _ (h.owns (.task taskId') (by simp [he, Effect.keys]))
      rw [he] at hh
      obtain ⟨-, hrow, hview⟩ := hh
      rw [hview, show w.row (.task taskId') = none from hrow]
      exact .created result row rfl htask
    · refine hsame (fun hh => ?_) fun result' hr => ?_
      · rw [he] at hh
        exact ht hh.1
      · cases hr
        rwa [htask]
  | taskProcessed taskId' result =>
    by_cases hh : g.effect.Holds i (.task taskId) (w.cell (.task taskId))
    · obtain he | he := hg
      · rw [he] at hh
        exact hh.elim
      · rw [he] at hh
        obtain ⟨rfl, row, stamp, hrow, hmark, hview⟩ := hh
        rw [hview, show w.row (.task taskId') = some row from hrow]
        exact .marked result row stamp rfl hmark
    · exact hsame hh fun _ hr => by cases hr
  | taskUpdated result => exact hedit hg (.inl ⟨_, rfl⟩)
  | taskToggled result => exact hedit hg (.inr (.inl ⟨_, rfl⟩))
  | taskDeleted userId taskId => exact hedit hg (.inr (.inr ⟨_, _, rfl⟩))
  | claimed owner messages =>
    refine hsame (fun hh => ?_) fun _ hr => by cases hr
    obtain ⟨he, -⟩ | ⟨_, _, _, _, he, -⟩ := hg <;> rw [he] at hh <;> exact hh
  | acknowledged id owner result =>
    refine hsame (fun hh => ?_) fun _ hr => by cases hr
    rw [hg.1] at hh
    cases result <;> exact hh
  | failed id owner result =>
    refine hsame (fun hh => ?_) fun _ hr => by cases hr
    rw [show g.effect = _ from hg] at hh
    cases result <;> exact hh
  | _ =>
    refine hsame (fun hh => ?_) fun _ hr => by cases hr
    rw [show g.effect = _ from hg] at hh
    exact hh

/-! The locks follow the statements. -/

/-- What is known of a session's locks. -/
structure Locks (w : Db) (i : ℕ) (effect : Effect) : Prop where
  held : w.HeldBy i (effect.Holds i)
  owns : ∀ k ∈ effect.keys, (w.cell k).hold.owner = some i

theorem locks (h : OutboxAsserts w i p g) : Locks w i g.effect := ⟨h.held, h.owns⟩

theorem Locks.cells {effect : Effect} (h : Locks w i effect) (hw : ∀ k, w'.cell k = w.cell k) :
    Locks w' i effect where
  held := fun k => by
    rw [hw k]
    exact h.held k
  owns := fun k hk => by
    rw [hw k]
    exact h.owns k hk

theorem Locks.view_eq_row {effect : Effect} (h : Locks w i effect) (hu : effect.Unlocked)
    (k : Key) : (w.cell k).view i = w.row k :=
  World.view_eq_row fun ho => hu.not_holds (h.held k ho)

/-- A first write. -/
theorem Locks.write {effect effect' : Effect} (h : Locks w i effect) (hu : effect.Unlocked)
    {k : Key} {v : Option (Row k)} (hkeys : effect'.keys ⊆ [k])
    (hk : effect'.Holds i k ((w.cell k).write i v)) : Locks (w.write i k v) i effect' where
  held := World.heldBy_write h.held (fun _ _ _ hh => absurd hh hu.not_holds) hk
  owns := fun k' hk' => by
    obtain rfl := List.mem_singleton.mp (hkeys hk')
    simp

variable {x : Choice Fault Decision} {isHash : String → String → Bool}

theorem Locks.tryLock {id : Uuid} {model : OutboxMessageModel} {owner : String}
    {expiresAt now : Instant} {locked : List (Uuid × OutboxMessageModel)} {effect : Effect}
    (h : Locks w i effect)
    (heffect : effect = .nothing ∧ locked = [] ∨ effect = .claim owner expiresAt now locked [])
    (hnow : now < expiresAt)
    (hrow : w.acquire i (.message id) (OutboxRepository.eligible now) = .row model) :
    Locks (w.lock i (.message id)) i
      (.claim owner expiresAt now (locked ++ [(id, model)]) []) := by
  obtain ⟨hview, heligible, hopen⟩ := World.acquire_row hrow
  have hold : ∀ k c, effect.Holds i k c →
      (Effect.claim owner expiresAt now locked []).Holds i k c := by
    rintro k c hh
    obtain ⟨rfl, rfl⟩ | rfl := heffect
    · have hu : Effect.nothing.Unlocked := trivial
      exact absurd hh hu.not_holds
    · exact hh
  -- what is seen of the row is what is committed, whether it was locked before or not
  have hcommitted : (w.cell (.message id)).committed = some model := by
    by_cases ho : (w.cell (.message id)).hold.owner = some i
    · obtain ⟨⟨m, hm⟩, -, hh⟩ := hold _ _ (h.held _ ho)
      obtain ⟨hc, -, hv⟩ := hh m hm
      rw [hview] at hv
      rw [hc, hv]
      simp
    · exact (World.view_eq_row ho).symm.trans hview
  have hmem : ∀ m, (id, m) ∈ locked → (w.cell (.message id)).committed = some m := by
    intro m hm
    have hkey : Key.message id ∈ effect.keys := by
      obtain ⟨rfl, rfl⟩ | rfl := heffect
      · cases hm
      · exact List.mem_map.mpr ⟨_, hm, rfl⟩
    obtain ⟨-, -, hh⟩ := hold _ _ (h.held _ (h.owns _ hkey))
    exact (hh m hm).1
  refine ⟨World.heldBy_lock h.held (fun k c hne hh => ?_) ?_, fun k hk => ?_⟩
  · have hh := hold k c hh
    rcases k with _ | _ | _ | id'
    case message =>
      have hid : id' ≠ id := fun he => hne (by rw [he])
      obtain ⟨⟨m, hm⟩, hlt, hall⟩ := hh
      refine ⟨⟨m, List.mem_append_left _ hm⟩, hlt, fun m' hm' => ?_⟩
      obtain hm' | hm' := List.mem_append.mp hm'
      · exact hall m' hm'
      · simp [hid] at hm'
    all_goals cases hh
  · refine ⟨⟨model, by simp⟩, hnow, fun m hm => ?_⟩
    obtain rfl : m = model := by
      obtain hm | hm := List.mem_append.mp hm
      · exact Option.some_inj.mp ((hmem m hm).symm.trans hcommitted)
      · simpa using hm
    exact ⟨by rw [Cell.lock_committed, hcommitted], heligible,
      by rw [Cell.lock_view, hview]; simp⟩
  · rw [Effect.keys, List.map_append, List.mem_append] at hk
    by_cases hne : k = .message id
    · subst hne
      rw [World.lock_cell_self]
      exact Cell.lock_owner hopen
    · rw [World.lock_cell_of_ne _ _ hne]
      refine h.owns k ?_
      obtain hk | hk := hk
      · obtain ⟨rfl, rfl⟩ | rfl := heffect
        · cases hk
        · exact hk
      · simp [hne] at hk

theorem Locks.lease {id : Uuid} {model row : OutboxMessageModel} {owner : String}
    {expiresAt now : Instant} {locked : List (Uuid × OutboxMessageModel)} {leased : List Uuid}
    (h : Locks w i (.claim owner expiresAt now locked leased)) (hmem : (id, model) ∈ locked)
    (hview : (w.cell (.message id)).view i = some row) :
    Locks (w.write i (.message id) (some (OutboxRepository.lease owner expiresAt model row))) i
      (.claim owner expiresAt now locked (id :: leased)) := by
  have ho := h.owns (.message id) (List.mem_map.mpr ⟨_, hmem, rfl⟩)
  obtain ⟨-, hnow, hall⟩ := h.held _ ho
  -- whether the row is leased already or not, the same lease is written
  have hlease : OutboxRepository.lease owner expiresAt model row =
      OutboxRepository.lease owner expiresAt model model := by
    have hv := (hall model hmem).2.2
    rw [hview, Option.some_inj] at hv
    rw [hv]
    split <;> rfl
  refine ⟨World.heldBy_write h.held (fun k c hne hh => ?_) ?_, fun k hk => ?_⟩
  · rcases k with _ | _ | _ | id'
    case message =>
      have hid : id' ≠ id := fun he => hne (by rw [he])
      obtain ⟨hm, hlt, hall⟩ := hh
      refine ⟨hm, hlt, fun m hm => ?_⟩
      obtain ⟨hc, hel, hv⟩ := hall m hm
      exact ⟨hc, hel, by simpa [hid] using hv⟩
    all_goals cases hh
  · refine ⟨⟨model, hmem⟩, hnow, fun m hm => ?_⟩
    obtain ⟨hc, hel, -⟩ := hall m hm
    obtain rfl := Option.some_inj.mp (hc.symm.trans (hall model hmem).1)
    exact ⟨hc, hel, by simp [hlease]⟩
  · by_cases hne : k = .message id
    · subst hne
      simp
    · rw [World.write_cell_of_ne _ _ hne]
      exact h.owns k hk

theorem Locks.update_message {id : Uuid} {P : OutboxMessageModel → Bool}
    {f : OutboxMessageModel → OutboxMessageModel} {g' : OutboxGhost}
    {r : Except Exn (Option OutboxMessageModel)} (h : Locks w i g.effect)
    (hd : g.Does (.update (.message id) P f) r g')
    (he : exec Fault.exn (outside isHash) w i (.update (.message id) P f) x = some (r, w')) :
    Locks w' i g'.effect := by
  obtain ⟨rfl, e, rfl⟩ | ⟨rfl, rfl, -⟩ | ⟨row, rfl, rfl, hacquired⟩ := exec_update he
  · obtain rfl := hd
    exact h
  · obtain rfl := hd
    exact h
  obtain ⟨hview, hP, -⟩ := World.acquire_row hacquired
  have hrow : g.effect = .nothing → (w.cell (.message id)).committed = some row := by
    intro hn
    rw [hn] at h
    exact (h.view_eq_row trivial (.message id)).symm.trans hview
  obtain ⟨owner, expiresAt, now, locked, leased, model, heffect, hmem, rfl, rfl⟩ |
    ⟨owner, publishedAt, heffect, rfl, rfl, rfl⟩ | ⟨owner, error, heffect, rfl, rfl, rfl⟩ := hd
  · rw [heffect] at h
    exact h.lease hmem hview
  · refine h.write (by rw [heffect]; trivial) (List.Subset.refl _) ?_
    exact ⟨rfl, row, publishedAt, hrow heffect, hP, by simp⟩
  · refine h.write (by rw [heffect]; trivial) (List.Subset.refl _) ?_
    exact ⟨rfl, row, error, hrow heffect, hP, by simp⟩

theorem Locks.update_task {taskId : ℕ} {P : TaskModel → Bool} {f : TaskModel → TaskModel}
    {g' : OutboxGhost} {r : Except Exn (Option TaskModel)} (h : Locks w i g.effect)
    (hd : g.Does (.update (.task taskId) P f) r g')
    (he : exec Fault.exn (outside isHash) w i (.update (.task taskId) P f) x = some (r, w')) :
    Locks w' i g'.effect := by
  obtain ⟨rfl, e, rfl⟩ | ⟨rfl, rfl, -⟩ | ⟨row, rfl, rfl, hacquired⟩ := exec_update he
  · obtain rfl := hd
    exact h
  · obtain rfl := hd
    exact h
  obtain ⟨hview, hP, -⟩ := World.acquire_row hacquired
  have hrow : g.effect = .nothing → (w.cell (.task taskId)).committed = some row := by
    intro hn
    rw [hn] at h
    exact (h.view_eq_row trivial (.task taskId)).symm.trans hview
  obtain ⟨heffect, rfl⟩ | ⟨heffect, rfl, ⟨stamp, rfl⟩, rfl⟩ := hd
  · refine h.write (by rw [heffect]; trivial) (List.nil_subset _) ?_
    exact Option.isSome_iff_exists.mpr ⟨row, hrow heffect⟩
  · refine h.write (by rw [heffect]; trivial) (List.Subset.refl _) ?_
    exact ⟨rfl, row, stamp, hrow heffect, Option.isNone_iff_eq_none.mp hP, by simp⟩

theorem Locks.delete {taskId : ℕ} {P : TaskModel → Bool} {g' : OutboxGhost}
    {r : Except Exn (Option TaskModel)} (h : Locks w i g.effect)
    (hd : g.Does (.delete (.task taskId) P) r g')
    (he : exec Fault.exn (outside isHash) w i (.delete (.task taskId) P) x = some (r, w')) :
    Locks w' i g'.effect := by
  obtain ⟨rfl, e, rfl⟩ | ⟨rfl, rfl, -⟩ | ⟨row, rfl, rfl, hrow⟩ := exec_delete he
  · obtain rfl := hd
    exact h
  · obtain rfl := hd
    exact h
  obtain ⟨heffect, rfl⟩ := hd
  refine h.write (by rw [heffect]; trivial) (List.nil_subset _) ?_
  rw [heffect] at h
  exact Option.isSome_iff_exists.mpr ⟨row,
    (h.view_eq_row trivial (.task taskId)).symm.trans (World.acquire_row hrow).1⟩

theorem Locks.insert_task {taskId : ℕ} {v : TaskModel} {g' : OutboxGhost}
    {r : Except Exn Bool} (h : Locks w i g.effect)
    (hd : g.Does (.insert (.task taskId) v) r g')
    (he : exec Fault.exn (outside isHash) w i (.insert (.task taskId) v) x = some (r, w')) :
    Locks w' i g'.effect := by
  obtain ⟨rfl, e, rfl⟩ | ⟨rfl, rfl, -⟩ | ⟨rfl, rfl, -, hnone⟩ := exec_insert he
  · obtain rfl := hd
    exact h
  · obtain rfl := hd
    exact h
  obtain ⟨heffect, rfl⟩ := hd
  rw [heffect] at h
  have hcommitted : (w.cell (.task taskId)).committed = none :=
    (h.view_eq_row trivial (.task taskId)).symm.trans hnone
  refine ⟨World.heldBy_write h.held (fun k c _ hh => ?_) ⟨rfl, hcommitted, by simp⟩,
    fun k hk => ?_⟩
  · have hu : (Effect.drawn taskId).Unlocked := trivial
    exact absurd hh hu.not_holds
  · obtain rfl := List.mem_singleton.mp hk
    simp

theorem Locks.insert_message {id : Uuid} {v : OutboxMessageModel} {g' : OutboxGhost}
    {r : Except Exn Bool} (h : Locks w i g.effect)
    (hd : g.Does (.insert (.message id) v) r g')
    (he : exec Fault.exn (outside isHash) w i (.insert (.message id) v) x = some (r, w')) :
    Locks w' i g'.effect := by
  obtain ⟨rfl, e, rfl⟩ | ⟨rfl, rfl, -⟩ | ⟨rfl, rfl, -, hnone⟩ := exec_insert he
  · obtain rfl := hd
    exact h
  · obtain rfl := hd
    exact h
  obtain ⟨taskId, row, createdAt, heffect, rfl, rfl⟩ := hd
  rw [heffect] at h
  have hcommitted : (w.cell (.message id)).committed = none :=
    (World.view_eq_row fun ho => h.held (.message id) ho).symm.trans hnone
  refine ⟨World.heldBy_write h.held (fun k c hne hh => ?_) ⟨rfl, hcommitted, by simp⟩,
    fun k hk => ?_⟩
  · rcases k with _ | _ | _ | _
    case task => exact hh
    case message => exact hh.elim
    all_goals cases hh
  · by_cases hne : k = .message id
    · subst hne
      simp
    · rw [World.write_cell_of_ne _ _ hne]
      exact h.owns k (by simpa [Effect.keys, hne] using hk)

theorem Locks.nextval {s : Sequence} {r : Except Exn ℕ} {g' : OutboxGhost}
    (h : Locks w i g.effect) (hd : g.Does (.nextval s) r g')
    (he : exec Fault.exn (outside isHash) w i (.nextval s) x = some (r, w')) :
    Locks w' i g'.effect := by
  obtain ⟨rfl, e, rfl⟩ | ⟨rfl, rfl⟩ := exec_nextval he
  · obtain rfl : g' = g := by cases s <;> exact hd
    exact h
  · cases s with
    | users => exact hd.elim
    | tasks =>
      obtain ⟨heffect, rfl⟩ := hd
      rw [heffect] at h
      have hu : Effect.nothing.Unlocked := trivial
      exact ⟨fun k hk => absurd (h.held k hk) hu.not_holds, fun k hk => by cases hk⟩

/-- No lock outlives the transaction. -/
theorem Locks.commit {out : Outcome} {r : Except Exn Unit} {g' : OutboxGhost}
    (h : Locks w i g.effect) (hd : g.Does (.commit out) r g')
    (he : exec Fault.exn (outside isHash) w i (.commit out) x = some (r, w')) :
    Locks w' i g'.effect := by
  -- after the end of the transaction no lock is left, so nothing has to be held
  have hnone : ∀ effect : Effect, effect.keys = [] → Locks (w.commit i out) i effect :=
    fun effect hk => ⟨World.heldBy_commit, fun k hk' => by rw [hk] at hk'; cases hk'⟩
  obtain ⟨rfl, e, rfl⟩ | rfl := exec_commit he
  · obtain rfl := hd
    refine ⟨fun k _ => ?_, fun k hk => by cases hk⟩
    cases k <;> first | exact trivial | exact rfl
  · rcases r with e | u
    · obtain rfl := hd
      exact hnone _ rfl
    · obtain rfl := hd
      exact hnone _ rfl

theorem Locks.ext {y : Outside} {r : Except Exn y.Reply} {g' : OutboxGhost}
    (h : Locks w i g.effect) (hd : g.Does (.ext y) r g')
    (he : exec Fault.exn (outside isHash) w i (.ext y) x = some (r, w')) :
    Locks w' i g'.effect := by
  have heffect : g'.effect = g.effect := by
    cases y with
    | now => rcases r with e | t <;> obtain rfl := hd <;> rfl
    | enqueue call =>
      rcases r with e | b
      · obtain rfl := hd
        rfl
      · obtain ⟨message, -, rfl⟩ := hd
        rfl
    | _ => rcases r with e | v <;> obtain rfl := hd <;> rfl
  rw [heffect]
  obtain ⟨rfl, -⟩ | ⟨d, env, -, rfl⟩ := exec_ext he
  · exact h
  · exact h.cells fun _ => rfl

/-- **A statement the protocol allows keeps what is known of the locks.** -/
theorem Locks.act {c : Command} {r : Except Exn c.Reply} {g' : OutboxGhost}
    (h : Locks w i g.effect) (hd : g.Does c r g')
    (he : exec Fault.exn (outside isHash) w i c x = some (r, w')) : Locks w' i g'.effect := by
  rcases c with ⟨k, P⟩ | ⟨P, le⟩ | ⟨k, P⟩ | ⟨k, P⟩ | ⟨k, P, f⟩ | ⟨k, v⟩ | ⟨k, P⟩ | s | out | _ | y
  -- reads change neither locks nor rows
  case select =>
    obtain ⟨rfl, -⟩ := exec_select he
    obtain rfl := hd
    exact h
  case scan =>
    obtain ⟨rfl, -⟩ := exec_scan he
    obtain rfl := hd
    exact h
  case lock => exact hd.elim
  -- only a message is locked without waiting, and what is found has nobody else's lock
  case tryLock =>
    obtain ⟨rfl, e, rfl⟩ | ⟨rfl, rfl⟩ | ⟨model, rfl, rfl, hrow⟩ := exec_tryLock he
    · obtain rfl : g' = g := by cases k <;> exact hd
      exact h
    · obtain rfl : g' = g := by cases k <;> exact hd
      exact h
    · rcases k with _ | _ | _ | id
      case message =>
        obtain ⟨owner, expiresAt, now, locked, heffect, -, hnow, rfl, rfl⟩ := hd
        exact h.tryLock heffect hnow hrow
      all_goals exact hd.elim
  case update =>
    rcases k with _ | _ | taskId | id
    case task => exact h.update_task hd he
    case message => exact h.update_message hd he
    all_goals
      obtain ⟨rfl, e, rfl⟩ | ⟨rfl, rfl, -⟩ | ⟨row, rfl, rfl, -⟩ := exec_update he
      · obtain rfl := hd
        exact h
      · obtain rfl := hd
        exact h
      · exact hd.elim
  case insert =>
    rcases k with _ | _ | taskId | id
    case task => exact h.insert_task hd he
    case message => exact h.insert_message hd he
    all_goals
      obtain ⟨rfl, e, rfl⟩ | ⟨rfl, rfl, -⟩ | ⟨rfl, rfl, -⟩ := exec_insert he
      · obtain rfl := hd
        exact h
      · obtain rfl := hd
        exact h
      · exact hd.elim
  case delete =>
    rcases k with _ | _ | taskId | id
    case task => exact h.delete hd he
    all_goals
      obtain ⟨rfl, e, rfl⟩ | ⟨rfl, rfl, -⟩ | ⟨row, rfl, rfl, -⟩ := exec_delete he
      · obtain rfl := hd
        exact h
      · obtain rfl := hd
        exact h
      · exact hd.elim
  case nextval => exact h.nextval hd he
  case commit => exact h.commit hd he
  case rollback =>
    obtain ⟨rfl, -⟩ := exec_rollback he
    obtain rfl := hd
    exact ⟨World.heldBy_release, fun k hk => by cases hk⟩
  case ext => exact h.ext hd he

end OutboxAsserts

/-! What a statement does to the rest of the ghost state. -/

/-- The ghost state beside the rows: the request stays, the clock is read, ids
are drawn, a batch is claimed, messages are sent. -/
structure OutboxGhost.Follows (g : OutboxGhost) (c : Command) (r : Except Exn c.Reply)
    (g' : OutboxGhost) : Prop where
  request : g'.request = g.request
  clock : ∀ calls, g.clock = lastReading calls → g'.clock = lastReading (⟨c, r⟩ :: calls)
  drawn : ∀ taskId, g'.effect.drawnId = some taskId → g.effect.drawnId = some taskId ∨
    (⟨c, r⟩ : (c : Command) × Except Exn c.Reply) = ⟨.nextval .tasks, .ok taskId⟩
  created : g.created = true → g'.created = true
  creates : ∀ result, c = .commit (.taskCreated result) → g'.created = true
  batch : g'.batch = g.batch ∨ ∃ owner, c = .commit (.claimed owner g'.batch)
  sent : ∀ message ∈ g'.sent, message ∈ g.sent ∨ ∃ call b,
    (⟨c, r⟩ : (c : Command) × Except Exn c.Reply) = ⟨.ext (.enqueue call), .ok b⟩ ∧
    g.MayEnqueue call message

/-- Most statements move only the effect. -/
theorem OutboxGhost.Follows.moves {g g' : OutboxGhost} {c : Command} {r : Except Exn c.Reply}
    (effect : Effect) (h : g' = { g with effect := effect })
    (hclock : ∀ calls, lastReading (⟨c, r⟩ :: calls) = lastReading calls)
    (hcommit : ∀ result, c ≠ .commit (.taskCreated result))
    (hdrawn : ∀ taskId, effect.drawnId = some taskId → g.effect.drawnId = some taskId ∨
      (⟨c, r⟩ : (c : Command) × Except Exn c.Reply) = ⟨.nextval .tasks, .ok taskId⟩) :
    g.Follows c r g' := by
  subst h
  exact ⟨rfl, fun calls hc => hc.trans (hclock calls).symm, hdrawn, id,
    fun result hc => absurd hc (hcommit result), .inl rfl, fun message hm => .inl hm⟩

theorem OutboxGhost.Follows.stay {g g' : OutboxGhost} {c : Command} {r : Except Exn c.Reply}
    (h : g' = g) (hclock : ∀ calls, lastReading (⟨c, r⟩ :: calls) = lastReading calls)
    (hcommit : ∀ result, c ≠ .commit (.taskCreated result)) : g.Follows c r g' :=
  .moves g.effect h hclock hcommit fun _ h => .inl h

theorem OutboxGhost.Does.follows_commit {g g' : OutboxGhost} {out : Outcome}
    {r : Except Exn Unit} (hd : g.Does (.commit out) r g') : g.Follows (.commit out) r g' := by
  rcases r with e | u
  · obtain rfl := hd
    exact ⟨rfl, fun _ hc => hc, nofun, fun _ => rfl, fun _ _ => rfl, .inl rfl,
      fun _ hm => .inl hm⟩
  · obtain rfl := hd
    refine ⟨rfl, fun _ hc => hc, nofun, fun hc => ?_, fun result hout => ?_, ?_,
      fun _ hm => .inl hm⟩
    · cases out <;> first | exact hc | rfl
    · cases hout
      rfl
    · cases out <;> first | exact .inl rfl | exact .inr ⟨_, rfl⟩

theorem OutboxGhost.Does.follows_ext {g g' : OutboxGhost} {y : Outside} {r : Except Exn y.Reply}
    (hd : g.Does (.ext y) r g') : g.Follows (.ext y) r g' := by
  cases y with
  | now =>
    rcases r with e | t
    · exact .stay hd (fun _ => rfl) (by simp)
    · obtain rfl := hd
      exact ⟨rfl, fun _ _ => rfl, fun _ h => .inl h, id, nofun, .inl rfl, fun _ hm => .inl hm⟩
  | enqueue call =>
    rcases r with e | b
    · exact .stay hd (fun _ => rfl) (by simp)
    · -- the message sent is new, the others were sent before
      obtain ⟨message, hmay, rfl⟩ := hd
      refine ⟨rfl, fun _ hc => hc, fun _ h => .inl h, id, nofun, .inl rfl, fun m hm => ?_⟩
      obtain rfl | hm := List.mem_cons.mp hm
      · exact .inr ⟨call, b, rfl, hmay⟩
      · exact .inl hm
  | _ => rcases r with e | v <;> exact .stay hd (fun _ => rfl) (by simp)

theorem OutboxGhost.Does.follows {g g' : OutboxGhost} {c : Command} {r : Except Exn c.Reply}
    (hd : g.Does c r g') : g.Follows c r g' := by
  rcases c with ⟨k, p⟩ | ⟨p, le⟩ | ⟨k, p⟩ | ⟨k, p⟩ | ⟨k, p, f⟩ | ⟨k, v⟩ | ⟨k, p⟩ | s | out | _ | y
  case select => exact .stay hd (fun _ => rfl) (by simp)
  case scan => exact .stay hd (fun _ => rfl) (by simp)
  case lock => exact hd.elim
  case tryLock =>
    rcases r with e | _ | model
    · exact .stay (by cases k <;> exact hd) (fun _ => rfl) (by simp)
    · exact .stay (by cases k <;> exact hd) (fun _ => rfl) (by simp)
    · rcases k with _ | _ | _ | id
      case message =>
        obtain ⟨owner, expiresAt, now, locked, -, -, -, -, hg'⟩ := hd
        exact .moves _ hg' (fun _ => rfl) (by simp) (by simp [Effect.drawnId])
      all_goals exact hd.elim
  case update =>
    rcases r with e | _ | row
    · exact .stay (by cases k <;> exact hd) (fun _ => rfl) (by simp)
    · exact .stay (by cases k <;> exact hd) (fun _ => rfl) (by simp)
    · rcases k with _ | _ | taskId | id
      case task =>
        obtain ⟨-, hg'⟩ | ⟨-, -, -, hg'⟩ := hd
        · exact .moves _ hg' (fun _ => rfl) (by simp) (by simp [Effect.drawnId])
        · exact .moves _ hg' (fun _ => rfl) (by simp) (by simp [Effect.drawnId])
      case message =>
        obtain ⟨_, _, _, _, _, _, -, -, -, hg'⟩ | ⟨_, _, -, -, -, hg'⟩ | ⟨_, _, -, -, -, hg'⟩ := hd
          <;> exact .moves _ hg' (fun _ => rfl) (by simp) (by simp [Effect.drawnId])
      all_goals exact hd.elim
  case insert =>
    rcases r with e | _ | _
    · exact .stay (by cases k <;> exact hd) (fun _ => rfl) (by simp)
    · exact .stay (by cases k <;> exact hd) (fun _ => rfl) (by simp)
    · rcases k with _ | _ | taskId | id
      case task =>
        obtain ⟨heffect, hg'⟩ := hd
        exact .moves _ hg' (fun _ => rfl) (by simp) fun _ h => .inl (by rw [heffect]; exact h)
      case message =>
        obtain ⟨taskId, row, createdAt, heffect, -, hg'⟩ := hd
        exact .moves _ hg' (fun _ => rfl) (by simp) fun _ h => .inl (by rw [heffect]; exact h)
      all_goals exact hd.elim
  case delete =>
    rcases r with e | _ | row
    · exact .stay (by cases k <;> exact hd) (fun _ => rfl) (by simp)
    · exact .stay (by cases k <;> exact hd) (fun _ => rfl) (by simp)
    · rcases k with _ | _ | taskId | id
      case task => exact .moves _ hd.2 (fun _ => rfl) (by simp) (by simp [Effect.drawnId])
      all_goals exact hd.elim
  case nextval =>
    rcases r with e | taskId
    · exact .stay (by cases s <;> exact hd) (fun _ => rfl) (by simp)
    · cases s with
      | users => exact hd.elim
      | tasks =>
        refine .moves _ hd.2 (fun _ => rfl) (by simp) fun n hn => .inr ?_
        rw [← Option.some_inj.mp hn]
  case commit => exact hd.follows_commit
  case rollback => exact .moves _ hd (fun _ => rfl) (by simp) (by simp [Effect.drawnId])
  case ext => exact hd.follows_ext

/-! ### The whole system -/

/-- What process `i` may do to the rest: its own locks, messages that stay,
enqueued calls that stay, log entries of its own. -/
structure OutboxRel (i : ℕ) (w w' : Db) : Prop where
  moves : ∀ k, (w.cell k).Moves i (w'.cell k)
  keeps : KeepsMessages w w'
  enqueued : ∀ call ∈ w.env.enqueued, call ∈ w'.env.enqueued
  log : ∀ entry ∈ w'.log, entry ∈ w.log ∨ entry.1 = i

namespace OutboxAsserts

variable {w w' : Db} {i : ℕ} {g g' : OutboxGhost} {x : Choice Fault Decision}
  {isHash : String → String → Bool}

/-- The statements of other sessions leave it alone. -/
theorem stable {p : Option (Process Command Command.Reply Exn Request Response)} {j : ℕ}
    (h : OutboxAsserts w j p g) (hrel : OutboxRel i w w') (hij : j ≠ i) :
    OutboxAsserts w' j p g where
  request := h.request
  clock := h.clock
  held := h.held.frame hrel.moves hij
  owns := fun k hk => by
    have ho := h.owns k hk
    rw [(hrel.moves k).foreign ho hij]
    exact ho
  drawn := h.drawn
  created := fun result hmem => by
    obtain hmem | hi := hrel.log _ hmem
    · exact h.created result hmem
    · exact absurd hi hij
  batch := fun message hm => (h.batch message hm).keeps hrel.keeps
  sent := fun message hm =>
    ⟨(h.sent message hm).1.keeps hrel.keeps, (h.sent message hm).2.mono hrel.enqueued⟩

/-- **A statement the protocol allows stays within the guarantee.** -/
theorem guarantee {p : Process Command Command.Reply Exn Request Response} {c : Command}
    {r : Except Exn c.Reply} (h : OutboxAsserts w i (some p) g) (hg : g.Permits c)
    (he : exec Fault.exn (outside isHash) w i c x = some (r, w')) : OutboxRel i w w' where
  moves := exec_moves he
  keeps := by
    obtain ⟨hrows, -⟩ | ⟨out, rfl, rfl⟩ := exec_row he
    · exact .of_row_eq hrows
    · intro id row hrow
      obtain ⟨row', hrow', hcontents⟩ := (h.message_step hg.1 id).contents hrow
      exact ⟨row', (World.commit_row _ _ _ _).trans hrow', hcontents⟩
  enqueued := by
    obtain hsame | ⟨y, rfl⟩ := (exec_seq_env he).2
    · rw [hsame]
      exact fun call hc => hc
    · obtain ⟨rfl, -⟩ | ⟨d, env, hout, rfl⟩ := exec_ext he
      · exact fun call hc => hc
      · exact fun call hc => outside_enqueued hout hc
  log := by
    obtain ⟨-, hlog⟩ | ⟨out, rfl, rfl⟩ := exec_row he
    · rw [hlog]
      exact fun entry he => .inl he
    · intro entry hentry
      obtain rfl | hentry := List.mem_cons.mp hentry
      · exact .inr rfl
      · exact .inl hentry

/-- The messages of a claim are those of the batch. -/
theorem batch_known {owner : String} {messages : List ClaimedMessage}
    (h : OutboxAsserts w i p g) (hg : g.Written (.claimed owner messages))
    {message : ClaimedMessage} (hm : message ∈ messages) :
    message.Known (w.commit i (.claimed owner messages)) := by
  obtain ⟨-, rfl⟩ | ⟨expiresAt, now, locked, leased, he, -, -, rfl⟩ := hg
  · cases hm
  · obtain ⟨⟨id, model⟩, hmem, rfl⟩ := List.mem_map.mp hm
    have hkey : Key.message id ∈ g.effect.keys := by
      rw [he]
      exact List.mem_map.mpr ⟨_, hmem, rfl⟩
    have hh := h.held _ (h.owns _ hkey)
    rw [he] at hh
    have hview := (hh.2.2 model hmem).2.2
    refine ⟨_, (World.commit_row _ _ _ _).trans hview, ?_, ?_⟩
    · split <;> rfl
    · split <;> rfl

/-- **A process's own statement keeps its assertions.** -/
theorem act {q : Request} {calls : List ((c : Command) × Except Exn c.Reply)}
    {rest rest' : Option (Tx Response)} {c : Command} {r : Except Exn c.Reply}
    (h : OutboxAsserts w i (some ⟨q, calls, rest⟩) g) (hg : g.Permits c) (hd : g.Does c r g')
    (he : exec Fault.exn (outside isHash) w i c x = some (r, w')) :
    OutboxAsserts w' i (some ⟨q, ⟨c, r⟩ :: calls, rest'⟩) g' := by
  have hlocks := h.locks.act hd he
  have hrel := h.guarantee hg he
  have hf := hd.follows
  have hbatch : ∀ message ∈ g.batch, message.Known w' :=
    fun message hm => (h.batch message hm).keeps hrel.keeps
  refine ⟨fun p' hp => ?_, fun p' hp => ?_, hlocks.held, hlocks.owns, fun p' hp taskId ht => ?_,
    fun result hm => ?_, fun message hm => ?_, fun message hm => ?_⟩
  -- request, readings and draws are among the calls of the process
  · cases hp
    exact hf.request.trans (h.request ⟨q, calls, rest⟩ rfl)
  · cases hp
    exact hf.clock calls (h.clock ⟨q, calls, rest⟩ rfl)
  · cases hp
    obtain hold | hnew := hf.drawn taskId ht
    · exact List.mem_cons_of_mem _ (h.drawn ⟨q, calls, rest⟩ rfl taskId hold)
    · rw [← hnew]
      exact List.mem_cons_self
  · obtain ⟨-, hlog⟩ | ⟨out, rfl, rfl⟩ := exec_row he
    · exact hf.created (h.created result (hlog ▸ hm))
    · obtain heq | hm := List.mem_cons.mp hm
      · cases heq
        exact hf.creates result rfl
      · exact hf.created (h.created result hm)
  -- the batch is the one claimed last, and known since its commit
  · obtain hsame | ⟨owner, rfl⟩ := hf.batch
    · exact hbatch message (hsame ▸ hm)
    · obtain ⟨rfl, e, rfl⟩ | rfl := exec_commit he
      · obtain rfl := hd
        exact hbatch message hm
      · exact h.batch_known hg.1 hm
  -- what is sent is in the queue, and stays there
  · obtain hold | ⟨call, b, heq, hmay⟩ := hf.sent message hm
    · exact ⟨(h.sent message hold).1.keeps hrel.keeps,
        (h.sent message hold).2.mono hrel.enqueued⟩
    · cases heq
      obtain ⟨hmem, job, hjob, rfl⟩ := hmay
      refine ⟨hbatch message hmem, job, hjob, ?_⟩
      obtain ⟨-, e, he'⟩ | ⟨d, env, hout, rfl⟩ := exec_ext he
      · cases he'
      · exact outside_enqueue hout

/-- A crash frees the locks. -/
theorem crash {q : Request} {calls : List ((c : Command) × Except Exn c.Reply)}
    {rest : Option (Tx Response)} (h : OutboxAsserts w i (some ⟨q, calls, rest⟩) g) :
    OutboxRel i w (w.release i) ∧
    OutboxAsserts (w.release i) i (some ⟨q, calls, none⟩) { g with effect := .over } := by
  have hkeeps : KeepsMessages w (w.release i) := .of_row_eq fun _ => World.release_row _ _ _
  refine ⟨⟨release_moves, hkeeps, fun _ hc => hc, fun _ he => .inl he⟩, ?_⟩
  exact
    { request := fun p' hp => by cases hp; exact h.request ⟨q, calls, rest⟩ rfl
      clock := fun p' hp => by cases hp; exact h.clock ⟨q, calls, rest⟩ rfl
      held := World.heldBy_release
      owns := fun k hk => by cases hk
      drawn := fun p' _ taskId ht => by cases ht
      created := h.created
      batch := fun message hm => (h.batch message hm).keeps hkeeps
      sent := fun message hm => ⟨(h.sent message hm).1.keeps hkeeps, (h.sent message hm).2⟩ }

/-- Before its arrival a process holds nothing. -/
theorem idle (hfree : ∀ k, (w.cell k).hold.owner ≠ some i) (hlog : ∀ out, (i, out) ∉ w.log) :
    OutboxAsserts w i none .idle where
  request := fun p' hp => by cases hp
  clock := fun p' hp => by cases hp
  held := fun k hk => absurd hk (hfree k)
  owns := fun k hk => by cases hk
  drawn := fun p' hp => by cases hp
  created := fun result hm => absurd hm (hlog _)
  batch := fun message hm => by cases hm
  sent := fun message hm => by cases hm

/-- At its arrival neither. -/
theorem start (h : OutboxAsserts w i none .idle) (q : Request) (rest : Option (Tx Response)) :
    OutboxAsserts w i (some ⟨q, [], rest⟩) q.outboxGhost where
  request := fun p' hp => by cases hp; rfl
  clock := fun p' hp => by cases hp; rfl
  held := h.held
  owns := h.owns
  drawn := fun p' _ taskId ht => by cases ht
  created := h.created
  batch := h.batch
  sent := h.sent

end OutboxAsserts

/-- **Each process keeps its locks, its batch and what it has published.** -/
theorem outbox_relyGuarantee (allowed : TaskConfig → Request → Prop) :
    RelyGuarantee taskMachine allowed outboxing .idle (fun _ _ _ => True) (fun _ _ => True)
      (fun _ => True) OutboxRel OutboxAsserts where
  start := fun {_ _ q} _ _ _ ha => ⟨q.outboxGhost, q.meets, ha.start q _⟩
  act := fun _ _ ha hg he _ =>
    ⟨trivial, trivial, ha.guarantee hg he, fun _ hd => ha.act hg hd he⟩
  crash := fun _ ha => ⟨trivial, ha.crash.1, _, ha.crash.2⟩
  stable := fun hij _ hrel ha => ha.stable hrel hij

/-- What the commit of `out` by process `i` does. -/
structure Commits (cfg cfg' : TaskConfig) (i : ℕ)
    (p : Process Command Command.Reply Exn Request Response) (out : Outcome) : Prop where
  proc : cfg.procs i = some p
  log : cfg'.world.log = (i, out) :: cfg.world.log
  message : ∀ id, MessageStep (lastReading p.calls) out id (cfg.world.row (.message id))
    (cfg'.world.row (.message id))
  task : ∀ taskId, TaskStep out taskId (cfg.world.row (.task taskId))
    (cfg'.world.row (.task taskId))
  user : ∀ userId, cfg'.world.row (.user userId) = cfg.world.row (.user userId)
  email : ∀ address, cfg'.world.row (.email address) = cfg.world.row (.email address)
  created : ∀ result, out = .taskCreated result →
    (∀ result', (i, .taskCreated result') ∉ cfg.world.log) ∧
    (⟨.nextval .tasks, .ok result.task.id⟩ : (c : Command) × Except Exn c.Reply) ∈ p.calls
  processed : p.request.marks = true →
    ∃ taskId result, out = .taskProcessed taskId result ∧ p.request.task = some taskId
  acknowledged : ∀ id owner, out = .acknowledged id owner true →
    p.request = .acknowledge id owner ∨
    ∃ message : ClaimedMessage, message.id = id ∧ message.Known cfg.world ∧
      message.Enqueued cfg.world

/-- A transaction that is over reports nothing. -/
theorem OutboxGhost.Written.not_over {g : OutboxGhost} {out : Outcome} (h : g.Written out) :
    g.effect ≠ .over := by
  intro he
  cases out with
  | taskCreated result =>
    obtain ⟨-, _, _, _, _, heffect, -⟩ := h
    cases heffect.symm.trans he
  | claimed owner messages =>
    obtain ⟨heffect, -⟩ | ⟨_, _, _, _, heffect, -⟩ := h <;> cases heffect.symm.trans he
  | acknowledged id owner result => cases result <;> cases h.1.symm.trans he
  | failed id owner result => cases result <;> cases Eq.trans (Eq.symm h) he
  | taskUpdated result => obtain heffect | heffect := h <;> cases heffect.symm.trans he
  | taskToggled result => obtain heffect | heffect := h <;> cases heffect.symm.trans he
  | taskDeleted userId taskId => obtain heffect | heffect := h <;> cases heffect.symm.trans he
  | taskProcessed taskId result => obtain heffect | heffect := h <;> cases heffect.symm.trans he
  | _ => cases Eq.trans (Eq.symm h) he

/-- What the ghost state says of a commit. -/
theorem OutboxAsserts.commits {cfg cfg' : TaskConfig} {i : ℕ} {g : OutboxGhost}
    {p : Process Command Command.Reply Exn Request Response} {out : Outcome}
    (h : OutboxAsserts cfg.world i (some p) g) (hg : g.Reports out)
    (hp : cfg.procs i = some p) (hw : cfg'.world = cfg.world.commit i out) :
    Commits cfg cfg' i p out := by
  obtain ⟨hwritten, q, hq, hmay⟩ := hg
  obtain rfl : q = p.request := Option.some_inj.mp (hq.symm.trans (h.request p rfl))
  refine ⟨hp, by rw [hw]; rfl, fun id => ?_, fun taskId => ?_, fun userId => ?_,
    fun address => ?_, ?_, fun hmarks => ?_, ?_⟩
  -- the rows under its locks change as the ghost says, the others stay
  · rw [hw, World.commit_row]
    exact h.message_step hwritten id
  · rw [hw, World.commit_row]
    exact h.task_step hwritten taskId
  · rw [hw, World.commit_row]
    exact h.view_eq_row hwritten.not_over
  · rw [hw, World.commit_row]
    exact h.view_eq_row hwritten.not_over
  -- a process creates one task, under the number it has drawn
  · rintro result rfl
    obtain ⟨hcreated, taskId, row, id, createdAt, he, rfl, -⟩ := hwritten
    refine ⟨fun result' hm => ?_, h.drawn p rfl _ (by rw [he]; rfl)⟩
    rw [h.created result' hm] at hcreated
    cases hcreated
  · cases out with
    | taskProcessed taskId result => exact ⟨taskId, result, rfl, hmay.2⟩
    | _ => exact absurd (hmarks.symm.trans hmay) (by simp)
  -- it acknowledges a message by request, or after sending it
  · rintro id owner rfl
    obtain ⟨-, hrequest | hsent⟩ := hwritten
    · exact .inl (Option.some_inj.mp (hq.symm.trans hrequest))
    · obtain ⟨message, hm, rfl⟩ := hsent rfl
      exact .inr ⟨message, rfl, h.sent message hm⟩

/-- Runs of the task and outbox side; at first the outbox is empty and the
sequence of task ids positive. -/
structure TaskSystemRun (allowed : Request → Prop) extends
    DbRun (fun _ _ => false) Request.code fun _ q => allowed q where
  noMessages : ∀ id, (state 0).world.row (.message id) = none
  positive : 1 ≤ (state 0).world.seq .tasks

namespace TaskSystemRun

variable {allowed : Request → Prop}

/-- **A step leaves the rows and the log alone, or it is a commit.** -/
theorem step (run : TaskSystemRun allowed) (n : ℕ) :
    ((∀ k, (run.state (n + 1)).world.row k = (run.state n).world.row k) ∧
      (run.state (n + 1)).world.log = (run.state n).world.log) ∨
    ∃ i p out, Commits (run.state n) (run.state (n + 1)) i p out := by
  rcases run.next n with hn | hn
  · rw [hn]
    exact .inl ⟨fun _ => rfl, rfl⟩
  have hholds := (outbox_relyGuarantee _).run run.toRun trivial
    (fun i => .idle (fun k => by simp [run.unlocked k]) fun out => by simp [run.unlogged])
    n fun _ _ => trivial
  obtain hsame | ⟨i, p, out, g, hp, hw, hguard, ha⟩ := commit_cases hholds hn
  · exact .inl hsame
  · exact .inr ⟨i, p, out, ha.commits hguard hp hw⟩

end TaskSystemRun

end Lsstack
