/-
Every created task has its message, and delivering it touches that task only.

* **`TaskSystemRun.creations_distinct`** — no two committed creates share their
  task or their message;
* **`validatePayload_created`** — the job accepts what `createTask` has written,
  also after it has been stored as JSON;
* **`task_messages`** — the messages are those of the committed creates, and the
  job of one changes two columns of its task, once.
-/
import Lsstack.JsonText
import Lsstack.OutboxPublication

namespace Lsstack

open Concurrency

/-! ### The payload -/

theorem taskCreatedPayload_eq (taskId : ℕ) :
    taskCreatedPayload taskId = .object [("version", 1), ("task_id", taskId)] := rfl

/-- The job accepts the payload of a task. -/
theorem validatePayload_created {taskId : ℕ} (h : 1 ≤ taskId) :
    validatePayload (taskCreatedPayload taskId) = .ok taskId := by
  have hpos : ¬ ((taskId : ℤ) < 1) := by omega
  simp [validatePayload, taskCreatedPayload, List.lookup, JsonValue.isOne, hpos]

/-- Storing it as JSON changes nothing. -/
theorem decode_taskCreatedPayload (codec : QueueCodec) (taskId : ℕ) :
    codec.decode (codec.encode (taskCreatedPayload taskId)) =
      some (taskCreatedPayload taskId) := by
  rw [taskCreatedPayload_eq]
  exact codec.decode_encode _ (by simp)

/-! ### Committed creates -/

/-- The committed creates, with their processes, newest first. -/
def creations (log : List (ℕ × Outcome)) : List (ℕ × TaskCreatedResult) :=
  log.filterMap fun entry =>
    match entry.2 with
    | .taskCreated result => some (entry.1, result)
    | _ => none

theorem mem_creations {log : List (ℕ × Outcome)} {i : ℕ} {result : TaskCreatedResult} :
    (i, result) ∈ creations log ↔ (i, .taskCreated result) ∈ log := by
  rw [creations, List.mem_filterMap]
  constructor
  · rintro ⟨⟨j, out⟩, hmem, heq⟩
    cases out <;> cases heq
    exact hmem
  · intro hmem
    exact ⟨_, hmem, rfl⟩

theorem creations_cons (i : ℕ) (out : Outcome) (log : List (ℕ × Outcome)) :
    (∃ result, out = .taskCreated result ∧
      creations ((i, out) :: log) = (i, result) :: creations log) ∨
    (∀ result, out ≠ .taskCreated result) ∧ creations ((i, out) :: log) = creations log := by
  cases out with
  | taskCreated result => exact .inl ⟨result, rfl, rfl⟩
  | _ => exact .inr ⟨by simp, rfl⟩

/-- What a commit that creates a task does. -/
theorem Commits.creates {cfg cfg' : TaskConfig} {i : ℕ}
    {p : Process Command Command.Reply Exn Request Response} {result : TaskCreatedResult}
    (h : Commits cfg cfg' i p (.taskCreated result)) :
    cfg.world.row (.task result.task.id) = none ∧
    (cfg'.world.row (.task result.task.id)).isSome ∧
    cfg.world.row (.message result.outboxMessageId) = none ∧
    (cfg'.world.row (.message result.outboxMessageId)).isSome := by
  have htask := h.task result.task.id
  have hmessage := h.message result.outboxMessageId
  generalize cfg.world.row (.task result.task.id) = row₁ at htask ⊢
  generalize cfg'.world.row (.task result.task.id) = row₁' at htask ⊢
  generalize cfg.world.row (.message result.outboxMessageId) = row₂ at hmessage ⊢
  generalize cfg'.world.row (.message result.outboxMessageId) = row₂' at hmessage ⊢
  have htask' : row₁ = none ∧ row₁'.isSome := by
    cases htask with
    | same _ hne => exact absurd rfl (hne result rfl)
    | created result' row hout hid => exact ⟨rfl, rfl⟩
    | edited row row' hout => obtain ⟨_, h⟩ | ⟨_, h⟩ | ⟨_, _, h⟩ := hout <;> cases h
    | marked result' row stamp hout => cases hout
  have hmessage' : row₂ = none ∧ row₂'.isSome := by
    cases hmessage with
    | same _ hwrites => simp [Outcome.writes] at hwrites
    | created result' createdAt hout hid => exact ⟨rfl, rfl⟩
    | claimed owner messages now expires model hout => cases hout
    | acknowledged owner publishedAt row hout => cases hout
    | failed owner error row hout => cases hout
  exact ⟨htask'.1, htask'.2, hmessage'.1, hmessage'.2⟩

namespace TaskSystemRun

variable {allowed : Request → Prop}

/-- The task of a committed create has the number its process has drawn. -/
theorem creation_drawn (run : TaskSystemRun allowed) (n : ℕ) {i : ℕ}
    {result : TaskCreatedResult} (h : (i, result) ∈ creations (run.state n).world.log) :
    ∃ p, (run.state n).procs i = some p ∧ Draws .tasks result.task.id p := by
  induction n with
  | zero =>
    rw [run.unlogged] at h
    cases h
  | succ n ih =>
    rw [mem_creations] at h ih
    rcases run.next n with hn | hn
    · rw [hn] at h ⊢
      exact ih h
    have hkeep : (∃ p, (run.state n).procs i = some p ∧ Draws .tasks result.task.id p) →
        ∃ p, (run.state (n + 1)).procs i = some p ∧ Draws .tasks result.task.id p := by
      rintro ⟨p, hp, hd⟩
      obtain ⟨p', hp', -, hsub⟩ := hn.proc hp
      exact ⟨p', hp', hsub hd⟩
    obtain ⟨-, hlog⟩ | ⟨j, p, out, hc⟩ := run.step n
    · rw [hlog] at h
      exact hkeep (ih h)
    · rw [hc.log, List.mem_cons] at h
      obtain heq | hmem := h
      · cases heq
        exact hkeep ⟨p, hc.proc, (hc.created result rfl).2⟩
      · exact hkeep (ih hmem)

/-- **No two committed creates share their task or their message.** -/
theorem creations_distinct (run : TaskSystemRun allowed) (n : ℕ) :
    (creations (run.state n).world.log).Pairwise fun a b =>
      a.2.task.id ≠ b.2.task.id ∧ a.2.outboxMessageId ≠ b.2.outboxMessageId := by
  induction n with
  | zero =>
    rw [run.unlogged]
    exact .nil
  | succ n ih =>
    obtain ⟨-, hlog⟩ | ⟨i, p, out, hc⟩ := run.step n
    · rwa [hlog]
    rw [hc.log]
    obtain ⟨result, rfl, hcons⟩ | ⟨-, hsame⟩ := creations_cons i out (run.state n).world.log
    · rw [hcons, List.pairwise_cons]
      refine ⟨?_, ih⟩
      rintro ⟨j, result'⟩ hmem
      obtain ⟨honce, hdrawn⟩ := hc.created result rfl
      refine ⟨fun heq => ?_, fun heq => ?_⟩
      · -- the two processes have drawn the same number, so they are one
        obtain ⟨p', hp', hdrawn'⟩ := run.creation_drawn n hmem
        have hij : i = j := (run.draws .tasks n).2.2 i j p p' _ hc.proc hp' hdrawn
          (show Draws .tasks result.task.id p' from heq ▸ hdrawn')
        rw [← hij] at hmem
        exact honce result' (mem_creations.mp hmem)
      · obtain ⟨row, hrow, -⟩ := run.created_kept n (mem_creations.mp hmem)
        have hnone := hc.creates.2.2.1
        rw [show result.outboxMessageId = result'.outboxMessageId from heq, hrow] at hnone
        cases hnone
    · rwa [hsame]

/-- Every message is that of a committed create. -/
theorem message_created (run : TaskSystemRun allowed) (n : ℕ) {id : Uuid}
    (h : ((run.state n).world.row (.message id)).isSome) :
    ∃ i result, (i, result) ∈ creations (run.state n).world.log ∧ result.outboxMessageId = id := by
  induction n with
  | zero =>
    rw [run.noMessages] at h
    cases h
  | succ n ih =>
    obtain ⟨hrows, hlog⟩ | ⟨i, p, out, hc⟩ := run.step n
    · rw [hrows] at h
      rw [hlog]
      exact ih h
    -- what was created before is in the log still
    have hold : ((run.state n).world.row (.message id)).isSome →
        ∃ j result, (j, result) ∈ creations (run.state (n + 1)).world.log ∧
          result.outboxMessageId = id := by
      intro hsome
      obtain ⟨j, result, hmem, hid⟩ := ih hsome
      refine ⟨j, result, mem_creations.mpr ?_, hid⟩
      rw [hc.log]
      exact List.mem_cons_of_mem _ (mem_creations.mp hmem)
    have hstep := hc.message id
    generalize hrow : (run.state n).world.row (.message id) = row at hstep hold
    -- a message that is new is of the creation committed now
    rcases row with _ | row
    · generalize (run.state (n + 1)).world.row (.message id) = row' at hstep h
      cases hstep with
      | same _ hwrites => cases h
      | created result createdAt hout hid =>
        refine ⟨i, result, mem_creations.mpr ?_, hid⟩
        rw [hc.log, hout]
        exact List.mem_cons_self
    · exact hold rfl

/-- A created task has a positive number. -/
theorem creation_pos (run : TaskSystemRun allowed) (n : ℕ) {i : ℕ} {result : TaskCreatedResult}
    (h : (i, result) ∈ creations (run.state n).world.log) : 1 ≤ result.task.id := by
  obtain ⟨p, hp, hd⟩ := run.creation_drawn n h
  exact run.positive.trans ((run.draws .tasks n).2.1 i p _ hp hd).1

end TaskSystemRun

/-! ### The job -/

/-- **A commit of a job** changes two columns of its task, if it is there and not
yet processed. -/
theorem Commits.job {cfg cfg' : TaskConfig} {i : ℕ}
    {p : Process Command Command.Reply Exn Request Response} {out : Outcome}
    (h : Commits cfg cfg' i p out) {payload : JsonValue} (hp : p.request = .job payload)
    {taskId : ℕ} (hpayload : validatePayload payload = .ok taskId) :
    (∀ k, k ≠ .task taskId → cfg'.world.row k = cfg.world.row k) ∧
    (cfg'.world.row (.task taskId) = cfg.world.row (.task taskId) ∨
      ∃ row stamp, cfg.world.row (.task taskId) = some row ∧ row.backgroundProcessedAt = none ∧
        cfg'.world.row (.task taskId) =
          some { row with backgroundProcessedAt := some stamp, updatedAt := stamp }) := by
  obtain ⟨taskId', result, rfl, htask⟩ := h.processed (by rw [hp]; rfl)
  obtain rfl : taskId' = taskId := by
    rw [hp, Request.task, hpayload] at htask
    exact (Option.some_inj.mp htask).symm
  -- the job changes no row but that of its task
  refine ⟨fun k hk => ?_, ?_⟩
  · rcases k with userId | address | taskId | id
    · exact h.user userId
    · exact h.email address
    · have hstep := h.task taskId
      generalize cfg.world.row (.task taskId) = row at hstep ⊢
      generalize cfg'.world.row (.task taskId) = row' at hstep ⊢
      cases hstep with
      | same _ _ => rfl
      | created result' row hout => cases hout
      | edited row row' hout => obtain ⟨_, h⟩ | ⟨_, h⟩ | ⟨_, _, h⟩ := hout <;> cases h
      | marked result' row stamp hout =>
        cases hout
        exact absurd rfl hk
    · have hstep := h.message id
      generalize cfg.world.row (.message id) = row at hstep ⊢
      generalize cfg'.world.row (.message id) = row' at hstep ⊢
      cases hstep with
      | same _ _ => rfl
      | created result' createdAt hout => cases hout
      | claimed owner messages now expires model hout => cases hout
      | acknowledged owner publishedAt row hout => cases hout
      | failed owner error row hout => cases hout
  · have hstep := h.task taskId'
    generalize cfg.world.row (.task taskId') = row at hstep ⊢
    generalize cfg'.world.row (.task taskId') = row' at hstep ⊢
    cases hstep with
    | same _ _ => exact .inl rfl
    | created result' row hout => cases hout
    | edited row row' hout => obtain ⟨_, h⟩ | ⟨_, h⟩ | ⟨_, _, h⟩ := hout <;> cases h
    | marked result' row stamp hout hmark => exact .inr ⟨row, stamp, rfl, hmark, rfl⟩

/-- **Every created task has exactly one message**, the job accepts it, and
delivering it touches that task only. -/
theorem task_messages {allowed : Request → Prop} (codec : QueueCodec)
    (run : TaskSystemRun allowed) (n : ℕ) :
    ((creations (run.state n).world.log).map fun c => c.2.outboxMessageId).Nodup ∧
    ((creations (run.state n).world.log).map fun c => c.2.task.id).Nodup ∧
    (∀ id, id ∈ (creations (run.state n).world.log).map (fun c => c.2.outboxMessageId) ↔
      ((run.state n).world.row (.message id)).isSome) ∧
    (∀ i result, (i, result) ∈ creations (run.state n).world.log → 1 ≤ result.task.id ∧
      ∃ row, (run.state n).world.row (.message result.outboxMessageId) = some row ∧
        row.topic = "task.created.v1" ∧
        row.payload = .dict [("version", .int 1), ("task_id", .int result.task.id)] ∧
        jobName row.topic = .ok "process_task_created_job" ∧
        validatePayload row.payload = .ok result.task.id ∧
        (codec.decode (codec.encode row.payload)).map validatePayload =
          some (.ok result.task.id)) ∧
    (∀ p result, Logs (run.state n) (run.state (n + 1)) p (.taskCreated result) →
      (run.state n).world.row (.task result.task.id) = none ∧
      ((run.state (n + 1)).world.row (.task result.task.id)).isSome ∧
      (run.state n).world.row (.message result.outboxMessageId) = none ∧
      ((run.state (n + 1)).world.row (.message result.outboxMessageId)).isSome) ∧
    (∀ p out payload taskId, Logs (run.state n) (run.state (n + 1)) p out →
      p.request = .job payload → validatePayload payload = .ok taskId →
      (∀ k, k ≠ .task taskId → (run.state (n + 1)).world.row k = (run.state n).world.row k) ∧
      ((run.state (n + 1)).world.row (.task taskId) = (run.state n).world.row (.task taskId) ∨
        ∃ row stamp, (run.state n).world.row (.task taskId) = some row ∧
          row.backgroundProcessedAt = none ∧
          (run.state (n + 1)).world.row (.task taskId) =
            some { row with backgroundProcessedAt := some stamp, updatedAt := stamp })) ∧
    ((∀ k, (run.state (n + 1)).world.row k = (run.state n).world.row k) ∨
      ∃ p out, Logs (run.state n) (run.state (n + 1)) p out) := by
  have hdistinct := run.creations_distinct n
  refine ⟨?_, ?_, fun id => ⟨fun h => ?_, fun h => ?_⟩, fun i result hmem => ?_,
    fun p result h => ?_, fun p out payload taskId h hp hpayload => ?_, ?_⟩
  · exact List.pairwise_map.mpr (hdistinct.imp fun h => h.2)
  · exact List.pairwise_map.mpr (hdistinct.imp fun h => h.1)
  · obtain ⟨⟨i, result⟩, hmem, rfl⟩ := List.mem_map.mp h
    obtain ⟨row, hrow, -⟩ := run.created_kept n (mem_creations.mp hmem)
    rw [hrow]
    rfl
  · obtain ⟨i, result, hmem, hid⟩ := run.message_created n h
    exact List.mem_map.mpr ⟨_, hmem, hid⟩
  -- the payload of a created message is the one the job accepts
  · have hpos := run.creation_pos n hmem
    obtain ⟨row, hrow, htopic, hpayload⟩ := run.created_kept n (mem_creations.mp hmem)
    refine ⟨hpos, row, hrow, htopic, hpayload, by rw [htopic]; rfl, ?_, ?_⟩
    · rw [hpayload, validatePayload_created hpos]
    · rw [hpayload, decode_taskCreatedPayload, Option.map_some, validatePayload_created hpos]
  · obtain ⟨i, hc⟩ := h.commits
    exact hc.creates
  · obtain ⟨i, hc⟩ := h.commits
    exact hc.job hp hpayload
  · obtain ⟨hrows, -⟩ | ⟨i, p, out, hc⟩ := run.step n
    · exact .inl hrows
    · exact .inr ⟨p, out, i, hc.proc, hc.log⟩

end Lsstack
