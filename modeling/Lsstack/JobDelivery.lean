/-
Jobs come from committed creations.

The worker is handed what the queue has stored, as JSON.  Whatever is stored has been enqueued for
a claimed message, and whatever message there is was written by a creation that has committed.

* `DeliveryRun.jobs_known` — a stored job is that of a message;
* **`DeliveryRun.jobs_of_creations`** — a job that runs carries the payload of a committed creation,
  and a task is processed after its creation;
* `deliveryTrace` — a run in which one does.
-/
import Lsstack.TaskMessages
import Lsstack.OutboxDelivery

namespace Lsstack

open Concurrency

/-! ### The queue hands out its jobs -/

section Steps

variable {C Q A W X ε : Type} {R : C → Type} {M : Machine C R ε Q A W X}
  {allowed allowed' : Config C R ε Q A W → Q → Prop} {cfg cfg' : Config C R ε Q A W}

/-- A step among some requests is one among more. -/
theorem step_of_allowed (h : ∀ cfg q, allowed cfg q → allowed' cfg q)
    (hs : M.Step allowed cfg cfg') : M.Step allowed' cfg cfg' := by
  cases hs with
  | start free may => exact .start free (h _ _ may)
  | act runs does => exact .act runs does
  | crash runs => exact .crash runs

end Steps

/-- The jobs the queue hands out: those it has stored, their payloads read back from JSON.  Nobody
else processes a task. -/
def HandedOut (codec : QueueCodec) (queue : Queue) : Request → Prop
  | .job payload => ∃ call ∈ queue.jobs, codec.decode (codec.encode call.payload) = some payload
  | .process _ => False
  | _ => True

theorem HandedOut.mono {codec : QueueCodec} {queue queue' : Queue} {q : Request}
    (h : HandedOut codec queue q) (hjobs : ∀ call ∈ queue.jobs, call ∈ queue'.jobs) :
    HandedOut codec queue' q := by
  cases q with
  | job payload =>
    obtain ⟨call, hmem, hpayload⟩ := h
    exact ⟨call, hjobs call hmem, hpayload⟩
  | process taskId => exact h
  | _ => trivial

/-- Runs in which the worker is handed the jobs of the queue; at first there are neither messages
nor jobs. -/
structure DeliveryRun (codec : QueueCodec) extends
    DbRun (fun _ _ => false) Request.code fun cfg q => HandedOut codec cfg.world.env q where
  noMessages : ∀ id, (state 0).world.row (.message id) = none
  positive : 1 ≤ (state 0).world.seq .tasks
  noJobs : (state 0).world.env.jobs = []

/-! ### Stored jobs -/

section Jobs

variable {isHash : String → String → Bool} {w w' : Db} {i : ℕ} {x : Choice Fault Decision}

/-- A stored job is an old one, or the one that has just been enqueued. -/
theorem outside_jobs {queue queue' : Queue} {y : Outside} {d : Decision} {r : Except Exn y.Reply}
    (h : outside isHash queue y d = some (r, queue')) :
    queue'.jobs = queue.jobs ∨ ∃ call, y = .enqueue call ∧ queue'.jobs = call :: queue.jobs := by
  -- an enqueue adds its job, unless it is refused
  cases y with
  | enqueue call =>
    cases d
    all_goals cases h
    · exact .inr ⟨call, rfl, rfl⟩
    · exact .inl rfl
    · exact .inr ⟨call, rfl, rfl⟩
  | hash password =>
    cases d
    case hashed h' =>
      simp only [outside] at h
      split at h
      · cases h
        exact .inl rfl
      · cases h
    all_goals cases h
  | verify password passwordHash =>
    cases d
    case upgrade replacement =>
      simp only [outside] at h
      split at h
      · split at h
        · cases h
          exact .inl rfl
        · split at h
          · cases h
            exact .inl rfl
          · cases h
      · cases h
        exact .inl rfl
    all_goals cases h
  | _ =>
    cases d
    all_goals cases h
    exact .inl rfl

theorem exec_jobs {c : Command} {r : Except Exn c.Reply}
    (he : exec Fault.exn (outside isHash) w i c x = some (r, w')) :
    w'.env.jobs = w.env.jobs ∨
      ∃ call, c = .ext (.enqueue call) ∧ w'.env.jobs = call :: w.env.jobs := by
  obtain hsame | ⟨y, rfl⟩ := (exec_seq_env he).2
  · rw [hsame]
    exact .inl rfl
  · obtain ⟨rfl, -⟩ | ⟨d, env, hout, rfl⟩ := exec_ext he
    · exact .inl rfl
    · obtain hsame | ⟨call, rfl, hjobs⟩ := outside_jobs hout
      · exact .inl hsame
      · exact .inr ⟨call, rfl, hjobs⟩

/-- The queue forgets no job. -/
theorem exec_keeps_jobs {c : Command} {r : Except Exn c.Reply}
    (he : exec Fault.exn (outside isHash) w i c x = some (r, w')) :
    ∀ call ∈ w.env.jobs, call ∈ w'.env.jobs := by
  intro call hcall
  obtain hsame | ⟨new, -, hjobs⟩ := exec_jobs he
  · rw [hsame]
    exact hcall
  · rw [hjobs]
    exact List.mem_cons_of_mem _ hcall

end Jobs

/-- The job is that of a message. -/
def EnqueueCall.OfMessage (call : EnqueueCall) (w : Db) : Prop :=
  ∃ message : ClaimedMessage, message.Known w ∧
    ∃ job, jobName message.topic = .ok job ∧ call = enqueueCall job message

theorem EnqueueCall.OfMessage.keeps {call : EnqueueCall} {w w' : Db} (h : call.OfMessage w)
    (hk : KeepsMessages w w') : call.OfMessage w' := by
  obtain ⟨message, hknown, hcall⟩ := h
  exact ⟨message, hknown.keeps hk, hcall⟩

namespace DeliveryRun

variable {codec : QueueCodec} (run : DeliveryRun codec)

theorem holds (n : ℕ) :
    Sound.Holds outboxing .idle (fun _ _ _ => True)
      (RelyGuarantee.Invariant (fun _ => True) OutboxAsserts) (run.state n) :=
  (outbox_relyGuarantee _).run run.toRun trivial
    (fun i => .idle (fun k => by simp [run.unlocked k]) fun out => by simp [run.unlogged])
    n fun _ _ => trivial

theorem next_of_tasks (n : ℕ) :
    run.state (n + 1) = run.state n ∨
      taskMachine.Step (fun _ _ => True) (run.state n) (run.state (n + 1)) :=
  (run.next n).imp_right (step_of_allowed fun _ _ _ => trivial)

/-- As a run of the task and outbox side. -/
def tasks : TaskSystemRun fun _ => True where
  state := run.state
  empty := run.empty
  next := run.next_of_tasks
  unlocked := run.unlocked
  unlogged := run.unlogged
  noMessages := run.noMessages
  positive := run.positive

/-- **Stored jobs are those of messages.** -/
theorem jobs_known (n : ℕ) :
    ∀ call ∈ (run.state n).world.env.jobs, call.OfMessage (run.state n).world := by
  induction n with
  | zero =>
    rw [run.noJobs]
    exact fun call hcall => absurd hcall List.not_mem_nil
  | succ n ih =>
    have hkeeps : KeepsMessages (run.state n).world (run.state (n + 1)).world :=
      run.tasks.keeps n.le_succ
    have hold : ∀ call ∈ (run.state n).world.env.jobs,
        call.OfMessage (run.state (n + 1)).world := fun call hcall => (ih call hcall).keeps hkeeps
    rcases run.next n with hn | hn
    · rw [hn]
      exact ih
    obtain ⟨g, hJ, hall⟩ := run.holds n
    generalize run.state (n + 1) = cfg at hn hold hkeeps ⊢
    cases hn with
    | start free may => exact hold
    | crash runs => exact hold
    | @act i q calls c k x r w runs does =>
      intro call hcall
      obtain hsame | ⟨new, rfl, hjobs⟩ := exec_jobs does
      · exact hold call (hsame ▸ hcall)
      -- the protocol lets only jobs of the batch be enqueued
      · have hm := hall i
        have ha := hJ.2 i
        rw [runs] at hm ha
        obtain ⟨message, hmem, job, hjob, rfl⟩ := hm.1
        rcases List.mem_cons.mp (hjobs ▸ hcall) with rfl | hcall
        · exact ⟨message, (ha.batch message hmem).keeps hkeeps, job, hjob, rfl⟩
        · exact hold call hcall

/-- Every process has been handed out. -/
theorem handed_out (n : ℕ) {i : ℕ} {p : Process Command Command.Reply Exn Request Response}
    (hp : (run.state n).procs i = some p) :
    HandedOut codec (run.state n).world.env p.request := by
  induction n generalizing p with
  | zero =>
    rw [run.empty i] at hp
    cases hp
  | succ n ih =>
    rcases run.next n with hn | hn
    · rw [hn] at hp ⊢
      exact ih hp
    generalize run.state (n + 1) = cfg at hn hp ⊢
    cases hn with
    | @start j q free may =>
      by_cases hij : i = j
      · subst hij
        rw [Config.set_procs_self] at hp
        cases hp
        exact may
      · rw [Config.set_procs_of_ne _ hij] at hp
        exact ih hp
    | @act j q calls c k x r w runs does =>
      -- a job that has been handed out stays stored
      have hjobs := exec_keeps_jobs does
      by_cases hij : i = j
      · subst hij
        rw [Config.set_procs_self] at hp
        cases hp
        exact (ih runs).mono hjobs
      · rw [Config.set_procs_of_ne _ hij] at hp
        exact (ih hp).mono hjobs
    | @crash j q calls c k runs =>
      by_cases hij : i = j
      · subst hij
        rw [Config.set_procs_self] at hp
        cases hp
        have hq := ih runs
        exact hq
      · rw [Config.set_procs_of_ne _ hij] at hp
        exact ih hp

/-- A job that runs is that of a committed creation. -/
theorem job_created (n : ℕ) {i : ℕ} {p : Process Command Command.Reply Exn Request Response}
    (hp : (run.state n).procs i = some p) {payload : JsonValue} (hjob : p.request = .job payload) :
    ∃ j result call, (j, .taskCreated result) ∈ (run.state n).world.log ∧
      call ∈ (run.state n).world.env.jobs ∧ call.key = result.outboxMessageId.str ∧
      payload = taskCreatedPayload result.task.id ∧
      validatePayload payload = .ok result.task.id := by
  have hhanded := run.handed_out n hp
  rw [hjob] at hhanded
  obtain ⟨call, hcall, hpayload⟩ := hhanded
  obtain ⟨message, ⟨row, hrow, -, hcontents⟩, job, -, rfl⟩ := run.jobs_known n call hcall
  have hsome : ((run.tasks.state n).world.row (.message message.id)).isSome := by
    rw [show (run.tasks.state n).world.row (.message message.id) = some row from hrow]
    rfl
  obtain ⟨j, result, hmem, hid⟩ := run.tasks.message_created n hsome
  obtain ⟨row', hrow', -, hwritten⟩ := run.tasks.created_kept n (mem_creations.mp hmem)
  rw [hid] at hrow'
  obtain rfl := Option.some_inj.mp (hrow'.symm.trans hrow)
  -- what the worker decodes is what the creation has written
  have hdecoded := decode_taskCreatedPayload codec result.task.id
  rw [← hwritten, hcontents] at hdecoded
  obtain rfl := Option.some_inj.mp (hpayload.symm.trans hdecoded)
  refine ⟨j, result, _, mem_creations.mp hmem, hcall, congrArg Uuid.str hid.symm,
    hcontents.symm.trans hwritten, ?_⟩
  rw [← hcontents, hwritten]
  exact validatePayload_created (run.tasks.creation_pos n hmem)

end DeliveryRun

/-- In a log, newest first, tasks are processed after their creation. -/
def ProcessedAfterCreation : List (ℕ × Outcome) → Prop
  | [] => True
  | (_, .taskProcessed taskId _) :: older =>
    (∃ j result, (j, .taskCreated result) ∈ older ∧ result.task.id = taskId) ∧
      ProcessedAfterCreation older
  | _ :: older => ProcessedAfterCreation older

/-- **What the worker does comes from committed creations**: its jobs carry their payloads, under
the ids of their messages, and no task is processed before its creation. -/
theorem DeliveryRun.jobs_of_creations {codec : QueueCodec} (run : DeliveryRun codec) (n : ℕ) :
    (∀ i p payload, (run.state n).procs i = some p → p.request = .job payload →
      ∃ j result call, (j, .taskCreated result) ∈ (run.state n).world.log ∧
        call ∈ (run.state n).world.env.jobs ∧ call.key = result.outboxMessageId.str ∧
        payload = taskCreatedPayload result.task.id ∧
        validatePayload payload = .ok result.task.id) ∧
    ProcessedAfterCreation (run.state n).world.log := by
  refine ⟨fun i p payload hp hjob => run.job_created n hp hjob, ?_⟩
  induction n with
  | zero =>
    rw [run.unlogged]
    trivial
  | succ n ih =>
    rcases run.next n with hn | hn
    · rw [hn]
      exact ih
    obtain ⟨-, hlog⟩ | ⟨i, p, out, g, hp, hw, hguard, ha⟩ := commit_cases (run.holds n) hn
    · rw [hlog]
      exact ih
    rw [hw]
    cases out with
    | taskProcessed taskId result =>
      obtain ⟨-, q, hq, hmarks, htask⟩ := hguard
      obtain rfl : q = p.request := Option.some_inj.mp (hq.symm.trans (ha.request p rfl))
      refine ⟨?_, ih⟩
      -- of the requests that mark a task, only jobs are handed out
      have hhanded := run.handed_out n hp
      cases hjob : p.request with
      | job payload =>
        obtain ⟨j, created, call, hmem, -, -, -, hvalid⟩ := run.job_created n hp hjob
        rw [hjob, Request.task, hvalid] at htask
        exact ⟨j, created, hmem, Option.some_inj.mp htask⟩
      | process taskId' =>
        rw [hjob] at hhanded
        exact hhanded.elim
      | _ =>
        rw [hjob] at hmarks
        cases hmarks
    | _ => exact ih

/-! ### A job that runs -/

section Trace

variable (codec : QueueCodec)

/-- A user creates a task, and its message, number 7, is relayed. -/
def relayed : List (Label Request (Choice Fault Decision)) :=
  creates 0 1 ++
    [.start 1 (.relay "relay" 60 25), .act 1 (.ext (.time 2)), .act 1 .ok, .act 1 .ok, .act 1 .ok,
      .act 1 .ok, .act 1 (.ext .accepted), .act 1 (.ext (.time 3)), .act 1 .ok, .act 1 .ok]

/-- The statements of the job. -/
def worked : List (Label Request (Choice Fault Decision)) :=
  [.act 2 (.ext (.time 4)), .act 2 .ok, .act 2 .ok, .act 2 .ok]

/-- The worker is handed the job of the message. -/
def delivered : List (Label Request (Choice Fault Decision)) :=
  relayed ++ .start 2 (.job (taskCreatedPayload 1)) :: worked

theorem relayed_handedOut {i : ℕ} {q : Request} (h : .start i q ∈ relayed) (queue : Queue) :
    HandedOut codec queue q := by
  simp only [relayed, creates, List.mem_append, List.mem_cons, List.not_mem_nil, or_false,
    Label.start.injEq, reduceCtorEq, or_self] at h
  obtain ⟨-, rfl⟩ | ⟨-, rfl⟩ := h
  · trivial
  · trivial

/-- What the worker is handed, the queue has stored. -/
theorem delivered_handedOut (n i : ℕ) (q : Request) (h : delivered[n]? = some (.start i q)) :
    HandedOut codec (taskMachine.trace ⟨adaDb, fun _ => none⟩ delivered n).world.env q := by
  rw [delivered, List.getElem?_append] at h
  split at h
  · exact relayed_handedOut codec (List.mem_of_getElem? h) _
  · obtain ⟨m, rfl⟩ := Nat.exists_eq_add_of_le (Nat.le_of_not_lt ‹_›)
    rw [Nat.add_sub_cancel_left] at h
    cases m with
    | zero =>
      cases h
      exact ⟨_, List.mem_singleton_self _, decode_taskCreatedPayload codec 1⟩
    | succ m =>
      have hmem : Label.start i q ∈ worked := List.mem_of_getElem? h
      simp [worked] at hmem

/-- The run in which they do so. -/
def deliveryTrace : DeliveryRun codec where
  toRun := taskMachine.traceRun (fun cfg q => HandedOut codec cfg.world.env q) adaDb delivered
    (delivered_handedOut codec)
  unlocked := adaDb_unlocked
  unlogged := adaDb_unlogged
  noMessages := adaDb_noMessages
  positive := adaDb_positive
  noJobs := adaDb_noJobs

end Trace

/-- The job runs, and processes the task. -/
theorem jobs_of_creations_trace :
    (∃ j result call, (j, .taskCreated result) ∈ ((deliveryTrace compactJson).state 22).world.log ∧
      call ∈ ((deliveryTrace compactJson).state 22).world.env.jobs ∧
      call.key = result.outboxMessageId.str ∧
      taskCreatedPayload 1 = taskCreatedPayload result.task.id ∧
      validatePayload (taskCreatedPayload 1) = .ok result.task.id) ∧
    ProcessedAfterCreation ((deliveryTrace compactJson).state 22).world.log ∧
    ∃ result older, ((deliveryTrace compactJson).state 22).world.log =
      (2, .taskProcessed 1 (some result)) :: older := by
  obtain ⟨hjobs, hprocessed⟩ := (deliveryTrace compactJson).jobs_of_creations 22
  exact ⟨hjobs 2 _ _ rfl rfl, hprocessed, _, _, rfl⟩

end Lsstack
