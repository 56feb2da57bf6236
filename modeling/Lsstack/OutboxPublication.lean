/-
No message is lost, and none is acknowledged without having been published.

* **`TaskSystemRun.published_enqueued`** — when a message becomes published, a
  job with its payload and its id as key has already been handed to the queue;
* **`TaskSystemRun.keeps`** — messages stay, with their contents;
* **`outbox_not_lost`** — both along every run of the relays, and that what is
  not published is offered again from the end of its lease.
-/
import Lsstack.OutboxDelivery

namespace Lsstack

open Concurrency

/-- Everything but a bare acknowledgement: only a relay pass acknowledges. -/
def Request.ViaRelay (q : Request) : Prop := ∀ id owner, q ≠ .acknowledge id owner

/-- The job of a message, as the queue has been asked for it. -/
def EnqueueCall.Delivers (call : EnqueueCall) (id : Uuid) (row : OutboxMessageModel) : Prop :=
  call.key = id.str ∧ call.payload = row.payload ∧ jobName row.topic = .ok call.job

/-- A step that is an acknowledgement by a relay finds the message published. -/
theorem Commits.delivered {cfg cfg' : TaskConfig} {i : ℕ}
    {p : Process Command Command.Reply Exn Request Response} {id : Uuid} {owner : String}
    (h : Commits cfg cfg' i p (.acknowledged id owner true)) (hp : p.request.ViaRelay)
    {row : OutboxMessageModel} (hrow : cfg.world.row (.message id) = some row) :
    ∃ call ∈ cfg.world.env.enqueued, call.Delivers id row := by
  obtain hrequest | ⟨message, rfl, ⟨row', hrow', htopic, hpayload⟩, job, hjob, hmem⟩ :=
    h.acknowledged id owner rfl
  · exact absurd hrequest (hp id owner)
  · obtain rfl := Option.some_inj.mp (hrow'.symm.trans hrow)
    exact ⟨_, hmem, rfl, hpayload.symm, htopic ▸ hjob⟩

namespace TaskSystemRun

variable {allowed : Request → Prop}

/-- **Messages stay, with their contents.** -/
theorem keeps (run : TaskSystemRun allowed) {m n : ℕ} (hmn : m ≤ n) :
    KeepsMessages (run.state m).world (run.state n).world := by
  refine run.monotone (fun cfg cfg' => KeepsMessages cfg.world cfg'.world)
    (fun cfg => .refl _) (fun h h' => h.trans h') (fun k _ => ?_) hmn
  obtain ⟨hrows, -⟩ | ⟨i, p, out, hc⟩ := run.step k
  · exact .of_row_eq hrows
  · exact fun id row hrow => (hc.message id).contents hrow

/-- The message of a committed create is in the outbox. -/
theorem created_kept (run : TaskSystemRun allowed) (n : ℕ) {i : ℕ} {result : TaskCreatedResult}
    (h : (i, .taskCreated result) ∈ (run.state n).world.log) :
    ∃ row, (run.state n).world.row (.message result.outboxMessageId) = some row ∧
      row.topic = taskCreatedTopic ∧ row.payload = taskCreatedPayload result.task.id := by
  induction n with
  | zero =>
    rw [run.unlogged] at h
    cases h
  | succ n ih =>
    have hold : (i, .taskCreated result) ∈ (run.state n).world.log →
        ∃ row, (run.state (n + 1)).world.row (.message result.outboxMessageId) = some row ∧
          row.topic = taskCreatedTopic ∧ row.payload = taskCreatedPayload result.task.id := by
      intro hmem
      obtain ⟨row, hrow, htopic, hpayload⟩ := ih hmem
      obtain ⟨row', hrow', htopic', hpayload', -⟩ := run.keeps n.le_succ _ row hrow
      exact ⟨row', hrow', htopic'.trans htopic, hpayload'.trans hpayload⟩
    -- an entry that is not new has its message, which keeps topic and payload
    obtain ⟨-, hlog⟩ | ⟨j, p, out, hc⟩ := run.step n
    · rw [hlog] at h
      exact hold h
    · rw [hc.log, List.mem_cons] at h
      obtain heq | hmem := h
      · cases heq
        have hstep := hc.message result.outboxMessageId
        generalize (run.state n).world.row (.message result.outboxMessageId) = row at hstep
        generalize hrow' : (run.state (n + 1)).world.row (.message result.outboxMessageId) = row'
          at hstep
        cases hstep with
        | same _ hwrites => simp [Outcome.writes] at hwrites
        | created result' createdAt hout hid =>
          cases hout
          exact ⟨_, rfl, rfl, rfl⟩
        | claimed owner messages now expires model hout => cases hout
        | acknowledged owner publishedAt row hout => cases hout
        | failed owner error row hout => cases hout
      · exact hold hmem

/-- **What is published has been handed to the queue before.** -/
theorem published_enqueued (run : TaskSystemRun Request.ViaRelay) (n : ℕ) {id : Uuid}
    {row : OutboxMessageModel} (hrow : (run.state n).world.row (.message id) = some row)
    (hpub : row.publishedAt.isSome) :
    ∃ m row₀, m < n ∧ (run.state m).world.row (.message id) = some row₀ ∧
      row₀.publishedAt = none ∧ (run.state (m + 1)).world.row (.message id) = some row ∧
      ∃ call ∈ (run.state m).world.env.enqueued, call.Delivers id row := by
  induction n with
  | zero =>
    rw [run.noMessages] at hrow
    cases hrow
  | succ n ih =>
    have hold : (run.state n).world.row (.message id) = some row →
        ∃ m row₀, m < n + 1 ∧ (run.state m).world.row (.message id) = some row₀ ∧
          row₀.publishedAt = none ∧ (run.state (m + 1)).world.row (.message id) = some row ∧
          ∃ call ∈ (run.state m).world.env.enqueued, call.Delivers id row := by
      intro hrow
      obtain ⟨m, row₀, hm, hrest⟩ := ih hrow
      exact ⟨m, row₀, Nat.lt_succ_of_lt hm, hrest⟩
    obtain ⟨hrows, -⟩ | ⟨i, p, out, hc⟩ := run.step n
    · exact hold ((hrows _).symm.trans hrow)
    have hstep := hc.message id
    generalize hrow₀ : (run.state n).world.row (.message id) = row₀ at hstep
    rw [hrow] at hstep
    -- only an acknowledgement publishes, and then the call is in the queue
    cases hstep with
    | same _ hwrites => exact hold hrow₀
    | created result createdAt hout hid => cases hpub
    | claimed owner messages now expires model hout hmem hall hclock hnow heligible =>
      rw [OutboxRepository.eligible, Bool.and_eq_true, Option.isNone_iff_eq_none] at heligible
      have hsome : model.publishedAt.isSome = true := hpub
      rw [heligible.1] at hsome
      cases hsome
    | acknowledged owner publishedAt row₀ hout howned =>
      rw [OutboxRepository.ownedUnpublished, Bool.and_eq_true, Option.isNone_iff_eq_none]
        at howned
      subst hout
      obtain ⟨call, hcall, hdelivers⟩ := hc.delivered (run.admitted n hc.proc) hrow₀
      exact ⟨n, row₀, n.lt_succ_self, hrow₀, howned.2, hrow, call, hcall, hdelivers⟩
    | failed owner error row₀ hout howned =>
      rw [OutboxRepository.ownedUnpublished, Bool.and_eq_true, Option.isNone_iff_eq_none]
        at howned
      have hsome : row₀.publishedAt.isSome = true := hpub
      rw [howned.2] at hsome
      cases hsome

/-- **Until it is claimed again** a message is eligible from the end of its
lease, or it is published. -/
theorem eligible_until_claim (run : TaskSystemRun allowed) {m n : ℕ} (hmn : m ≤ n) {id : Uuid}
    {row row' : OutboxMessageModel} (hrow : (run.state m).world.row (.message id) = some row)
    (hrow' : (run.state n).world.row (.message id) = some row') (hpub : row'.publishedAt = none)
    {new : List (ℕ × Outcome)} (hlog : (run.state n).world.log = new ++ (run.state m).world.log)
    (hnew : claims id new = 0) {t : Instant}
    (ht : ∀ expires, row.leaseExpiresAt = some expires → expires ≤ t) :
    OutboxRepository.eligible t row' = true := by
  obtain ⟨l, hl, -⟩ := (run.lease_path id m).1 row hrow
  obtain ⟨new', hlog', hfollows⟩ := run.lease_between id hmn
  obtain rfl := List.append_cancel_right (hlog'.symm.trans hlog)
  obtain ⟨row₁, l', hrow₁, hl', hpath, -⟩ := hfollows row l hrow hl
  obtain rfl := Option.some_inj.mp (hrow₁.symm.trans hrow')
  rw [claims_eq_countP] at hnew
  refine (hl'.eligible_iff t).mpr ?_
  obtain rfl | hdone := hpath.unclaimed hnew
  · cases l' with
    | fresh => trivial
    | held owner expires earlier => exact ht expires hl.2.2.1
    | done earlier =>
      have hsome := hl'.1
      rw [hpub] at hsome
      cases hsome
  · have hsome := hl'.isDone.trans hdone
    rw [hpub] at hsome
    cases hsome

end TaskSystemRun

/-- **No message is lost or acknowledged without publication.** -/
theorem outbox_not_lost (run : TaskSystemRun Request.ViaRelay) (n : ℕ) :
    (∀ id row, (run.state n).world.row (.message id) = some row → row.publishedAt.isSome →
      ∃ m row₀, m < n ∧ (run.state m).world.row (.message id) = some row₀ ∧
        row₀.publishedAt = none ∧ (run.state (m + 1)).world.row (.message id) = some row ∧
        ∃ call ∈ (run.state m).world.env.enqueued, call.Delivers id row) ∧
    (∀ i result, (i, .taskCreated result) ∈ (run.state n).world.log →
      ∃ row, (run.state n).world.row (.message result.outboxMessageId) = some row ∧
        row.topic = taskCreatedTopic ∧ row.payload = taskCreatedPayload result.task.id) ∧
    (∀ m id row, m ≤ n → (run.state m).world.row (.message id) = some row →
      ∃ row', (run.state n).world.row (.message id) = some row' ∧ row'.topic = row.topic ∧
        row'.payload = row.payload ∧ row'.createdAt = row.createdAt ∧
        ∀ new, (run.state n).world.log = new ++ (run.state m).world.log → claims id new = 0 →
          row'.publishedAt = none →
          ∀ t, (∀ expires, row.leaseExpiresAt = some expires → expires ≤ t) →
            OutboxRepository.eligible t row' = true) := by
  refine ⟨fun id row hrow hpub => run.published_enqueued n hrow hpub,
    fun i result hmem => run.created_kept n hmem, fun m id row hmn hrow => ?_⟩
  obtain ⟨row', hrow', htopic, hpayload, hcreated⟩ := run.keeps hmn id row hrow
  exact ⟨row', hrow', htopic, hpayload, hcreated, fun new hlog hnew hpub t ht =>
    run.eligible_until_claim hmn hrow hrow' hpub hlog hnew ht⟩

end Lsstack
