/-
A single worker that relays at every tick, while some messages cannot be published.

* `RelayTicks` — the passes, two seconds apart;
* `relaying` — the protocol of such a pass;
* `Relayed` — what a pass does to the rows;
* `RelayTicks.rounds` — the passes are rounds in which the failing messages rest for a lease;
* `RelayTicks.exists_settled` — at some tick no lease of the first outbox runs any more;
* **`relay_clears_iff`** — when every other message is published.
-/
import Lsstack.Backoff
import Lsstack.RelayPasses

namespace Lsstack

open Concurrency

/-! ### Passes at the ticks of a clock -/

/-- An enqueue raises for the messages of `F` and for no other; nothing else fails. -/
def Expected (F : Uuid → Prop) : (c : Command) → Except Exn c.Reply → Prop
  | .ext (.enqueue job), r => ∀ id, job.key = id.str →
    (F id → ∃ e, r = .error e ∧ e ≠ .cancelledError) ∧ (¬ F id → ∃ b, r = .ok b)
  | _, r => ∃ v, r = .ok v

/-- A statement of the worker, which hashes no password. -/
def WorkerStep (F : Uuid → Prop) (w : Db) (c : Command) (r : Except Exn c.Reply) (w' : Db) : Prop :=
  Acts Fault.exn (outside fun _ _ => true) 0 w c r w' ∧ Expected F c r

/-- The time of a tick of `* * * * * */2`. -/
def tick (start : Instant) (n : ℕ) : Instant := start + seconds (2 * n)

/-- A pass by a worker that is alone; its claim reads the clock at `t`. -/
def RelayPass (F : Uuid → Prop) (owner : String) (leaseDuration : Duration) (batchSize : ℕ)
    (t : Instant) (w w' : Db) : Prop :=
  ∃ w₁ events a,
    (relayOnce owner leaseDuration batchSize).Runs (fun w w' => w' = w) (WorkerStep F) w
      (⟨w, .ext .now, .ok t, w₁⟩ :: events) a w'

/-- `outbox_lease_seconds` and `outbox_batch_size`, as `Settings` accepts them. -/
structure OutboxSettings where
  leaseSeconds : ℕ
  batchSize : ℕ
  one_le_lease : 1 ≤ leaseSeconds
  lease_le : leaseSeconds ≤ 3600
  one_le_batch : 1 ≤ batchSize
  batch_le : batchSize ≤ 1000

/-- For how many ticks a message that has been claimed cannot be claimed again. -/
def OutboxSettings.leaseTicks (settings : OutboxSettings) : ℕ := (settings.leaseSeconds + 1) / 2

/-- The messages that are not published are of a topic with a handler, those of `F` excepted. -/
def TopicsKnown (F : Uuid → Prop) (w : Db) : Prop :=
  ∀ id row, w.row (.message id) = some row → row.publishedAt = none → ¬ F id →
    row.topic = taskCreatedTopic

/-- The passes of a single worker, one at each tick; publication of the messages of `F` always
raises, and that of every other message succeeds. -/
structure RelayTicks (F : Uuid → Prop) (settings : OutboxSettings) (start : Instant) where
  owner : String
  owner_ne : owner ≠ ""
  state : ℕ → Db
  unlocked : ∀ k, ((state 0).cell k).hold.owner = none
  known : TopicsKnown F (state 0)
  pass : ∀ n, RelayPass F owner (seconds settings.leaseSeconds) settings.batchSize
    (tick start n) (state n) (state (n + 1))

/-! ### The protocol of a pass -/

/-- What the worker's statements are replied, and what they do. -/
def relaying (F : Uuid → Prop) : Protocol Command Command.Reply Exn DbSession where
  guard := fun _ _ => True
  reply := fun s c r => Expected F c r ∧ ∀ v, r = .ok v → s.Replies (fun _ _ => True) c v
  step := fun s c r s' => s' = match r with
    | .ok _ => s.next c
    | .error _ => s

/-- The worker sees the rows of `s`, and nobody has locked any. -/
def Solitary (w : Db) (s : DbSession) : Prop := Alone 0 w s ∧ ∀ k, ¬ s.blocked k

section Protocol

variable {F : Uuid → Prop} {w w' : Db} {s : DbSession}

/-- Only an enqueue raises. -/
theorem Expected.enqueue {c : Command} {e : Exn} (h : Expected F c (.error e)) :
    ∃ job, c = .ext (.enqueue job) := by
  cases c with
  | ext x =>
    cases x with
    | enqueue job => exact ⟨job, rfl⟩
    | _ =>
      obtain ⟨v, hv⟩ := h
      cases hv
  | _ =>
    obtain ⟨v, hv⟩ := h
    cases hv

/-- **The worker's statements follow the protocol.** -/
theorem WorkerStep.follows (hs : Solitary w s) {c : Command} {r : Except Exn c.Reply}
    (h : WorkerStep F w c r w') :
    (relaying F).reply s c r ∧ ∀ s', (relaying F).step s c r s' → Solitary w' s' := by
  obtain ⟨⟨x, he⟩, hexpected⟩ := h
  obtain ⟨halone, hfree⟩ := hs
  cases r with
  | ok v =>
    have hanswered : Answered (fun _ _ => True) c v := by cases c <;> trivial
    obtain ⟨hreplies, hnext⟩ := halone.exec he hanswered
    refine ⟨⟨hexpected, ?_⟩, ?_⟩
    · rintro v' ⟨⟩
      exact hreplies
    · rintro s' rfl
      refine ⟨hnext, fun k => ?_⟩
      show ¬ (s.next c).blocked k
      rw [Session.next_blocked]
      exact hfree k
  | error e =>
    refine ⟨⟨hexpected, fun _ h => by cases h⟩, ?_⟩
    rintro s' rfl
    obtain ⟨job, rfl⟩ := hexpected.enqueue
    obtain ⟨rfl, -⟩ | ⟨d, env, -, rfl⟩ := exec_ext he
    · exact ⟨halone, hfree⟩
    · exact ⟨halone.setEnv env, hfree⟩

/-- Any statement but an enqueue. -/
def Internal : Command → Prop
  | .ext (.enqueue _) => False
  | _ => True

/-- Code that enqueues nothing runs as it does alone. -/
theorem relaying_of_sequential {α : Type} {p : Tx α} (hp : p.Strict Internal)
    {Q : Except Exn α → DbSession → Prop} (h : p.Meets (sequential fun _ _ => True) s Q) :
    p.Meets (relaying F) s Q := by
  induction p generalizing s with
  | ret a => exact h
  | raise e => exact h
  | call c k ih =>
    obtain ⟨hc, -, hok⟩ := hp
    refine ⟨trivial, ?_⟩
    rintro r ⟨hexpected, hreplies⟩
    cases r with
    | ok v =>
      obtain ⟨_, rfl, hmeets⟩ := h.2 (.ok v) ⟨v, rfl, hreplies v rfl⟩
      exact ⟨_, rfl, ih _ (hok v) hmeets⟩
    | error e =>
      obtain ⟨job, rfl⟩ := hexpected.enqueue
      exact hc.elim

/-- A transaction that enqueues nothing is committed. -/
theorem relaying_transaction {α : Type} {outcome : α → Outcome} {operation : Tx α}
    (hp : operation.Strict Internal) {K : α → DbSession → Prop}
    (h : operation.Meets (sequential fun _ _ => True) s fun r s' => ∃ a, r = .ok a ∧ K a s')
    {Q : Except Exn α → DbSession → Prop}
    (hQ : ∀ a s', K a s' → Q (.ok a) { s' with committed := s'.rows }) :
    (transactionRunner outcome operation).Meets (relaying F) s Q := by
  refine meets_transactionRunner.mpr ((relaying_of_sequential hp h).mono ?_)
  rintro _ s' ⟨a, rfl, hK⟩
  refine Program.meets_perform.mpr ⟨trivial, ?_⟩
  rintro r ⟨⟨v, rfl⟩, -⟩
  exact ⟨_, rfl, hQ a s' hK⟩

end Protocol

/-! ### What a pass does -/

/-- What a pass makes of a message it has claimed. -/
structure Relays (F : Uuid → Prop) (expiresAt : Option Instant) (id : Uuid)
    (row row' : OutboxMessageModel) : Prop where
  createdAt : row'.createdAt = row.createdAt
  published : ¬ F id → row'.publishedAt ≠ none
  kept : F id → row'.publishedAt = none ∧ row'.leaseExpiresAt = expiresAt

/-- One message has been handled. -/
structure Settles (F : Uuid → Prop) (id : Uuid) (row : OutboxMessageModel) (s s' : DbSession) :
    Prop where
  committed : s'.committed = s'.rows
  message : ∃ row', s'.rows (.message id) = some row' ∧ Relays F row.leaseExpiresAt id row row'
  others : ∀ k, k ≠ .message id → s'.rows k = s.rows k

section Pass

variable {F : Uuid → Prop} {s : DbSession} {owner : String} {message : ClaimedMessage}

theorem relaying_publishMessage {Q : Except Exn Unit → DbSession → Prop}
    (hknown : ¬ F message.id → message.topic = taskCreatedTopic)
    (hok : ¬ F message.id → Q (.ok ()) s)
    (hraise : F message.id → ∀ e, e ≠ .cancelledError → Q (.error e) s) :
    (publishMessage message).Meets (relaying F) s Q := by
  by_cases htopic : message.topic = taskCreatedTopic
  · have hjob : jobName message.topic = .ok taskCreatedJob := by
      rw [htopic]
      rfl
    rw [publishMessage, hjob]
    show ((call (.enqueue (enqueueCall taskCreatedJob message))).bind fun _ => .ret ()).Meets _ _ _
    refine Program.meets_bind.mpr (Program.meets_perform.mpr ⟨trivial, ?_⟩)
    rintro r ⟨hexpected, -⟩
    obtain ⟨hfails, hsucceeds⟩ := hexpected message.id rfl
    by_cases hF : F message.id
    · obtain ⟨e, rfl, he⟩ := hfails hF
      exact ⟨s, rfl, hraise hF e he⟩
    · obtain ⟨b, rfl⟩ := hsucceeds hF
      exact ⟨s, rfl, hok hF⟩
  · have hF : F message.id := by
      by_contra hF
      exact htopic (hknown hF)
    have hjob : jobName message.topic = .error (.valueError
        s!"No SAQ handler is registered for outbox topic {pyRepr message.topic}.") := if_neg htopic
    rw [publishMessage, hjob]
    exact hraise hF _ fun h => by cases h

/-- A transaction that marks the row of the message. -/
theorem relaying_mark {outcome : Bool → Outcome} {operation : Tx Bool} (id : Uuid)
    (row : OutboxMessageModel) {Q : Except Exn Bool → DbSession → Prop}
    (hp : operation.Strict Internal)
    (h : operation.Meets (sequential fun _ _ => True) s fun r s' => ∃ b row', r = .ok b ∧
      Relays F row.leaseExpiresAt id row row' ∧ s' = s.put (.message id) (some row'))
    (hQ : ∀ b s', Settles F id row s s' → Q (.ok b) s') :
    (transactionRunner outcome operation).Meets (relaying F) s Q := by
  refine relaying_transaction (K := fun _ s' => ∃ row', Relays F row.leaseExpiresAt id row row' ∧
    s' = s.put (.message id) (some row')) hp (h.mono ?_) ?_
  · rintro _ s' ⟨b, row', rfl, hrow', rfl⟩
    exact ⟨b, rfl, row', hrow', rfl⟩
  · rintro b _ ⟨row', hrow', rfl⟩
    exact hQ b _ ⟨rfl, ⟨row', Session.put_rows_self _ _ _, hrow'⟩, fun k hk =>
      Session.put_rows_of_ne _ hk _⟩

/-- **One message is published, or keeps its lease.** -/
theorem relaying_relayMessage {n : ℕ} {row : OutboxMessageModel}
    (hrow : s.rows (.message message.id) = some row)
    (howned : OutboxRepository.ownedUnpublished owner row = true)
    (hknown : ¬ F message.id → message.topic = taskCreatedTopic) :
    (relayMessage owner n message).Meets (relaying F) s fun r s' =>
      (∃ n', r = .ok n') ∧ Settles F message.id row s s' := by
  have hunpublished : row.publishedAt = none := by
    simp only [OutboxRepository.ownedUnpublished, Bool.and_eq_true,
      Option.isNone_iff_eq_none] at howned
    exact howned.2
  -- published and acknowledged, or the failure is recorded
  refine Program.meets_handle.mpr (Program.meets_bind.mpr (relaying_publishMessage hknown ?_ ?_))
  · intro hF
    refine Program.meets_bind.mpr (relaying_mark message.id row ?_ ?_ ?_)
    · exact (Program.strict_perform trivial).bind fun t =>
        (Program.strict_perform trivial).bind fun _ => trivial
    · refine Program.meets_bind.mpr (alone_call.mpr fun t _ => ?_)
      exact Program.meets_bind.mpr (alone_update hrow howned
        ⟨true, row.acknowledged t, rfl, ⟨rfl, (fun _ h => by cases h), fun h => absurd h hF⟩, rfl⟩)
    · intro b s' hsettles
      exact ⟨⟨_, rfl⟩, hsettles⟩
  · intro hF e he
    have hmeets : ((transactionRunner (.failed message.id owner)
        (failMessage message.id owner e.describe)).bind fun _ => .ret n).Meets (relaying F) s
        fun r s' => (∃ n', r = .ok n') ∧ Settles F message.id row s s' := by
      refine Program.meets_bind.mpr (relaying_mark message.id row ?_ ?_ ?_)
      · exact (Program.strict_perform trivial).bind fun _ => trivial
      · exact Program.meets_bind.mpr (alone_update hrow howned
          ⟨true, row.failing (safeError e.describe), rfl,
            ⟨rfl, fun h => absurd hF h, fun _ => ⟨hunpublished, rfl⟩⟩, rfl⟩)
      · intro b s' hsettles
        exact ⟨⟨_, rfl⟩, hsettles⟩
    -- a cancellation is not handled, but no enqueue is cancelled here
    cases e
    case cancelledError => exact absurd rfl he
    all_goals exact hmeets

/-- **A batch is relayed message by message.** -/
theorem relaying_relayMessages {claimed : List ClaimedMessage} {n : ℕ}
    {expiresAt : Option Instant} (hcommitted : s.committed = s.rows)
    (hrows : ∀ message ∈ claimed, (¬ F message.id → message.topic = taskCreatedTopic) ∧
      ∃ row, s.rows (.message message.id) = some row ∧
        OutboxRepository.ownedUnpublished owner row = true ∧ row.leaseExpiresAt = expiresAt)
    (hnodup : (claimed.map (·.id)).Nodup) :
    (relayMessages owner n claimed).Meets (relaying F) s fun _ s' => s'.committed = s'.rows ∧
      (∀ message ∈ claimed, ∃ row row', s.rows (.message message.id) = some row ∧
        s'.rows (.message message.id) = some row' ∧ Relays F expiresAt message.id row row') ∧
      ∀ k, (∀ message ∈ claimed, k ≠ .message message.id) → s'.rows k = s.rows k := by
  induction claimed generalizing n s with
  | nil => exact ⟨hcommitted, nofun, fun _ _ => rfl⟩
  | cons message rest ih =>
    obtain ⟨⟨hknown, row, hrow, howned, hexpires⟩, hrest⟩ := List.forall_mem_cons.mp hrows
    obtain ⟨hfresh, hnodup'⟩ := List.nodup_cons.mp hnodup
    have hne : ∀ x ∈ rest, Key.message x.id ≠ .message message.id := by
      rintro x hx heq
      exact hfresh (List.mem_map.mpr ⟨x, hx, Key.message.inj heq⟩)
    refine Program.meets_bind.mpr ((relaying_relayMessage hrow howned hknown).mono ?_)
    rintro _ s₁ ⟨⟨n', rfl⟩, hsettles⟩
    -- the rest of the batch is as it was leased
    have hkept : ∀ x ∈ rest, s₁.rows (.message x.id) = s.rows (.message x.id) :=
      fun x hx => hsettles.others _ (hne x hx)
    have hrest' : ∀ x ∈ rest, (¬ F x.id → x.topic = taskCreatedTopic) ∧
        ∃ row, s₁.rows (.message x.id) = some row ∧
          OutboxRepository.ownedUnpublished owner row = true ∧ row.leaseExpiresAt = expiresAt := by
      intro x hx
      rw [hkept x hx]
      exact hrest x hx
    refine (ih hsettles.committed hrest' hnodup').mono ?_
    rintro _ s' ⟨hcommitted', hall, hothers⟩
    refine ⟨hcommitted', List.forall_mem_cons.mpr ⟨?_, fun x hx => ?_⟩, fun k hk => ?_⟩
    · obtain ⟨row', hrow', hrelays⟩ := hsettles.message
      rw [hexpires] at hrelays
      exact ⟨row, row', hrow, (hothers _ fun x hx => (hne x hx).symm).trans hrow', hrelays⟩
    · rw [← hkept x hx]
      exact hall x hx
    · obtain ⟨hid, hk⟩ := List.forall_mem_cons.mp hk
      exact (hothers k hk).trans (hsettles.others k hid)

/-- **What a pass does to the rows**: it claims the messages `ids`. -/
structure Relayed (F : Uuid → Prop) (t : Instant) (leaseDuration : Duration) (batchSize : ℕ)
    (s s' : DbSession) (ids : List Uuid) : Prop where
  first : ∃ all, Lists t s all ∧ ids = all.take batchSize
  relays : ∀ id ∈ ids, ∃ row row', s.rows (.message id) = some row ∧
    s'.rows (.message id) = some row' ∧ Relays F (some (t + leaseDuration)) id row row'
  others : ∀ k, (∀ id ∈ ids, k ≠ .message id) → s'.rows k = s.rows k

/-- What a claim does once it has read the clock. -/
def claimAt (owner : String) (t : Instant) (leaseDuration : Duration) (limit : ℕ) :
    Tx (List ClaimedMessage) :=
  (OutboxRepository.claimBatch owner t (t + leaseDuration) limit).bind fun claimed =>
    .ret (claimed.map fun message =>
      ⟨message.id, message.topic, message.payload, message.attemptCount⟩)

/-- A pass reads the clock before anything else. -/
theorem relayOnce_eq {leaseDuration : Duration} {batchSize : ℕ}
    (h : ¬ Refused owner leaseDuration batchSize) :
    ∃ k : Except Exn Instant → Tx ℕ, relayOnce owner leaseDuration batchSize =
      .call (.ext .now) k ∧ ∀ t, k (.ok t) = (transactionRunner (.claimed owner)
        (claimAt owner t leaseDuration batchSize)).bind fun claimed =>
          relayMessages owner 0 claimed := by
  have hclaim := claimMessages_accepted h
  rw [relayOnce, hclaim]
  exact ⟨_, rfl, fun _ => rfl⟩

/-- The pass, after its claim has read the clock. -/
theorem relaying_relayOnce {t : Instant} {leaseDuration : Duration} {batchSize : ℕ}
    (hknown : ∀ id row, s.rows (.message id) = some row → row.publishedAt = none → ¬ F id →
      row.topic = taskCreatedTopic) :
    ((transactionRunner (.claimed owner) (claimAt owner t leaseDuration batchSize)).bind
      fun claimed => relayMessages owner 0 claimed).Meets (relaying F) s fun _ s' =>
        s'.committed = s'.rows ∧ ∃ ids, Relayed F t leaseDuration batchSize s s' ids := by
  have hstrict : (claimAt owner t leaseDuration batchSize).Strict Internal := by
    have hclaim : (claimAt owner t leaseDuration batchSize).Strict InClaim :=
      (strict_claimBatch owner t _ batchSize).bind fun _ => trivial
    refine hclaim.mono fun c hc => ?_
    cases c with
    | ext x =>
      cases x with
      | enqueue job => exact hc
      | _ => trivial
    | _ => trivial
  refine Program.meets_bind.mpr (relaying_transaction
    (K := fun claimed s' => Claims owner (t + leaseDuration) t batchSize s claimed s'.rows)
    hstrict (Program.meets_bind.mpr (alone_claimBatch.mono ?_)) ?_)
  · rintro _ s' ⟨messages, rfl, hclaims⟩
    exact ⟨_, rfl, hclaims⟩
  intro claimed s₁ hclaims
  obtain ⟨all, hlists, hids⟩ := hclaims.first
  have hnodup : (claimed.map (·.id)).Nodup := by
    rw [hids]
    exact hlists.nodup.sublist (List.take_sublist _ _)
  -- what is claimed is leased to the owner and unpublished
  have hrows : ∀ message ∈ claimed, (¬ F message.id → message.topic = taskCreatedTopic) ∧
      ∃ row, s₁.rows (.message message.id) = some row ∧
        OutboxRepository.ownedUnpublished owner row = true ∧
        row.leaseExpiresAt = some (t + leaseDuration) := by
    intro message hmessage
    obtain ⟨row, hrow, hmessage', hleased⟩ := hclaims.leased message hmessage
    have hmem : message.id ∈ all := by
      have htake : message.id ∈ all.take batchSize := by
        rw [← hids]
        exact List.mem_map.mpr ⟨message, hmessage, rfl⟩
      exact List.mem_of_mem_take htake
    obtain ⟨⟨row', hrow', heligible⟩, -⟩ := (hlists.mem _).mp hmem
    obtain rfl := Option.some_inj.mp (hrow.symm.trans hrow')
    have hunpublished : row.publishedAt = none := by
      simp only [OutboxRepository.eligible, Bool.and_eq_true, Option.isNone_iff_eq_none]
        at heligible
      exact heligible.1
    refine ⟨fun hF => ?_, _, hleased, ?_, rfl⟩
    · rw [hmessage']
      exact hknown message.id row hrow hunpublished hF
    · simp [OutboxRepository.ownedUnpublished, OutboxMessageModel.leased, OutboxRepository.lease,
        hunpublished]
  refine (relaying_relayMessages (s := { s₁ with committed := s₁.rows }) rfl hrows hnodup).mono ?_
  rintro _ s' ⟨hcommitted, hall, hothers⟩
  have hmem : ∀ {id}, id ∈ all.take batchSize → ∃ message ∈ claimed, message.id = id := by
    intro id hid
    rw [← hids] at hid
    exact List.mem_map.mp hid
  -- each message of the batch has been relayed, and no other row has changed
  refine ⟨hcommitted, all.take batchSize, ⟨all, hlists, rfl⟩, fun id hid => ?_, fun k hk => ?_⟩
  · obtain ⟨message, hmessage, rfl⟩ := hmem hid
    obtain ⟨row, hrow, -, hleased⟩ := hclaims.leased message hmessage
    obtain ⟨row₁, row', hrow₁, hrow', hrelays⟩ := hall message hmessage
    obtain rfl := Option.some_inj.mp (hleased.symm.trans hrow₁)
    exact ⟨row, row', hrow, hrow', hrelays.createdAt, hrelays.published, hrelays.kept⟩
  · have hk' : ∀ message ∈ claimed, k ≠ .message message.id := by
      intro message hmessage
      refine hk message.id ?_
      rw [← hids]
      exact List.mem_map.mpr ⟨message, hmessage, rfl⟩
    exact (hothers k hk').trans (hclaims.others k hk')

/-- **What a pass does to the database.** -/
theorem RelayPass.relayed {w w' : Db} {t : Instant} {leaseDuration : Duration} {batchSize : ℕ}
    (h : RelayPass F owner leaseDuration batchSize t w w') (hs : Solitary w s)
    (haccepted : ¬ Refused owner leaseDuration batchSize)
    (hknown : ∀ id row, s.rows (.message id) = some row → row.publishedAt = none → ¬ F id →
      row.topic = taskCreatedTopic) :
    ∃ s' ids, Solitary w' s' ∧ s'.committed = s'.rows ∧
      Relayed F t leaseDuration batchSize s s' ids := by
  obtain ⟨w₁, events, a, hrun⟩ := h
  obtain ⟨k, heq, hk⟩ := relayOnce_eq haccepted
  rw [heq] at hrun
  cases hrun with
  | call waits does rest =>
    obtain ⟨-, hnext⟩ := does.follows hs
    have hs₁ : Solitary w₁ s := hnext _ rfl
    rw [hk] at rest
    obtain ⟨s', hs', hcommitted, ids, hrelayed⟩ :=
      rest.performs_alone.meets (S := Solitary) (fun hrel hw => hw.follows hrel) hs₁
        (relaying_relayOnce hknown)
    exact ⟨s', ids, hs', hcommitted, hrelayed⟩

end Pass

/-! ### The passes of a worker -/

/-- What the worker sees between two passes. -/
def atRest (w : Db) : DbSession := ⟨w.row, w.row, w.seq, fun _ => False⟩

theorem Solitary.eq_atRest {w : Db} {s : DbSession} (h : Solitary w s)
    (hcommitted : s.committed = s.rows) : s = atRest w := by
  obtain ⟨halone, hfree⟩ := h
  have hrow : w.row = s.committed := funext halone.committed
  have hblocked : s.blocked = fun _ => False := funext fun k => eq_false (hfree k)
  obtain ⟨committed, rows, seq, blocked⟩ := s
  rw [atRest, hrow, halone.seq]
  cases hcommitted
  cases hblocked
  rfl

theorem eligible_iff {now : Instant} {row : OutboxMessageModel} :
    OutboxRepository.eligible now row = true ↔
      row.publishedAt = none ∧ ∀ e, row.leaseExpiresAt = some e → e ≤ now := by
  rw [OutboxRepository.eligible, Bool.and_eq_true, Option.isNone_iff_eq_none]
  refine and_congr_right fun _ => ?_
  cases row.leaseExpiresAt with
  | none => simp
  | some e => simp

/-- A lease that is taken at one tick has run out `leaseTicks` ticks later, and no earlier. -/
theorem lease_over_iff {settings : OutboxSettings} {start : Instant} {m n : ℕ} :
    tick start m + seconds settings.leaseSeconds ≤ tick start n ↔
      m + settings.leaseTicks ≤ n := by
  have h : ∀ (t : ℤ) (lease : ℕ), t + 1000000 * (2 * m : ℕ) + 1000000 * lease ≤
      t + 1000000 * (2 * n : ℕ) ↔ m + (lease + 1) / 2 ≤ n := by
    intro t lease
    omega
  exact h start settings.leaseSeconds

theorem tick_mono {start : Instant} {m n : ℕ} (h : m ≤ n) : tick start m ≤ tick start n := by
  have h' : ∀ t : ℤ, t + 1000000 * (2 * m : ℕ) ≤ t + 1000000 * (2 * n : ℕ) := by
    intro t
    omega
  exact h' start

namespace RelayTicks

variable {F : Uuid → Prop} {settings : OutboxSettings} {start : Instant}
  (run : RelayTicks F settings start)

theorem accepted : ¬ Refused run.owner (seconds settings.leaseSeconds) settings.batchSize := by
  have hlease := settings.one_le_lease
  have hlow := settings.one_le_batch
  have hhigh := settings.batch_le
  rintro (h | h | h | h)
  · exact run.owner_ne h
  · have hzero : (1000000 : ℤ) * settings.leaseSeconds ≤ 0 := h
    omega
  · omega
  · omega

/-- **Each pass is the pass of a worker that is alone.** -/
theorem exists_relayed (n : ℕ) : (Solitary (run.state n) (atRest (run.state n)) ∧
      TopicsKnown F (run.state n)) ∧
    ∃ ids, Relayed F (tick start n) (seconds settings.leaseSeconds) settings.batchSize
      (atRest (run.state n)) (atRest (run.state (n + 1))) ids := by
  -- a pass begins and ends at rest
  have hpass : ∀ n, Solitary (run.state n) (atRest (run.state n)) → TopicsKnown F (run.state n) →
      Solitary (run.state (n + 1)) (atRest (run.state (n + 1))) ∧
      ∃ ids, Relayed F (tick start n) (seconds settings.leaseSeconds) settings.batchSize
        (atRest (run.state n)) (atRest (run.state (n + 1))) ids := by
    intro n hs hknown
    obtain ⟨s', ids, hs', hcommitted, hrelayed⟩ := (run.pass n).relayed hs run.accepted hknown
    obtain rfl := hs'.eq_atRest hcommitted
    exact ⟨hs', ids, hrelayed⟩
  have hstate : ∀ n, Solitary (run.state n) (atRest (run.state n)) ∧
      TopicsKnown F (run.state n) := by
    intro n
    induction n with
    | zero => exact ⟨⟨.of_unlocked run.unlocked, fun _ => id⟩, run.known⟩
    | succ n ih =>
      obtain ⟨hs', ids, hrelayed⟩ := hpass n ih.1 ih.2
      refine ⟨hs', fun id row hrow hunpublished hF => ?_⟩
      -- a message of the batch that stays unpublished is one of those that fail
      by_cases hid : id ∈ ids
      · obtain ⟨_, row', -, hrow', hrelays⟩ := hrelayed.relays id hid
        obtain rfl := Option.some_inj.mp (hrow.symm.trans hrow')
        exact absurd hunpublished (hrelays.published hF)
      · refine ih.2 id row ?_ hunpublished hF
        have hkept := hrelayed.others (.message id) fun id' hid' heq => by
          cases heq
          exact hid hid'
        exact hkept.symm.trans hrow
  exact ⟨hstate n, (hpass n (hstate n).1 (hstate n).2).2⟩

/-- The messages pass `n` claims. -/
noncomputable def claimed (n : ℕ) : List Uuid := (run.exists_relayed n).2.choose

theorem relayed (n : ℕ) :
    Relayed F (tick start n) (seconds settings.leaseSeconds) settings.batchSize
      (atRest (run.state n)) (atRest (run.state (n + 1))) (run.claimed n) :=
  (run.exists_relayed n).2.choose_spec

/-- The row of a message before pass `n`. -/
def message (n : ℕ) (id : Uuid) : Option OutboxMessageModel := (run.state n).row (.message id)

theorem message_of_not_claimed {n : ℕ} {id : Uuid} (h : id ∉ run.claimed n) :
    run.message (n + 1) id = run.message n id := by
  refine (run.relayed n).others (.message id) fun id' hid' heq => ?_
  cases heq
  exact h hid'

/-- A claimed message is eligible, and relayed. -/
theorem message_of_claimed {n : ℕ} {id : Uuid} (h : id ∈ run.claimed n) :
    ∃ row row', run.message n id = some row ∧
      OutboxRepository.eligible (tick start n) row = true ∧ run.message (n + 1) id = some row' ∧
      Relays F (some (tick start n + seconds settings.leaseSeconds)) id row row' := by
  obtain ⟨row, row', hrow, hrow', hrelays⟩ := (run.relayed n).relays id h
  obtain ⟨all, hlists, heq⟩ := (run.relayed n).first
  rw [heq] at h
  obtain ⟨⟨row₁, hrow₁, heligible⟩, -⟩ := (hlists.mem id).mp (List.mem_of_mem_take h)
  obtain rfl := Option.some_inj.mp (hrow.symm.trans hrow₁)
  exact ⟨row, row', hrow, heligible, hrow', hrelays⟩

/-- **The row of a message** is the first one, or as the last pass that claimed it left it. -/
theorem message_cases (n : ℕ) (id : Uuid) :
    (∀ m < n, id ∉ run.claimed m) ∧ run.message n id = run.message 0 id ∨
    ∃ m < n, id ∈ run.claimed m ∧ (∀ m' < n, id ∈ run.claimed m' → m' ≤ m) ∧
      run.message n id = run.message (m + 1) id := by
  induction n with
  | zero => exact .inl ⟨nofun, rfl⟩
  | succ n ih =>
    by_cases hid : id ∈ run.claimed n
    · exact .inr ⟨n, Nat.lt_succ_self n, hid, fun m' hm' _ => Nat.le_of_lt_succ hm', rfl⟩
    rw [run.message_of_not_claimed hid]
    have hlt : ∀ {m}, m < n + 1 → id ∈ run.claimed m → m < n := by
      intro m hm hmem
      refine lt_of_le_of_ne (Nat.le_of_lt_succ hm) ?_
      rintro rfl
      exact hid hmem
    obtain ⟨hnever, hrow⟩ | ⟨m, hm, hmem, hlast, hrow⟩ := ih
    · exact .inl ⟨fun m hm hmem => hnever m (hlt hm hmem) hmem, hrow⟩
    · exact .inr ⟨m, Nat.lt_succ_of_lt hm, hmem, fun m' hm' h => hlast m' (hlt hm' h) h, hrow⟩

/-- A message keeps its age. -/
theorem message_createdAt {n : ℕ} {id : Uuid} {row : OutboxMessageModel}
    (h : run.message n id = some row) :
    ∃ row₀, run.message 0 id = some row₀ ∧ row₀.createdAt = row.createdAt := by
  induction n generalizing row with
  | zero => exact ⟨row, h, rfl⟩
  | succ n ih =>
    by_cases hid : id ∈ run.claimed n
    · obtain ⟨row₁, row', hrow₁, -, hrow', hrelays⟩ := run.message_of_claimed hid
      obtain rfl := Option.some_inj.mp (h.symm.trans hrow')
      obtain ⟨row₀, hrow₀, hcreated⟩ := ih hrow₁
      exact ⟨row₀, hrow₀, hcreated.trans hrelays.createdAt.symm⟩
    · rw [run.message_of_not_claimed hid] at h
      exact ih h

/-- A message that is not published never was. -/
theorem unpublished_before {n : ℕ} {id : Uuid} {row : OutboxMessageModel}
    (h : run.message n id = some row) (hrow : row.publishedAt = none) :
    ∃ row₀, run.message 0 id = some row₀ ∧ row₀.publishedAt = none := by
  induction n generalizing row with
  | zero => exact ⟨row, h, hrow⟩
  | succ n ih =>
    by_cases hid : id ∈ run.claimed n
    · obtain ⟨row₁, -, hrow₁, heligible, -⟩ := run.message_of_claimed hid
      exact ih hrow₁ (eligible_iff.mp heligible).1
    · rw [run.message_of_not_claimed hid] at h
      exact ih h hrow

/-- Outside `F`, a message that has been claimed is published; in `F`, it has the lease of the
last claim. -/
theorem message_after {n m : ℕ} {id : Uuid} (hclaimed : id ∈ run.claimed m)
    (hrow : run.message n id = run.message (m + 1) id) :
    ∃ row, run.message n id = some row ∧ (¬ F id → row.publishedAt ≠ none) ∧
      (F id → row.publishedAt = none ∧
        row.leaseExpiresAt = some (tick start m + seconds settings.leaseSeconds)) := by
  obtain ⟨_, row', -, -, hrow', hrelays⟩ := run.message_of_claimed hclaimed
  exact ⟨row', hrow.trans hrow', hrelays.published, hrelays.kept⟩

/-- What a pass claims is none that has been published, nor one whose lease runs. -/
theorem available_of_claimed {n : ℕ} {id : Uuid} (h : id ∈ run.claimed n) :
    Backoff.Available (fun n => (run.claimed n).toFinset) F settings.leaseTicks n id := by
  obtain ⟨row, -, hrow, heligible, -⟩ := run.message_of_claimed h
  obtain ⟨hunpublished, hexpired⟩ := eligible_iff.mp heligible
  simp only [Backoff.Available, List.mem_toFinset]
  obtain ⟨hnever, -⟩ | ⟨m, -, hmem, hlast, hafter⟩ := run.message_cases n id
  · exact ⟨fun _ => hnever, fun m hm hmem => absurd hmem (hnever m hm)⟩
  · obtain ⟨row', hrow', hpublished, hkept⟩ := run.message_after hmem hafter
    obtain rfl := Option.some_inj.mp (hrow.symm.trans hrow')
    have hF : F id := by
      by_contra hF
      exact hpublished hF hunpublished
    refine ⟨fun h => absurd hF h, fun m' hm' hmem' => ?_⟩
    have hover := lease_over_iff.mp (hexpired _ (hkept hF).2)
    have hle := hlast m' hm' hmem'
    omega

/-- No lease of the first outbox runs at tick `n`. -/
def Settled (n : ℕ) : Prop :=
  ∀ id row e, run.message 0 id = some row → row.publishedAt = none →
    row.leaseExpiresAt = some e → e ≤ tick start n

/-- From then on all others are eligible. -/
theorem eligible_of_available {n₀ n : ℕ} {id : Uuid} (hn₀ : run.Settled n₀) (hn : n₀ ≤ n)
    {row₀ : OutboxMessageModel} (hrow₀ : run.message 0 id = some row₀)
    (hunpublished : row₀.publishedAt = none)
    (h : Backoff.Available (fun n => (run.claimed n).toFinset) F settings.leaseTicks n id) :
    ∃ row, run.message n id = some row ∧
      OutboxRepository.eligible (tick start n) row = true := by
  simp only [Backoff.Available, List.mem_toFinset] at h
  obtain ⟨honce, hrest⟩ := h
  obtain ⟨-, hfirst⟩ | ⟨m, hm, hmem, -, hafter⟩ := run.message_cases n id
  · refine ⟨row₀, hfirst.trans hrow₀, eligible_iff.mpr ⟨hunpublished, fun e he => ?_⟩⟩
    exact (hn₀ id row₀ e hrow₀ hunpublished he).trans (tick_mono hn)
  · have hF : F id := by
      by_contra hF
      exact honce hF m hm hmem
    obtain ⟨row, hrow, -, hkept⟩ := run.message_after hmem hafter
    refine ⟨row, hrow, eligible_iff.mpr ⟨(hkept hF).1, fun e he => ?_⟩⟩
    rw [(hkept hF).2] at he
    rw [← Option.some_inj.mp he]
    exact lease_over_iff.mpr (hrest m hm hmem)

/-! The passes as rounds. -/

open scoped Classical in
/-- The messages that are not published at first. -/
noncomputable def jobs : Finset Uuid :=
  ((run.state 0).store.keys.filterMap fun
    | .message id => some id
    | _ => none).toFinset.filter fun id => ∃ row, run.message 0 id = some row ∧
      row.publishedAt = none

theorem mem_jobs {id : Uuid} :
    id ∈ run.jobs ↔ ∃ row, run.message 0 id = some row ∧ row.publishedAt = none := by
  classical
  rw [jobs, Finset.mem_filter, List.mem_toFinset, List.mem_filterMap]
  refine ⟨fun h => h.2, fun h => ⟨⟨.message id, ?_, rfl⟩, h⟩⟩
  by_contra hkey
  obtain ⟨row, hrow, -⟩ := h
  have hblank : (run.state 0).cell (.message id) = .blank := (run.state 0).store.complete _ hkey
  rw [message, World.row, hblank] at hrow
  cases hrow

/-- By what the messages are ordered. -/
def age (id : Uuid) : ℤ ×ₗ ℕ := ((run.message 0 id).map (·.age id)).getD (toLex (0, 0))

theorem age_eq {n : ℕ} {id : Uuid} {row : OutboxMessageModel} (h : run.message n id = some row) :
    run.age id = row.age id := by
  obtain ⟨row₀, hrow₀, hcreated⟩ := run.message_createdAt h
  rw [age, hrow₀, Option.map_some, Option.getD_some, OutboxMessageModel.age, hcreated]
  rfl

/-- **The passes are rounds** in which failing messages rest for a lease. -/
noncomputable def rounds (n₀ : ℕ) (hn₀ : run.Settled n₀) : Backoff.Rounds Uuid (ℤ ×ₗ ℕ) where
  jobs := run.jobs
  age := run.age
  failing := F
  capacity := settings.batchSize
  rest := settings.leaseTicks
  rest_pos := by
    have hlease := settings.one_le_lease
    rw [OutboxSettings.leaseTicks]
    omega
  settled := n₀
  served := fun n => (run.claimed n).toFinset
  mem_jobs := by
    intro n id h
    obtain ⟨row, -, hrow, heligible, -⟩ := run.message_of_claimed (List.mem_toFinset.mp h)
    exact run.mem_jobs.mpr (run.unpublished_before hrow (eligible_iff.mp heligible).1)
  card_le := by
    intro n
    obtain ⟨all, -, heq⟩ := (run.relayed n).first
    refine (List.toFinset_card_le _).trans ?_
    rw [heq]
    exact List.length_take_le _ _
  available := fun h => run.available_of_claimed (List.mem_toFinset.mp h)
  oldest := by
    intro n id hn hjob havailable hid
    rw [List.mem_toFinset] at hid
    obtain ⟨row₀, hrow₀, hunpublished⟩ := run.mem_jobs.mp hjob
    obtain ⟨row, hrow, heligible⟩ :=
      run.eligible_of_available hn₀ hn hrow₀ hunpublished havailable
    obtain ⟨all, hlists, heq⟩ := (run.relayed n).first
    have hall : id ∈ all := (hlists.mem id).mpr ⟨⟨row, hrow, heligible⟩, fun h => h⟩
    have hdrop : id ∈ all.drop settings.batchSize := by
      rw [← List.take_append_drop settings.batchSize all, List.mem_append] at hall
      rw [heq] at hid
      exact hall.resolve_left hid
    have hnodup : (run.claimed n).Nodup := by
      rw [heq]
      exact hlists.nodup.sublist (List.take_sublist _ _)
    constructor
    · rw [List.toFinset_card_of_nodup hnodup, heq, List.length_take]
      have hlength := List.length_pos_of_mem hdrop
      rw [List.length_drop] at hlength
      omega
    · intro id' hid'
      rw [List.mem_toFinset] at hid'
      obtain ⟨row', -, hrow', -⟩ := run.message_of_claimed hid'
      have hsorted := hlists.sorted
      rw [← List.take_append_drop settings.batchSize all, List.pairwise_append] at hsorted
      rw [heq] at hid'
      have hage := hsorted.2.2 id' hid' id hdrop row' row hrow' hrow
      rw [run.age_eq hrow', run.age_eq hrow]
      exact hage

/-- What is claimed is published, or fails. -/
theorem published_of_claimed {m n : ℕ} {id : Uuid} (h : id ∈ run.claimed m) (hmn : m < n)
    (hF : ¬ F id) : Published id (run.state n) := by
  obtain ⟨hnever, -⟩ | ⟨m', -, hmem, -, hafter⟩ := run.message_cases n id
  · exact absurd h (hnever m hmn)
  · obtain ⟨row, hrow, hpublished, -⟩ := run.message_after hmem hafter
    exact ⟨row, hrow, hpublished hF⟩

/-- All messages outside `F` are published at last, exactly if a pass claims each that is
waiting. -/
theorem cleared_iff : (∃ N, ∀ n, N ≤ n → ∀ id, (run.state 0).row (.message id) ≠ none → ¬ F id →
      Published id (run.state n)) ↔
    ∀ id ∈ run.jobs, ¬ F id → ∃ n, id ∈ run.claimed n := by
  constructor
  · rintro ⟨N, hN⟩ id hjob hF
    obtain ⟨row₀, hrow₀, hunpublished⟩ := run.mem_jobs.mp hjob
    obtain ⟨row, hrow, hpublished⟩ := hN N le_rfl id (by rw [← message, hrow₀]; nofun) hF
    obtain ⟨-, hfirst⟩ | ⟨m, -, hmem, -⟩ := run.message_cases N id
    · obtain rfl := Option.some_inj.mp (hrow.symm.trans (hfirst.trans hrow₀))
      exact absurd hunpublished hpublished
    · exact ⟨m, hmem⟩
  · intro h
    have hturn : ∀ id, ∃ n, id ∈ run.jobs → ¬ F id → id ∈ run.claimed n := by
      intro id
      by_cases hid : id ∈ run.jobs ∧ ¬ F id
      · obtain ⟨n, hn⟩ := h id hid.1 hid.2
        exact ⟨n, fun _ _ => hn⟩
      · exact ⟨0, fun h₁ h₂ => absurd ⟨h₁, h₂⟩ hid⟩
    choose turn hturn using hturn
    refine ⟨run.jobs.sup turn + 1, fun n hn id hrow hF => ?_⟩
    obtain ⟨row₀, hrow₀⟩ := Option.ne_none_iff_exists'.mp hrow
    by_cases hjob : id ∈ run.jobs
    · have hle : turn id ≤ run.jobs.sup turn := Finset.le_sup hjob
      exact run.published_of_claimed (hturn id hjob hF) (by omega) hF
    · obtain ⟨-, hfirst⟩ | ⟨m, hm, hmem, -⟩ := run.message_cases n id
      · refine ⟨row₀, hfirst.trans hrow₀, fun hunpublished => ?_⟩
        exact hjob (run.mem_jobs.mpr ⟨row₀, hrow₀, hunpublished⟩)
      · exact run.published_of_claimed hmem hm hF

/-- A message of `F` is never published. -/
theorem unpublished_iff (n : ℕ) {id : Uuid} (hF : F id) :
    (∃ row, run.message n id = some row ∧ row.publishedAt = none) ↔ id ∈ run.jobs := by
  rw [run.mem_jobs]
  constructor
  · rintro ⟨row, hrow, hunpublished⟩
    exact run.unpublished_before hrow hunpublished
  · rintro ⟨row₀, hrow₀, hunpublished⟩
    obtain ⟨-, hfirst⟩ | ⟨m, -, hmem, -, hafter⟩ := run.message_cases n id
    · exact ⟨row₀, hfirst.trans hrow₀, hunpublished⟩
    · obtain ⟨row, hrow, -, hkept⟩ := run.message_after hmem hafter
      exact ⟨row, hrow, (hkept hF).1⟩

/-- Another is waiting as long as no pass has claimed it. -/
theorem waiting_iff (n : ℕ) {id : Uuid} (hF : ¬ F id) :
    (∃ row, run.message n id = some row ∧ row.publishedAt = none) ↔
      id ∈ run.jobs ∧ ∀ m < n, id ∉ run.claimed m := by
  constructor
  · rintro ⟨row, hrow, hunpublished⟩
    refine ⟨run.mem_jobs.mpr (run.unpublished_before hrow hunpublished), fun m hm hmem => ?_⟩
    obtain ⟨row', hrow', hpublished⟩ := run.published_of_claimed hmem hm hF
    obtain rfl := Option.some_inj.mp (hrow.symm.trans hrow')
    exact hpublished hunpublished
  · rintro ⟨hjob, hnever⟩
    obtain ⟨row₀, hrow₀, hunpublished⟩ := run.mem_jobs.mp hjob
    obtain ⟨-, hfirst⟩ | ⟨m, hm, hmem, -⟩ := run.message_cases n id
    · exact ⟨row₀, hfirst.trans hrow₀, hunpublished⟩
    · exact absurd hmem (hnever m hm)

end RelayTicks

/-- The leases of the first outbox run out at last. -/
theorem RelayTicks.exists_settled {F : Uuid → Prop} {settings : OutboxSettings} {start : Instant}
    (run : RelayTicks F settings start) : ∃ n, run.Settled n := by
  have hlate : ∀ id, ∃ n, ∀ row e, run.message 0 id = some row → row.leaseExpiresAt = some e →
      e ≤ tick start n := by
    intro id
    rcases hrow : run.message 0 id with _ | row
    · exact ⟨0, nofun⟩
    rcases hlease : row.leaseExpiresAt with _ | e
    · refine ⟨0, ?_⟩
      rintro _ e ⟨⟩ he
      cases hlease.symm.trans he
    · refine ⟨(e - start).toNat, ?_⟩
      rintro _ e' ⟨⟩ he
      obtain rfl := Option.some_inj.mp (hlease.symm.trans he)
      have h : ∀ t u : ℤ, u ≤ t + 1000000 * (2 * (u - t).toNat : ℕ) := by
        intro t u
        omega
      exact h start e
  choose late hlate using hlate
  refine ⟨run.jobs.sup late, fun id row e hrow hunpublished he => ?_⟩
  have hle : late id ≤ run.jobs.sup late :=
    Finset.le_sup (run.mem_jobs.mpr ⟨row, hrow, hunpublished⟩)
  exact (hlate id row e hrow he).trans (tick_mono hle)

/-! ### Starvation -/

/-- The messages of `F` that are not published and older than `age`. -/
def Ahead (F : Uuid → Prop) (w : Db) (age : ℤ ×ₗ ℕ) : Set Uuid :=
  {id | F id ∧ ∃ row, w.row (.message id) = some row ∧ row.publishedAt = none ∧ row.age id < age}

theorem RelayTicks.ncard_ahead {F : Uuid → Prop} {settings : OutboxSettings} {start : Instant}
    (run : RelayTicks F settings start) {n₀ : ℕ} (hn₀ : run.Settled n₀) {id : Uuid}
    {row : OutboxMessageModel} (hrow : run.message n₀ id = some row) :
    (Ahead F (run.state n₀) (row.age id)).ncard = ((run.rounds n₀ hn₀).ahead id).card := by
  rw [← Set.ncard_coe_finset]
  congr 1
  ext i
  rw [Finset.mem_coe, Backoff.Rounds.mem_ahead]
  constructor
  · rintro ⟨hF, rowI, hrowI, hunpublished, hage⟩
    refine ⟨(run.unpublished_iff n₀ hF).mp ⟨rowI, hrowI, hunpublished⟩, hF, ?_⟩
    show run.age i < run.age id
    rw [run.age_eq hrowI, run.age_eq hrow]
    exact hage
  · rintro ⟨hjob, hF, hage⟩
    obtain ⟨rowI, hrowI, hunpublished⟩ := (run.unpublished_iff n₀ hF).mpr hjob
    refine ⟨hF, rowI, hrowI, hunpublished, ?_⟩
    rw [← run.age_eq hrowI, ← run.age_eq hrow]
    exact hage

/-- **Every message outside `F` is published at last**, exactly if, when the leases of the first
outbox have run out, none that is left has `batchSize * leaseTicks` messages of `F` or more
ahead of it. -/
theorem relay_clears_iff {F : Uuid → Prop} {settings : OutboxSettings} {start : Instant}
    (run : RelayTicks F settings start) {n₀ : ℕ} (hn₀ : run.Settled n₀) :
    (∃ N, ∀ n, N ≤ n → ∀ id, (run.state 0).row (.message id) ≠ none → ¬ F id →
      Published id (run.state n)) ↔
    ∀ id row, (run.state n₀).row (.message id) = some row → row.publishedAt = none → ¬ F id →
      (Ahead F (run.state n₀) (row.age id)).ncard <
        settings.batchSize * settings.leaseTicks := by
  have hserved := (run.rounds n₀ hn₀).all_served_iff
  have hmem : ∀ {n id}, id ∈ (run.rounds n₀ hn₀).served n ↔ id ∈ run.claimed n :=
    List.mem_toFinset
  simp only [hmem] at hserved
  refine run.cleared_iff.trans (hserved.trans ?_)
  constructor
  · intro h id row hrow hunpublished hF
    obtain ⟨hjob, hnever⟩ := (run.waiting_iff n₀ hF).mp ⟨row, hrow, hunpublished⟩
    rw [run.ncard_ahead hn₀ hrow]
    exact h id hjob hF hnever
  · intro h id hjob hF hnever
    obtain ⟨row, hrow, hunpublished⟩ := (run.waiting_iff n₀ hF).mpr ⟨hjob, hnever⟩
    rw [← run.ncard_ahead hn₀ hrow]
    exact h id row hrow hunpublished hF

/-! ### Two messages, of which the older fails -/

section Existence

variable {F : Uuid → Prop} {w : Db} {s : DbSession}

/-- Every statement of the worker has a reply. -/
theorem exists_workerStep (hs : Solitary w s) (c : Command) :
    ∃ r w', WorkerStep F w c r w' ∧ ∃ s', Solitary w' s' := by
  have hfollows : ∀ r w', WorkerStep F w c r w' →
      ∃ r w', WorkerStep F w c r w' ∧ ∃ s', Solitary w' s' :=
    fun r w' h => ⟨r, w', h, _, (h.follows hs).2 _ rfl⟩
  -- the enqueues of `F` fail, everything else is answered
  by_cases hfails : ∃ job id, c = .ext (.enqueue job) ∧ F id ∧ job.key = id.str
  · obtain ⟨job, id, rfl, hF, hkey⟩ := hfails
    refine hfollows (.error (Fault.exn (.queue "OSError: "))) w
      ⟨⟨.fail (.queue "OSError: "), rfl⟩, fun id' hkey' => ⟨fun _ => ⟨_, rfl, nofun⟩, ?_⟩⟩
    intro hF'
    rw [← Uuid.str_injective (hkey.symm.trans hkey')] at hF'
    exact absurd hF hF'
  · have hext : ∀ (env : Queue) (y : Outside), ∃ d v env',
        outside (fun _ _ => true) env y d = some (.ok v, env') ∧ True := by
      intro env y
      cases y with
      | now => exact ⟨.time 0, _, _, rfl, trivial⟩
      | serverNow => exact ⟨.time 0, _, _, rfl, trivial⟩
      | uuid4 => exact ⟨.uuid 0, _, _, rfl, trivial⟩
      | hash password => exact ⟨.hashed "", _, _, rfl, trivial⟩
      | verify password passwordHash => exact ⟨.upgrade none, _, _, rfl, trivial⟩
      | verifyUnknown password => exact ⟨.verified, _, _, rfl, trivial⟩
      | enqueue job => exact ⟨.accepted, _, _, rfl, trivial⟩
    obtain ⟨x, v, w', he, -⟩ := hs.1.exists_exec hs.2 hext c
    refine hfollows (.ok v) w' ⟨⟨x, he⟩, ?_⟩
    cases c with
    | ext y =>
      cases y with
      | enqueue job =>
        exact fun id hkey => ⟨fun hF => absurd ⟨job, id, rfl, hF, hkey⟩ hfails, fun _ => ⟨v, rfl⟩⟩
      | _ => exact ⟨v, rfl⟩
    | _ => exact ⟨v, rfl⟩

/-- A pass can be made at any time. -/
theorem exists_pass {owner : String} {leaseDuration : Duration} {batchSize : ℕ} (t : Instant)
    (haccepted : ¬ Refused owner leaseDuration batchSize) (hs : ∃ s, Solitary w s) :
    ∃ w', RelayPass F owner leaseDuration batchSize t w w' ∧ ∃ s', Solitary w' s' := by
  obtain ⟨k, heq, -⟩ := relayOnce_eq haccepted
  have hnow : WorkerStep F w (.ext .now) (.ok t) w := ⟨⟨.ext (.time t), rfl⟩, t, rfl⟩
  have hstep : ∀ w, (∃ s, Solitary w s) → ∀ c,
      ∃ r w', WorkerStep F w c r w' ∧ ∃ s', Solitary w' s' :=
    fun w ⟨s, hs⟩ c => exists_workerStep hs c
  obtain ⟨a, w', hperforms, hs'⟩ := Program.exists_performs hstep (k (.ok t)) hs
  obtain ⟨events, hrun⟩ :
      ∃ events, (k (.ok t)).Runs (fun w w' => w' = w) (WorkerStep F) w events a w' :=
    hperforms.runs fun _ => rfl
  refine ⟨w', ⟨w, events, a, ?_⟩, hs'⟩
  rw [heq]
  exact .call rfl hnow hrun

/-- The passes can be made from any database at rest. -/
theorem exists_ticks {settings : OutboxSettings} {start : Instant}
    (hunlocked : ∀ k, (w.cell k).hold.owner = none) (hknown : TopicsKnown F w) :
    ∃ run : RelayTicks F settings start, run.state 0 = w := by
  have haccepted : ¬ Refused "worker" (seconds settings.leaseSeconds) settings.batchSize := by
    have hlease := settings.one_le_lease
    have hlow := settings.one_le_batch
    have hhigh := settings.batch_le
    rintro (h | h | h | h)
    · exact absurd h (by decide)
    · have hzero : (1000000 : ℤ) * settings.leaseSeconds ≤ 0 := h
      omega
    · omega
    · omega
  have hnext : ∀ (n : ℕ) (w : {w : Db // ∃ s, Solitary w s}), ∃ w' : {w : Db // ∃ s, Solitary w s},
      RelayPass F "worker" (seconds settings.leaseSeconds) settings.batchSize (tick start n)
        w w' := by
    rintro n ⟨w, hw⟩
    obtain ⟨w', hpass, hw'⟩ := exists_pass (tick start n) haccepted hw
    exact ⟨⟨w', hw'⟩, hpass⟩
  choose next hnext using hnext
  let state : ℕ → {w : Db // ∃ s, Solitary w s} :=
    Nat.rec ⟨w, _, .of_unlocked hunlocked, fun _ h => h⟩ next
  exact ⟨⟨"worker", by decide, fun n => (state n).1, hunlocked, hknown,
    fun n => hnext n (state n)⟩, rfl⟩

end Existence

/-- The database with two messages, of which number 1 is the older. -/
def twoMessages : Db :=
  storedDb [⟨.message 1, freshMessage 1 0⟩, ⟨.message 2, freshMessage 2 1⟩] fun _ => 3

theorem twoMessages_row {id : Uuid} {row : OutboxMessageModel}
    (h : twoMessages.row (.message id) = some row) :
    row = freshMessage 1 0 ∨ row = freshMessage 2 1 := by
  have hrow : (id = 1 ∧ row = freshMessage 1 0) ∨ (id = 2 ∧ row = freshMessage 2 1) := by
    simpa using storedDb_row h
  obtain ⟨-, rfl⟩ | ⟨-, rfl⟩ := hrow
  · exact .inl rfl
  · exact .inr rfl

/-- The passes over these messages; the first cannot be published. -/
theorem twoMessages_ticks (settings : OutboxSettings) :
    ∃ run : RelayTicks (· = 1) settings 0, run.state 0 = twoMessages ∧ run.Settled 0 := by
  have hknown : TopicsKnown (· = 1) twoMessages := by
    intro id row hrow _ _
    obtain rfl | rfl := twoMessages_row hrow
    · rfl
    · rfl
  obtain ⟨run, hstate⟩ : ∃ run : RelayTicks (· = 1) settings 0, run.state 0 = twoMessages :=
    exists_ticks storedDb_unlocked hknown
  refine ⟨run, hstate, fun id row e hrow _ he => ?_⟩
  rw [RelayTicks.message, hstate] at hrow
  obtain rfl | rfl := twoMessages_row hrow
  · cases he
  · cases he

/-- With the default settings the younger is published. -/
theorem relay_clears_default :
    ∃ run : RelayTicks (· = 1) ⟨30, 25, by decide, by decide, by decide, by decide⟩ 0,
      run.state 0 = twoMessages ∧ ∃ N, ∀ n, N ≤ n → Published 2 (run.state n) := by
  obtain ⟨run, hstate, hsettled⟩ :=
    twoMessages_ticks ⟨30, 25, by decide, by decide, by decide, by decide⟩
  refine ⟨run, hstate, ?_⟩
  obtain ⟨N, hN⟩ := (relay_clears_iff run hsettled).mpr fun id row _ _ _ => by
    have hsub : Ahead (· = 1) (run.state 0) (row.age id) ⊆ {1} := fun i hi => hi.1
    have hcard := Set.ncard_le_ncard hsub
    rw [Set.ncard_singleton] at hcard
    exact hcard.trans_lt (by decide)
  refine ⟨N, fun n hn => hN n hn 2 ?_ (by decide)⟩
  rw [hstate]
  nofun

/-- **With a batch of one and a lease of one second it never is**: every pass claims the older,
whose lease has run out. -/
theorem relay_clears_violated :
    ¬ ∀ (F : Uuid → Prop) (settings : OutboxSettings) (start : Instant)
      (run : RelayTicks F settings start), ∃ N, ∀ n, N ≤ n → ∀ id,
        (run.state 0).row (.message id) ≠ none → ¬ F id → Published id (run.state n) := by
  intro h
  obtain ⟨run, hstate, hsettled⟩ :=
    twoMessages_ticks ⟨1, 1, by decide, by decide, by decide, by decide⟩
  have hfirst : run.message 0 1 = some (freshMessage 1 0) := by
    rw [RelayTicks.message, hstate]
    rfl
  have hsecond : run.message 0 2 = some (freshMessage 2 1) := by
    rw [RelayTicks.message, hstate]
    rfl
  have hahead : 1 ∈ (run.rounds 0 hsettled).ahead 2 := by
    refine (Backoff.Rounds.mem_ahead _).mpr ⟨run.mem_jobs.mpr ⟨_, hfirst, rfl⟩, rfl, ?_⟩
    show run.age 1 < run.age 2
    rw [run.age_eq hfirst, run.age_eq hsecond]
    decide
  obtain ⟨n, hn⟩ := run.cleared_iff.mp (h _ _ _ run) 2 (run.mem_jobs.mpr ⟨_, hsecond, rfl⟩)
    (by decide)
  exact (run.rounds 0 hsettled).starves nofun (Finset.card_pos.mpr ⟨1, hahead⟩) n
    (List.mem_toFinset.mpr hn)

end Lsstack
