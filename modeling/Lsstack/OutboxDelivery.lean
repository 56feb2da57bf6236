/-
Outbox rows as leases.

A row of the outbox is a `Lease` with text columns: fresh, held by a relay, or
done once published (`OutboxMessageModel.Stands`).  The log lists its events,
and along every run the row follows them (`TaskSystemRun.lease_path`,
`TaskSystemRun.lease_between`).  So the counting and fencing rules of leases
speak about the outbox:

* **`outbox_consistent`** — three shapes, one claim per attempt, one
  acknowledgement per published row;
* **`leases_exclusive`** — claims of one message follow one another in time, and
  a relay that has lost a message cannot touch it before claiming it again;
* **`fence_violated`** — after it has claimed it again, it can.
-/
import Lsstack.Lease
import Lsstack.OutboxCommits

namespace Lsstack

open Concurrency

/-! ### The refinement -/

/-- What the result means for the lease of a message. -/
def Outcome.event (id : Uuid) : Outcome → Option (Lease.Event String)
  | .claimed owner messages =>
    if messages.any fun message => decide (message.id = id) then some (.claim owner) else none
  | .acknowledged id' owner result =>
    if result && decide (id' = id) then some (.finish owner) else none
  | .failed id' owner result =>
    if result && decide (id' = id) then some (.touch owner) else none
  | _ => none

/-- The events of a message in a log, newest first. -/
def leaseEvents (id : Uuid) (log : List (ℕ × Outcome)) : List (Lease.Event String) :=
  log.filterMap fun entry => entry.2.event id

theorem leaseEvents_append (id : Uuid) (new log : List (ℕ × Outcome)) :
    leaseEvents id (new ++ log) = leaseEvents id new ++ leaseEvents id log :=
  List.filterMap_append

theorem leaseEvents_cons (id : Uuid) (entry : ℕ × Outcome) (log : List (ℕ × Outcome)) :
    leaseEvents id (entry :: log) = (entry.2.event id).toList ++ leaseEvents id log := by
  rw [leaseEvents, List.filterMap_cons]
  cases entry.2.event id <;> rfl

theorem Outcome.event_of_writes {out : Outcome} {id : Uuid} (h : out.writes id = false) :
    out.event id = none := by
  cases out with
  | claimed owner messages =>
    rw [writes] at h
    rw [event, h]
    rfl
  | acknowledged id' owner result =>
    rw [writes] at h
    rw [event, h]
    rfl
  | failed id' owner result =>
    rw [writes] at h
    rw [event, h]
    rfl
  | _ => rfl

namespace OutboxMessageModel

/-- The row stands for the lease. -/
def Stands (row : OutboxMessageModel) : Lease String Instant → Prop
  | .fresh => row.publishedAt = none ∧ row.leaseOwner = none ∧ row.leaseExpiresAt = none ∧
      row.lastError = none ∧ row.attemptCount = 0
  | .held owner expires earlier => row.publishedAt = none ∧ row.leaseOwner = some owner ∧
      row.leaseExpiresAt = some expires ∧ row.attemptCount = earlier + 1
  | .done earlier => row.publishedAt.isSome ∧ row.leaseOwner = none ∧ row.leaseExpiresAt = none ∧
      row.lastError = none ∧ row.attemptCount = earlier + 1

variable {row : OutboxMessageModel} {l : Lease String Instant}

theorem Stands.attempts (h : row.Stands l) : row.attemptCount = l.attempts := by
  cases l with
  | fresh => exact h.2.2.2.2
  | held owner expires earlier => exact h.2.2.2
  | done earlier => exact h.2.2.2.2

theorem Stands.isDone (h : row.Stands l) : row.publishedAt.isSome = l.isDone := by
  cases l with
  | fresh => rw [h.1]; rfl
  | held owner expires earlier => rw [h.1]; rfl
  | done earlier => exact h.1

/-- A row is eligible from the end of its lease, unless it is done. -/
theorem Stands.eligible_iff (h : row.Stands l) (now : Instant) :
    OutboxRepository.eligible now row = true ↔
      match l with
      | .fresh => True
      | .held _ expires _ => expires ≤ now
      | .done _ => False := by
  cases l with
  | fresh =>
    obtain ⟨hpub, -, hexp, -⟩ := h
    simp [OutboxRepository.eligible, hpub, hexp]
  | held owner expires earlier =>
    obtain ⟨hpub, -, hexp, -⟩ := h
    simp [OutboxRepository.eligible, hpub, hexp]
  | done earlier =>
    obtain ⟨t, ht⟩ := Option.isSome_iff_exists.mp h.1
    simp [OutboxRepository.eligible, ht]

/-- An unpublished row of an owner is held by it. -/
theorem Stands.of_owned (h : row.Stands l) {owner : String}
    (howned : OutboxRepository.ownedUnpublished owner row = true) :
    ∃ expires earlier, l = .held owner expires earlier := by
  obtain ⟨howner, hpub⟩ : row.leaseOwner = some owner ∧ row.publishedAt = none := by
    simpa [OutboxRepository.ownedUnpublished] using howned
  cases l with
  | fresh =>
    rw [h.2.1] at howner
    cases howner
  | held owner' expires earlier =>
    obtain rfl := Option.some_inj.mp (h.2.1.symm.trans howner)
    exact ⟨expires, earlier, rfl⟩
  | done earlier =>
    have hsome := h.1
    rw [hpub] at hsome
    cases hsome

end OutboxMessageModel

/-- **A commit does to a row what its event does to the lease.** -/
theorem MessageStep.lease {clock : Option Instant} {out : Outcome} {id : Uuid}
    {row : OutboxMessageModel} {row' : Option OutboxMessageModel} {l : Lease String Instant}
    (h : MessageStep clock out id (some row) row') (hl : row.Stands l) :
    ∃ row₁ l', row' = some row₁ ∧ row₁.Stands l' ∧
      (out.event id = none ∧ row₁ = row ∧ l' = l ∨
        ∃ e, out.event id = some e ∧ Lease.Step e l l') := by
  cases h with
  | same _ hwrites =>
    exact ⟨row, l, rfl, hl, .inl ⟨Outcome.event_of_writes hwrites, rfl, rfl⟩⟩
  -- a claim finds the lease free or expired before the time it reads
  | claimed owner messages now expiresAt _ hout hmem hall hclock hnow heligible =>
    have hevent : out.event id = some (.claim owner) := by
      rw [hout]
      exact if_pos (List.any_eq_true.mpr ⟨_, hmem, decide_eq_true rfl⟩)
    have helig := (hl.eligible_iff now).mp heligible
    cases l with
    | fresh =>
      refine ⟨_, .held owner expiresAt 0, rfl, ⟨hl.1, rfl, rfl, ?_⟩, .inr ⟨_, hevent, .take _ _⟩⟩
      exact congrArg (· + 1) hl.attempts
    | held owner' expires earlier =>
      refine ⟨_, .held owner expiresAt (earlier + 1), rfl, ⟨hl.1, rfl, rfl, ?_⟩,
        .inr ⟨_, hevent, .retake _ _ _ _ _ (lt_of_le_of_lt helig hnow)⟩⟩
      exact congrArg (· + 1) hl.attempts
    | done earlier => exact helig.elim
  -- the owner in the row is the one who finishes it
  | acknowledged owner publishedAt _ hout howned =>
    have hevent : out.event id = some (.finish owner) := by
      rw [hout]
      simp [Outcome.event]
    obtain ⟨expires, earlier, rfl⟩ := hl.of_owned howned
    exact ⟨_, .done earlier, rfl, ⟨rfl, rfl, rfl, rfl, hl.attempts⟩,
      .inr ⟨_, hevent, .finish _ _ _⟩⟩
  | failed owner error _ hout howned =>
    have hevent : out.event id = some (.touch owner) := by
      rw [hout]
      simp [Outcome.event]
    obtain ⟨expires, earlier, rfl⟩ := hl.of_owned howned
    exact ⟨_, .held owner expires earlier, rfl, hl, .inr ⟨_, hevent, .touch _ _ _⟩⟩

/-- Between two states of a run a row follows the events logged in between. -/
def LeaseFollows (id : Uuid) (cfg cfg' : TaskConfig) : Prop :=
  ∃ new, cfg'.world.log = new ++ cfg.world.log ∧
    ∀ row l, cfg.world.row (.message id) = some row → row.Stands l →
      ∃ row' l', cfg'.world.row (.message id) = some row' ∧ row'.Stands l' ∧
        l.Path (leaseEvents id new) l' ∧ (l.isDone = true → row' = row)

theorem LeaseFollows.refl (id : Uuid) (cfg : TaskConfig) : LeaseFollows id cfg cfg :=
  ⟨[], rfl, fun row l hrow hl => ⟨row, l, hrow, hl, .nil, fun _ => rfl⟩⟩

theorem LeaseFollows.trans {id : Uuid} {cfg₁ cfg₂ cfg₃ : TaskConfig}
    (h : LeaseFollows id cfg₁ cfg₂) (h' : LeaseFollows id cfg₂ cfg₃) :
    LeaseFollows id cfg₁ cfg₃ := by
  obtain ⟨new, hlog, hrows⟩ := h
  obtain ⟨new', hlog', hrows'⟩ := h'
  refine ⟨new' ++ new, by rw [hlog', hlog, List.append_assoc], fun row l hrow hl => ?_⟩
  obtain ⟨row₂, l₂, hrow₂, hl₂, hpath, hdone⟩ := hrows row l hrow hl
  obtain ⟨row₃, l₃, hrow₃, hl₃, hpath', hdone'⟩ := hrows' row₂ l₂ hrow₂ hl₂
  refine ⟨row₃, l₃, hrow₃, hl₃, ?_, fun hd => ?_⟩
  · rw [leaseEvents_append]
    exact hpath.append hpath'
  · obtain ⟨-, rfl⟩ := hpath.of_done hd
    rw [hdone' hd, hdone hd]

theorem Commits.leaseFollows {cfg cfg' : TaskConfig} {i : ℕ}
    {p : Process Command Command.Reply Exn Request Response} {out : Outcome}
    (h : Commits cfg cfg' i p out) (id : Uuid) : LeaseFollows id cfg cfg' := by
  refine ⟨[(i, out)], h.log, fun row l hrow hl => ?_⟩
  have hstep := h.message id
  rw [hrow] at hstep
  obtain ⟨row₁, l', hrow₁, hl', ⟨hevent, rfl, rfl⟩ | ⟨e, hevent, hs⟩⟩ := hstep.lease hl
  · refine ⟨row₁, l', hrow₁, hl', ?_, fun _ => rfl⟩
    rw [leaseEvents_cons, hevent]
    exact .nil
  · refine ⟨row₁, l', hrow₁, hl', ?_, fun hd => absurd hs.not_done (by simp [hd])⟩
    rw [leaseEvents_cons, hevent]
    exact .cons .nil hs

namespace TaskSystemRun

variable {allowed : Request → Prop}

/-- **Every row follows its events.** -/
theorem lease_between (run : TaskSystemRun allowed) (id : Uuid) {m n : ℕ} (hmn : m ≤ n) :
    LeaseFollows id (run.state m) (run.state n) := by
  refine run.monotone (LeaseFollows id) (LeaseFollows.refl id) LeaseFollows.trans
    (fun k _ => ?_) hmn
  obtain ⟨hrows, hlog⟩ | ⟨i, p, out, hc⟩ := run.step k
  · refine ⟨[], hlog, fun row l hrow hl => ⟨row, l, ?_, hl, .nil, fun _ => rfl⟩⟩
    rw [hrows, hrow]
  · exact hc.leaseFollows id

/-- **Every row stands for the lease its events have led to**, and there are no
events of a row that is not there. -/
theorem lease_path (run : TaskSystemRun allowed) (id : Uuid) (n : ℕ) :
    (∀ row, (run.state n).world.row (.message id) = some row →
      ∃ l, row.Stands l ∧ Lease.Path .fresh (leaseEvents id (run.state n).world.log) l) ∧
    ((run.state n).world.row (.message id) = none →
      leaseEvents id (run.state n).world.log = []) := by
  induction n with
  | zero =>
    refine ⟨fun row hrow => ?_, fun _ => by rw [run.unlogged]; rfl⟩
    rw [run.noMessages] at hrow
    cases hrow
  | succ n ih =>
    obtain ⟨hsome, hnone⟩ := ih
    obtain ⟨hrows, hlog⟩ | ⟨i, p, out, hc⟩ := run.step n
    · rw [hrows, hlog]
      exact ⟨hsome, hnone⟩
    -- without a row the commit may create it, and then with no lease
    rcases hrow : (run.state n).world.row (.message id) with _ | row
    · have hstep := hc.message id
      rw [hrow] at hstep
      generalize hrow' : (run.state (n + 1)).world.row (.message id) = row' at hstep ⊢
      cases hstep with
      | same _ hwrites =>
        refine ⟨fun row h => (by cases h), fun _ => ?_⟩
        rw [hc.log, leaseEvents_cons, Outcome.event_of_writes hwrites, hnone hrow]
        rfl
      | created result createdAt hout hid =>
        refine ⟨fun row h => ?_, fun h => by cases h⟩
        cases h
        refine ⟨.fresh, ⟨rfl, rfl, rfl, rfl, rfl⟩, ?_⟩
        rw [hc.log, leaseEvents_cons, hout, hnone hrow]
        exact .nil
    -- the row is there, and its lease takes the steps of the new entries
    · obtain ⟨l, hl, hpath⟩ := hsome row hrow
      obtain ⟨new, hlog, hfollows⟩ := hc.leaseFollows id
      obtain ⟨row', l', hrow', hl', hpath', -⟩ := hfollows row l hrow hl
      refine ⟨fun row₁ h => ?_, fun h => by rw [hrow'] at h; cases h⟩
      obtain rfl := Option.some_inj.mp (hrow'.symm.trans h)
      refine ⟨l', hl', ?_⟩
      rw [hlog, leaseEvents_append]
      exact hpath.append hpath'

end TaskSystemRun

/-! ### Shapes and counts -/

namespace OutboxMessageModel

/-- Never claimed. -/
def Fresh (row : OutboxMessageModel) : Prop :=
  row.publishedAt = none ∧ row.leaseOwner = none ∧ row.leaseExpiresAt = none ∧
    row.lastError = none ∧ row.attemptCount = 0

/-- Claimed and not published. -/
def Leased (row : OutboxMessageModel) : Prop :=
  row.publishedAt = none ∧ row.leaseOwner.isSome ∧ row.leaseExpiresAt.isSome ∧
    1 ≤ row.attemptCount

/-- Published. -/
def Published (row : OutboxMessageModel) : Prop :=
  row.publishedAt.isSome ∧ row.leaseOwner = none ∧ row.leaseExpiresAt = none ∧
    row.lastError = none ∧ 1 ≤ row.attemptCount

theorem Stands.shape {row : OutboxMessageModel} {l : Lease String Instant} (h : row.Stands l) :
    row.Fresh ∨ row.Leased ∨ row.Published := by
  cases l with
  | fresh => exact .inl h
  | held owner expires earlier =>
    obtain ⟨hpub, howner, hexp, hcount⟩ := h
    exact .inr (.inl ⟨hpub, by rw [howner]; rfl, by rw [hexp]; rfl, by omega⟩)
  | done earlier =>
    obtain ⟨hpub, howner, hexp, herror, hcount⟩ := h
    exact .inr (.inr ⟨hpub, howner, hexp, herror, by omega⟩)

end OutboxMessageModel

/-- The claims in a log that returned the message. -/
def claims (id : Uuid) (log : List (ℕ × Outcome)) : ℕ :=
  log.countP fun entry =>
    match entry.2 with
    | .claimed _ messages => messages.any fun message => decide (message.id = id)
    | _ => false

/-- The messages of the acknowledgements in a log that returned `True`. -/
def acknowledgements (log : List (ℕ × Outcome)) : List Uuid :=
  log.filterMap fun entry =>
    match entry.2 with
    | .acknowledged id _ true => some id
    | _ => none

theorem claims_eq_countP (id : Uuid) (log : List (ℕ × Outcome)) :
    claims id log = (leaseEvents id log).countP Lease.Event.isClaim := by
  rw [leaseEvents, List.countP_filterMap, claims]
  congr 1
  funext entry
  cases entry.2 with
  | claimed owner messages =>
    simp only [Outcome.event]
    split <;> simp_all [Lease.Event.isClaim]
  | acknowledged id' owner result =>
    simp only [Outcome.event]
    split <;> rfl
  | failed id' owner result =>
    simp only [Outcome.event]
    split <;> rfl
  | _ => rfl

theorem count_acknowledgements (id : Uuid) (log : List (ℕ × Outcome)) :
    (acknowledgements log).count id = (leaseEvents id log).countP Lease.Event.isFinish := by
  rw [leaseEvents, List.countP_filterMap, acknowledgements, List.count, List.countP_filterMap]
  congr 1
  funext entry
  cases entry.2 with
  | claimed owner messages =>
    simp only [Outcome.event]
    split <;> rfl
  | acknowledged id' owner result =>
    cases result with
    | false => rfl
    | true =>
      by_cases hid : id' = id
      · simp [Outcome.event, hid, Lease.Event.isFinish]
      · simp [Outcome.event, hid]
  | failed id' owner result =>
    simp only [Outcome.event]
    split <;> rfl
  | _ => rfl

/-- An acknowledged message is published, and acknowledged once. -/
theorem TaskSystemRun.count_acknowledged {allowed : Request → Prop} (run : TaskSystemRun allowed)
    (n : ℕ) (id : Uuid) :
    (acknowledgements (run.state n).world.log).count id =
      (((run.state n).world.row (.message id)).any fun row => row.publishedAt.isSome).toNat := by
  obtain ⟨hsome, hnone⟩ := run.lease_path id n
  rw [count_acknowledgements]
  rcases hrow : (run.state n).world.row (.message id) with _ | row
  · rw [hnone hrow]
    rfl
  · obtain ⟨l, hl, hpath⟩ := hsome row hrow
    rw [hpath.finishes rfl, Option.any_some, hl.isDone]

/-- **Every row has one of three shapes, its attempts are the claims that
returned it, a published row stays as it is, and each published row has been
acknowledged exactly once.** -/
theorem outbox_consistent {allowed : Request → Prop} (run : TaskSystemRun allowed) (n : ℕ) :
    (∀ id row, (run.state n).world.row (.message id) = some row →
      (row.Fresh ∨ row.Leased ∨ row.Published) ∧
      row.attemptCount = claims id (run.state n).world.log ∧
      (row.publishedAt.isSome → ∀ m, n ≤ m → (run.state m).world.row (.message id) = some row)) ∧
    (acknowledgements (run.state n).world.log).Nodup ∧
    (∀ id, id ∈ acknowledgements (run.state n).world.log ↔
      ∃ row, (run.state n).world.row (.message id) = some row ∧ row.publishedAt.isSome) ∧
    (acknowledgements (run.state n).world.log).length =
      {id | ∃ row, (run.state n).world.row (.message id) = some row ∧
        row.publishedAt.isSome}.ncard := by
  have hcount := run.count_acknowledged n
  have hnodup : (acknowledgements (run.state n).world.log).Nodup := by
    refine List.nodup_iff_count_le_one.mpr fun id => ?_
    rw [hcount]
    exact Bool.toNat_le _
  have hmem : ∀ id, id ∈ acknowledgements (run.state n).world.log ↔
      ∃ row, (run.state n).world.row (.message id) = some row ∧ row.publishedAt.isSome := by
    intro id
    rw [← List.count_pos_iff, hcount]
    rcases (run.state n).world.row (.message id) with _ | row
    · simp
    · cases hpub : row.publishedAt.isSome <;> simp [hpub]
  refine ⟨fun id row hrow => ?_, hnodup, hmem, ?_⟩
  · obtain ⟨l, hl, hpath⟩ := (run.lease_path id n).1 row hrow
    refine ⟨hl.shape, ?_, fun hpub m hnm => ?_⟩
    · rw [hl.attempts, hpath.attempts, claims_eq_countP]
      exact Nat.zero_add _
    · obtain ⟨new, -, hfollows⟩ := run.lease_between id hnm
      obtain ⟨row', l', hrow', -, -, hdone⟩ := hfollows row l hrow hl
      rw [hrow', hdone (hl.isDone.symm.trans hpub)]
  · have hset : {id | ∃ row, (run.state n).world.row (.message id) = some row ∧
        row.publishedAt.isSome} = ↑(acknowledgements (run.state n).world.log).toFinset := by
      ext id
      simp only [Set.mem_ofPred_eq, List.coe_toFinset]
      exact (hmem id).symm
    rw [hset, Set.ncard_coe_finset, List.toFinset_card_of_nodup hnodup]

/-! ### Claims one after another -/

/-- The step commits the result `out` of the process `p`. -/
def Logs (cfg cfg' : TaskConfig) (p : Process Command Command.Reply Exn Request Response)
    (out : Outcome) : Prop :=
  ∃ i, cfg.procs i = some p ∧ cfg'.world.log = (i, out) :: cfg.world.log

theorem Logs.commits {allowed : Request → Prop} {run : TaskSystemRun allowed} {n : ℕ}
    {p : Process Command Command.Reply Exn Request Response} {out : Outcome}
    (h : Logs (run.state n) (run.state (n + 1)) p out) :
    ∃ i, Commits (run.state n) (run.state (n + 1)) i p out := by
  obtain ⟨i, hp, hlog⟩ := h
  obtain ⟨-, hsame⟩ | ⟨i', p', out', hc⟩ := run.step n
  · exact absurd (hsame.symm.trans hlog) (List.cons_ne_self _ _).symm
  · obtain ⟨heq, -⟩ := List.cons.inj (hc.log.symm.trans hlog)
    cases heq
    obtain rfl := Option.some_inj.mp (hc.proc.symm.trans hp)
    exact ⟨_, hc⟩

/-- What a claim does to a message it returns. -/
theorem Commits.claim {cfg cfg' : TaskConfig} {i : ℕ}
    {p : Process Command Command.Reply Exn Request Response} {owner : String}
    {messages : List ClaimedMessage} (h : Commits cfg cfg' i p (.claimed owner messages))
    {message : ClaimedMessage} (hm : message ∈ messages) :
    ∃ model now expires, cfg.world.row (.message message.id) = some model ∧
      cfg'.world.row (.message message.id) =
        some (OutboxRepository.lease owner expires model model) ∧
      lastReading p.calls = some now ∧ OutboxRepository.eligible now model = true ∧
      message.attemptCount = model.attemptCount + 1 := by
  have hstep := h.message message.id
  generalize hrow : cfg.world.row (.message message.id) = row at hstep ⊢
  generalize hrow' : cfg'.world.row (.message message.id) = row' at hstep ⊢
  cases hstep with
  | same _ hwrites =>
    rw [Outcome.writes, List.any_eq_false] at hwrites
    exact absurd (decide_eq_true rfl) (hwrites message hm)
  | created result createdAt hout hid => cases hout
  | claimed owner' messages' now expires model hout hmem hall hclock hnow heligible =>
    cases hout
    have hmessage := hall message hm rfl
    refine ⟨model, now, expires, rfl, rfl, hclock, heligible, ?_⟩
    rw [hmessage]
    rfl
  | acknowledged owner' publishedAt row hout howned => cases hout
  | failed owner' error row hout howned => cases hout

/-- After a claim the message is held by its owner. -/
theorem stands_of_claim {row model : OutboxMessageModel} {l : Lease String Instant}
    {owner : String} {now expires : Instant}
    (hrow : row = OutboxRepository.lease owner expires model model)
    (heligible : OutboxRepository.eligible now model = true) (hl : row.Stands l) :
    l = .held owner expires model.attemptCount := by
  have hpub : model.publishedAt = none := by
    have h := heligible
    rw [OutboxRepository.eligible, Bool.and_eq_true, Option.isNone_iff_eq_none] at h
    exact h.1
  subst hrow
  cases l with
  | fresh => cases hl.2.1
  | held owner' expires' earlier =>
    obtain ⟨-, howner, hexp, hcount⟩ := hl
    obtain rfl := Option.some_inj.mp howner
    obtain rfl := Option.some_inj.mp hexp
    obtain rfl := Nat.succ.inj hcount
    rfl
  | done earlier => cases hl.2.1

namespace TaskSystemRun

variable {allowed : Request → Prop}

/-- The lease a claim leaves. -/
theorem lease_of_claim (run : TaskSystemRun allowed) {n : ℕ} {owner : String}
    {p : Process Command Command.Reply Exn Request Response} {messages : List ClaimedMessage}
    (h : Logs (run.state n) (run.state (n + 1)) p (.claimed owner messages))
    {message : ClaimedMessage} (hm : message ∈ messages) :
    ∃ row expires earlier, (run.state (n + 1)).world.row (.message message.id) = some row ∧
      row.Stands (.held owner expires earlier) ∧ row.attemptCount = message.attemptCount := by
  obtain ⟨i, hc⟩ := h.commits
  obtain ⟨model, now, expires, -, hrow', -, heligible, hcount⟩ := hc.claim hm
  obtain ⟨l, hl, -⟩ := (run.lease_path message.id (n + 1)).1 _ hrow'
  obtain rfl := stands_of_claim rfl heligible hl
  exact ⟨_, _, _, hrow', hl, hcount.symm⟩

/-- **Two claims of a message**: the second begins after the lease of the first
has ended, and it counts on. -/
theorem claim_after_claim (run : TaskSystemRun allowed) {m n : ℕ} (hmn : m < n)
    {owner owner' : String} {p p' : Process Command Command.Reply Exn Request Response}
    {messages messages' : List ClaimedMessage}
    (h : Logs (run.state m) (run.state (m + 1)) p (.claimed owner messages))
    (h' : Logs (run.state n) (run.state (n + 1)) p' (.claimed owner' messages'))
    {message message' : ClaimedMessage} (hm : message ∈ messages) (hm' : message' ∈ messages')
    (hid : message'.id = message.id) :
    (∃ row expires now, (run.state (m + 1)).world.row (.message message.id) = some row ∧
      row.leaseExpiresAt = some expires ∧ lastReading p'.calls = some now ∧ expires ≤ now) ∧
    message.attemptCount < message'.attemptCount := by
  obtain ⟨row, expires, earlier, hrow, hl, hcount⟩ := run.lease_of_claim h hm
  obtain ⟨i, hc⟩ := h'.commits
  obtain ⟨model, now, -, hmodel, -, hclock, heligible, hcount'⟩ := hc.claim hm'
  obtain ⟨new, -, hfollows⟩ := run.lease_between message.id (Nat.succ_le_of_lt hmn)
  obtain ⟨row', l', hrow', hl', hpath, -⟩ := hfollows row _ hrow hl
  obtain rfl : row' = model := by
    rw [hid] at hmodel
    exact Option.some_inj.mp (hrow'.symm.trans hmodel)
  have hattempts := hpath.attempts
  have hnow := (hl'.eligible_iff now).mp heligible
  rw [← hl'.attempts, ← hl.attempts] at hattempts
  cases l' with
  | fresh =>
    have hzero := hl'.2.2.2.2
    have hone := hl.2.2.2
    omega
  | held owner₁ expires₁ earlier₁ =>
    exact ⟨⟨row, expires, now, hrow, hl.2.2.1, hclock, hpath.until_le.trans hnow⟩, by omega⟩
  | done earlier₁ => exact hnow.elim

/-- **A relay that has lost a message** cannot acknowledge or fail it. -/
theorem fenced (run : TaskSystemRun allowed) {n k : ℕ} (hnk : n < k) {owner owner' : String}
    {p q : Process Command Command.Reply Exn Request Response} {messages : List ClaimedMessage}
    (h : Logs (run.state n) (run.state (n + 1)) p (.claimed owner' messages))
    {message : ClaimedMessage} (hm : message ∈ messages) (hne : owner' ≠ owner)
    {new : List (ℕ × Outcome)}
    (hlog : (run.state k).world.log = new ++ (run.state (n + 1)).world.log)
    (hnew : ∀ entry ∈ new, entry.2.event message.id ≠ some (.claim owner)) {result : Bool}
    (hk : Logs (run.state k) (run.state (k + 1)) q (.acknowledged message.id owner result) ∨
      Logs (run.state k) (run.state (k + 1)) q (.failed message.id owner result)) :
    result = false ∧ (run.state (k + 1)).world.row (.message message.id) =
      (run.state k).world.row (.message message.id) := by
  obtain ⟨row, expires, earlier, hrow, hl, -⟩ := run.lease_of_claim h hm
  obtain ⟨new', hlog', hfollows⟩ := run.lease_between message.id (Nat.succ_le_of_lt hnk)
  obtain rfl := List.append_cancel_right (hlog'.symm.trans hlog)
  obtain ⟨row', l', hrow', hl', hpath, -⟩ := hfollows row _ hrow hl
  have hclaim : Lease.Event.claim owner ∉ leaseEvents message.id new' := by
    intro hmem
    obtain ⟨entry, hentry, hevent⟩ := List.mem_filterMap.mp hmem
    exact hnew entry hentry hevent
  have hlost : l'.Lost owner := (hpath.fenced hne hclaim).1
  obtain ⟨i, out, hc, hout⟩ : ∃ i out, Commits (run.state k) (run.state (k + 1)) i q out ∧
      (out = .acknowledged message.id owner result ∨ out = .failed message.id owner result) := by
    obtain hk | hk := hk
    · obtain ⟨i, hc⟩ := hk.commits
      exact ⟨i, _, hc, .inl rfl⟩
    · obtain ⟨i, hc⟩ := hk.commits
      exact ⟨i, _, hc, .inr rfl⟩
  have hstep := hc.message message.id
  rw [hrow'] at hstep
  obtain ⟨row₁, l₁, hrow₁, -, ⟨hevent, rfl, -⟩ | ⟨e, hevent, hs⟩⟩ := hstep.lease hl'
  · refine ⟨?_, hrow₁.trans hrow'.symm⟩
    cases result with
    | false => rfl
    | true => obtain rfl | rfl := hout <;> simp [Outcome.event] at hevent
  · -- an event of the owner, who holds nothing
    have howner : e.owner = owner := by
      cases result with
      | false => obtain rfl | rfl := hout <;> simp [Outcome.event] at hevent
      | true =>
        obtain rfl | rfl := hout
        all_goals
          simp [Outcome.event] at hevent
          rw [← hevent]
          rfl
    have hnoclaim : e ≠ .claim owner := by
      rintro rfl
      obtain rfl | rfl := hout <;> simp [Outcome.event] at hevent
    have hpath₁ : Lease.Path l' [e] l₁ := .cons .nil hs
    exact absurd howner ((hpath₁.fenced hlost (by simpa using hnoclaim.symm)).2 e
      (List.mem_singleton_self e))

end TaskSystemRun

/-- **Leases are exclusive and fence stale relays**, who may come back with a
claim of their own. -/
theorem leases_exclusive {allowed : Request → Prop} (run : TaskSystemRun allowed) :
    (∀ m n p p' owner owner' messages messages', m < n →
      Logs (run.state m) (run.state (m + 1)) p (.claimed owner messages) →
      Logs (run.state n) (run.state (n + 1)) p' (.claimed owner' messages') →
      ∀ message ∈ messages, ∀ message' ∈ messages', message'.id = message.id →
        (∃ row expires now, (run.state (m + 1)).world.row (.message message.id) = some row ∧
          row.leaseExpiresAt = some expires ∧ lastReading p'.calls = some now ∧
          expires ≤ now) ∧
        message.attemptCount < message'.attemptCount) ∧
    (∀ n p owner messages, Logs (run.state n) (run.state (n + 1)) p (.claimed owner messages) →
      ∀ message ∈ messages, ∃ row, (run.state n).world.row (.message message.id) = some row ∧
        row.publishedAt = none) ∧
    (∀ n k p q owner owner' messages new, n < k → owner' ≠ owner →
      Logs (run.state n) (run.state (n + 1)) p (.claimed owner' messages) →
      (run.state k).world.log = new ++ (run.state (n + 1)).world.log →
      ∀ message ∈ messages,
        (∀ i messages', (i, .claimed owner messages') ∈ new →
          ∀ message' ∈ messages', message'.id ≠ message.id) →
        ∀ result, Logs (run.state k) (run.state (k + 1)) q
            (.acknowledged message.id owner result) ∨
          Logs (run.state k) (run.state (k + 1)) q (.failed message.id owner result) →
          result = false ∧ (run.state (k + 1)).world.row (.message message.id) =
            (run.state k).world.row (.message message.id)) := by
  refine ⟨?_, ?_, ?_⟩
  · intro m n p p' owner owner' messages messages' hmn h h' message hm message' hm' hid
    exact run.claim_after_claim hmn h h' hm hm' hid
  -- a claim finds its messages unpublished
  · intro n p owner messages h message hm
    obtain ⟨i, hc⟩ := h.commits
    obtain ⟨model, now, -, hmodel, -, -, heligible, -⟩ := hc.claim hm
    rw [OutboxRepository.eligible, Bool.and_eq_true, Option.isNone_iff_eq_none] at heligible
    exact ⟨model, hmodel, heligible.1⟩
  · intro n k p q owner owner' messages new hnk hne h hlog message hm hnew result hk
    refine run.fenced hnk h hm hne hlog ?_ hk
    -- the entries since the claim hold no other claim by the owner
    rintro ⟨i, out⟩ hentry hevent
    cases out with
    | claimed owner₁ messages' =>
      simp only [Outcome.event, Option.ite_none_right_eq_some, List.any_eq_true,
        decide_eq_true_eq, Option.some_inj, Lease.Event.claim.injEq] at hevent
      obtain ⟨⟨message', hm', hid⟩, rfl⟩ := hevent
      exact hnew i messages' hentry message' hm' hid
    | acknowledged id' owner₁ result' =>
      rw [Outcome.event] at hevent
      split at hevent <;> cases hevent
    | failed id' owner₁ result' =>
      rw [Outcome.event] at hevent
      split at hevent <;> cases hevent
    | _ => cases hevent

/-- A user creates a task; its message is number 7. -/
def creates (i : ℕ) (t : Instant) : List (Label Request (Choice Fault Decision)) :=
  [.start i (.create 1 "t" none), .act i (.ext (.time t)), .act i .ok, .act i .ok,
    .act i (.ext (.uuid 7)), .act i .ok, .act i .ok]

/-- A relay claims one message for ten microseconds. -/
def claimsOne (i : ℕ) (owner : String) (t : Instant) :
    List (Label Request (Choice Fault Decision)) :=
  [.start i (.claim owner 10 1), .act i (.ext (.time t)), .act i .ok, .act i .ok, .act i .ok,
    .act i .ok]

/-- It is acknowledged. -/
def acknowledges (i : ℕ) (owner : String) (t : Instant) :
    List (Label Request (Choice Fault Decision)) :=
  [.start i (.acknowledge 7 owner), .act i (.ext (.time t)), .act i .ok, .act i .ok]

/-- The run that follows some labels from the database of one user. -/
def adaRun (ls : List (Label Request (Choice Fault Decision))) :
    TaskSystemRun fun _ => True where
  toDbRun := traceRun _ _ _ adaDb ls adaDb_unlocked adaDb_unlogged fun _ _ => trivial
  noMessages := adaDb_noMessages
  positive := adaDb_positive

/-- The relay `a` claims the message, loses it to `b`, and claims it again. -/
def claimedThrice : List (Label Request (Choice Fault Decision)) :=
  creates 0 1 ++ claimsOne 1 "a" 2 ++ claimsOne 2 "b" 20 ++ claimsOne 3 "a" 40 ++
    acknowledges 4 "a" 41

/-- **A relay that has claimed the message again acknowledges it.** -/
theorem fence_violated :
    ¬ ∀ run : TaskSystemRun fun _ => True, run.ClockForward →
      ∀ m n k p p' q owner owner' messages messages', m < n → n < k → owner' ≠ owner →
        Logs (run.state m) (run.state (m + 1)) p (.claimed owner messages) →
        Logs (run.state n) (run.state (n + 1)) p' (.claimed owner' messages') →
        ∀ message ∈ messages, ∀ message' ∈ messages', message'.id = message.id →
          ∀ result, Logs (run.state k) (run.state (k + 1)) q
              (.acknowledged message.id owner result) ∨
            Logs (run.state k) (run.state (k + 1)) q (.failed message.id owner result) →
            result = false ∧ (run.state (k + 1)).world.row (.message message.id) =
              (run.state k).world.row (.message message.id) := by
  intro h
  have hclock : (adaRun claimedThrice).ClockForward :=
    trace_clockForward _ (fun _ => rfl) (by decide)
  have hfalse := h (adaRun claimedThrice) hclock 12 18 28 _ _ _ "a" "b"
    [⟨7, taskCreatedTopic, taskCreatedPayload 1, 1⟩]
    [⟨7, taskCreatedTopic, taskCreatedPayload 1, 2⟩]
    (by decide) (by decide) (by decide) ⟨1, rfl, rfl⟩ ⟨2, rfl, rfl⟩ _ List.mem_cons_self _
    List.mem_cons_self rfl true (.inl ⟨4, rfl, rfl⟩)
  cases hfalse.1

end Lsstack
