/-
What a session sees while the worker runs.

Of the tables of the application the worker writes the outbox messages, and marks tasks
that are not marked yet.  So a session beside it sees its own rows and those of the users
unchanged, and now and then a task it has not written becomes marked.

* `WorkerCommand` — the statements of the worker's transactions;
* `issues_relayOnce`, `issues_processTaskCreatedJob` — the relay and the job issue no others;
* `WorkerActs` — any number of such statements, in any sessions but one;
* **`relayOnce_acts`**, **`processTaskCreatedJob_acts`** — passes and jobs in those sessions are
  among them;
* `Marked` — what they change for that session;
* **`WorkerActs.marks`** — they change no more.
-/
import Lsstack.Queue
import Lsstack.RelayClaims
import Lsstack.SessionAmid
import Lsstack.TaskEdits
import Lsstack.DatabaseAlone

namespace Lsstack

open Concurrency

/-! ### The statements of the worker -/

/-- The task is not marked yet. -/
def TaskModel.unmarked (row : TaskModel) : Bool := row.backgroundProcessedAt.isNone

/-- The statements of the worker's transactions. -/
def WorkerCommand : Command → Prop
  | .select _ _ => True
  | .scan _ _ => True
  | .lock (.message _) _ => True
  | .tryLock (.message _) _ => True
  | .update (.message _) _ _ => True
  | .update (.task _) p f => p = TaskModel.unmarked ∧ ∃ stamp, f = TaskModel.marked stamp
  | .commit _ => True
  | .rollback => True
  | .ext _ => True
  | _ => False

theorem issues_liftExcept {α : Type} {kind : Command → Prop} (a : Except Exn α) :
    (liftExcept a).Issues kind := by
  cases a <;> trivial

/-- A transaction issues what its operation issues, and ends. -/
theorem issues_transactionRunner {α : Type} {kind : Command → Prop} {outcome : α → Outcome}
    {operation : Tx α} (h : operation.Issues kind) (hcommit : ∀ out, kind (.commit out))
    (hrollback : kind .rollback) : (transactionRunner outcome operation).Issues kind := by
  refine Program.Issues.handle (h.bind fun a => ?_) fun e => ?_
  · exact (Program.Issues.perform (hcommit _)).bind fun _ => .ret _
  · exact (Program.Issues.perform hrollback).bind fun _ => .raise _

theorem issues_acknowledgeMessage (messageId : Uuid) (owner : String) :
    (acknowledgeMessage messageId owner).Issues WorkerCommand :=
  (Program.Issues.perform trivial).bind fun _ =>
    (Program.Issues.perform trivial).bind fun _ => .ret _

theorem issues_failMessage (messageId : Uuid) (owner error : String) :
    (failMessage messageId owner error).Issues WorkerCommand :=
  (Program.Issues.perform trivial).bind fun _ => .ret _

theorem issues_worker {α : Type} {outcome : α → Outcome} {operation : Tx α}
    (h : operation.Issues WorkerCommand) :
    (transactionRunner outcome operation).Issues WorkerCommand :=
  issues_transactionRunner h (fun _ => trivial) trivial

theorem issues_relayMessage (owner : String) (acknowledged : ℕ) (message : ClaimedMessage) :
    (relayMessage owner acknowledged message).Issues WorkerCommand := by
  refine Program.Issues.handle ?_ fun e => ?_
  · refine Program.Issues.bind ?_ fun _ => ?_
    · exact (issues_liftExcept _).bind fun job =>
        (Program.Issues.perform trivial).bind fun _ => .ret _
    · exact (issues_worker (issues_acknowledgeMessage _ _)).bind fun published => .ret _
  · split
    · exact .raise _
    · exact (issues_worker (issues_failMessage _ _ _)).bind fun _ => .ret _

/-- The relay issues no others. -/
theorem issues_relayOnce (owner : String) (leaseDuration : Duration) (batchSize : ℕ) :
    (relayOnce owner leaseDuration batchSize).Issues WorkerCommand := by
  have hmessages : ∀ (messages : List ClaimedMessage) (acknowledged : ℕ),
      (relayMessages owner acknowledged messages).Issues WorkerCommand := by
    intro messages
    induction messages with
    | nil => exact fun _ => .ret _
    | cons message rest ih =>
      exact fun acknowledged => (issues_relayMessage _ _ _).bind fun acknowledged => ih _
  refine (issues_worker ?_).bind fun claimed => hmessages _ _
  exact (strict_claimMessages_of trivial (fun _ _ => trivial) (fun _ _ => trivial)
    fun _ _ _ => trivial).meets_only

/-- The job issues no others. -/
theorem issues_processTaskCreatedJob (payload : JsonValue) :
    (processTaskCreatedJob payload).Issues WorkerCommand := by
  refine (issues_liftExcept _).bind fun taskId => ?_
  refine (issues_worker ?_).bind fun result => .ret _
  refine (Program.Issues.perform trivial).bind fun now => ?_
  refine Program.Issues.bind ?_ fun marked => ?_
  · refine (Program.Issues.perform ⟨rfl, now, rfl⟩).bind fun _ => ?_
    exact (Program.Issues.perform trivial).bind fun model => .ret _
  · cases marked with
    | none => exact .ret _
    | some task => exact (issues_liftExcept _).bind fun result => .ret _

/-! ### What they do to a cell -/

/-- How a statement of worker session `j` may change a cell. -/
inductive WorkerMoves (j : ℕ) : (k : Key) → Cell (Row k) → Cell (Row k) → Prop
  | stay (k : Key) (c : Cell (Row k)) : WorkerMoves j k c c
  | publish (k : Key) (c : Cell (Row k)) : WorkerMoves j k c (c.publish j)
  | release (k : Key) (c : Cell (Row k)) : WorkerMoves j k c (c.release j)
  | mark (id : ℕ) (c : Cell TaskModel) (row : TaskModel) (stamp : Instant) (o : c.Open j)
      (hview : c.view j = some row) (hrow : row.backgroundProcessedAt = none) :
      WorkerMoves j (.task id) c (c.write j (some (row.marked stamp)))
  | message (id : Uuid) (c c' : Cell OutboxMessageModel) (h : c.Moves j c') :
      WorkerMoves j (.message id) c c'

section Cells

variable {isHash : String → String → Bool} {i j : ℕ} {w w' : Db} {c : Command}
  {x : Choice Fault Decision} {r : Except Exn c.Reply}

/-- Of another cell than the statement's own, a message's may change as it likes. -/
theorem WorkerMoves.of_message (id : Uuid) (hmoves : ∀ k, (w.cell k).Moves j (w'.cell k))
    (hothers : ∀ k, k ≠ .message id → w'.cell k = w.cell k) (k : Key) :
    WorkerMoves j k (w.cell k) (w'.cell k) := by
  cases k with
  | message id' => exact .message id' _ _ (hmoves _)
  | _ =>
    rw [hothers _ (by simp)]
    exact .stay _ _

theorem workerMoves (hc : WorkerCommand c)
    (h : exec Fault.exn (outside isHash) w j c x = some (r, w')) (k : Key) :
    WorkerMoves j k (w.cell k) (w'.cell k) := by
  -- the worker locks messages, marks tasks and inserts nothing
  have hmoves := exec_moves h
  cases c with
  | select k' p =>
    obtain ⟨rfl, -⟩ := exec_select h
    exact .stay _ _
  | scan p le =>
    obtain ⟨rfl, -⟩ := exec_scan h
    exact .stay _ _
  | lock k' p =>
    cases k' with
    | message id =>
      refine WorkerMoves.of_message id hmoves (fun k hk => ?_) k
      obtain ⟨rfl, -⟩ | ⟨rfl, -⟩ | ⟨a, rfl, -⟩ := exec_lock h
      · rfl
      · rfl
      · exact World.lock_cell_of_ne _ _ hk
    | _ => exact hc.elim
  | tryLock k' p =>
    cases k' with
    | message id =>
      refine WorkerMoves.of_message id hmoves (fun k hk => ?_) k
      obtain ⟨rfl, -⟩ | ⟨rfl, -⟩ | ⟨a, rfl, -⟩ := exec_tryLock h
      · rfl
      · rfl
      · exact World.lock_cell_of_ne _ _ hk
    | _ => exact hc.elim
  | update k' p f =>
    cases k' with
    | message id =>
      refine WorkerMoves.of_message id hmoves (fun k hk => ?_) k
      obtain ⟨rfl, -⟩ | ⟨rfl, -⟩ | ⟨a, rfl, -⟩ := exec_update h
      · rfl
      · rfl
      · exact World.write_cell_of_ne _ _ hk _
    | task id =>
      obtain ⟨rfl, stamp, rfl⟩ := hc
      obtain ⟨rfl, -⟩ | ⟨rfl, -⟩ | ⟨row, rfl, -, ha⟩ := exec_update h
      · exact .stay _ _
      · exact .stay _ _
      · obtain ⟨hview, hrow, ho⟩ := World.acquire_row ha
        by_cases hk : k = .task id
        · subst hk
          rw [World.write_cell_self]
          exact .mark id _ row stamp ho hview (Option.isNone_iff_eq_none.mp hrow)
        · rw [World.write_cell_of_ne _ _ hk]
          exact .stay _ _
    | _ => exact hc.elim
  | commit out =>
    obtain ⟨rfl, -⟩ | rfl := exec_commit h
    · exact .stay _ _
    · exact .publish _ _
  | rollback =>
    obtain ⟨rfl, -⟩ := exec_rollback h
    exact .release _ _
  | ext y =>
    obtain ⟨rfl, -⟩ | ⟨d, env, -, rfl⟩ := exec_ext h
    · exact .stay _ _
    · exact .stay _ _
  | insert k' v => exact hc.elim
  | delete k' p => exact hc.elim
  | nextval q => exact hc.elim

theorem WorkerMoves.moves {k : Key} {c c' : Cell (Row k)} (h : WorkerMoves j k c c') :
    c.Moves j c' := by
  cases h with
  | stay => exact .stay
  | publish => exact .publish
  | release => exact .release
  | mark id c row stamp o => exact .write o _
  | message id c c' h => exact h

/-- How the worker changes a row: it marks a task, and does as it likes with messages. -/
def Marking : (k : Key) → Option (Row k) → Option (Row k) → Prop
  | .task _, old, new => ∃ row stamp, old = some row ∧ row.backgroundProcessedAt = none ∧
    new = some (row.marked stamp)
  | .message _, _, _ => True
  | _, _, _ => False

/-- A task is marked once. -/
theorem Marking.trans {k : Key} {v₁ v₂ v₃ : Option (Row k)} (h : Marking k v₁ v₂)
    (h' : Marking k v₂ v₃) : Marking k v₁ v₃ := by
  cases k with
  | task id =>
    obtain ⟨row, stamp, -, -, hnew⟩ := h
    obtain ⟨row', -, hold, hrow', -⟩ := h'
    obtain rfl := Option.some_inj.mp (hnew.symm.trans hold)
    cases hrow'
  | message id => trivial
  | user id => exact h.elim
  | email address => exact h.elim

/-- The sessions beside `i` have written what the worker writes. -/
def MarksOnly (i : ℕ) (k : Key) (c : Cell (Row k)) : Prop :=
  ∀ j v, c.hold = .written j v → j ≠ i → Marking k c.committed v

/-- The statements of session `i` itself keep that. -/
theorem MarksOnly.own (h : exec Fault.exn (outside isHash) w i c x = some (r, w')) {k : Key}
    (hk : MarksOnly i k (w.cell k)) : MarksOnly i k (w'.cell k) := by
  intro j v hv hne
  have howner : (w'.cell k).hold.owner = some j := by rw [hv, Hold.owner_written]
  have hcell := exec_foreign h ((exec_moves h k).owner howner hne) hne
  rw [hcell] at hv ⊢
  exact hk j v hv hne

/-- And so do those of the worker. -/
theorem MarksOnly.worker {k : Key} {c c' : Cell (Row k)} (hij : j ≠ i) (hc : MarksOnly i k c)
    (h : WorkerMoves j k c c') : MarksOnly i k c' := by
  cases h with
  | stay => exact hc
  | publish =>
    intro j' v hv hne
    by_cases ho : c.hold.owner = some j
    · rw [Cell.publish_of_owner ho] at hv
      cases hv
    · rw [Cell.publish_of_ne ho] at hv ⊢
      exact hc j' v hv hne
  | release =>
    intro j' v hv hne
    by_cases ho : c.hold.owner = some j
    · rw [Cell.release, if_pos ho] at hv
      cases hv
    · rw [Cell.release_of_ne ho] at hv ⊢
      exact hc j' v hv hne
  | mark id c row stamp o hview hrow =>
    have hcommitted : c.committed = some row := by
      rw [Cell.view] at hview
      cases hhold : c.hold with
      | written j' v =>
        -- what it has written is marked, so it does not mark it again
        rw [hhold] at hview
        have hj : j' = j := by
          rcases o with ho | ho
          · rw [hhold] at ho
            cases ho
          · rw [hhold] at ho
            exact Option.some_inj.mp ho
        obtain ⟨old, stamp', -, -, hv⟩ := hc j' v hhold (hj ▸ hij)
        dsimp only at hview
        rw [if_pos hj, hv] at hview
        cases hview
        cases hrow
      | _ =>
        rw [hhold] at hview
        exact hview
    intro j' v hv hne
    cases hv
    exact ⟨row, stamp, hcommitted, hrow, rfl⟩
  | message id c c' h => exact fun _ _ _ _ => trivial

end Cells

/-! ### What a session sees of it -/

/-- The rows as session `i` sees them. -/
def seen (i : ℕ) (w : Db) : DbSession :=
  ⟨w.row, fun k => (w.cell k).view i, w.seq, fun k => ¬ (w.cell k).Open i⟩

theorem alone_seen (i : ℕ) (w : Db) : Alone i w (seen i w) where
  unlocked := fun _ => not_not.symm
  rows := fun _ => rfl
  committed := fun _ => rfl
  seq := rfl

/-- What the worker changes for a session beside it: rows the session has not written. -/
structure Marked (s s' : DbSession) : Prop where
  rows : ∀ k, (s'.rows k = s.rows k ∧ s'.committed k = s.committed k) ∨
    (s.rows k = s.committed k ∧ s'.rows k = s'.committed k ∧
      Marking k (s.committed k) (s'.committed k))
  seq : ∀ q, s.seq q ≤ s'.seq q

namespace Marked

variable {s s₁ s₂ s₃ : DbSession}

theorem refl (s : DbSession) : Marked s s := ⟨fun _ => .inl ⟨rfl, rfl⟩, fun _ => Nat.le_refl _⟩

theorem trans (h : Marked s₁ s₂) (h' : Marked s₂ s₃) : Marked s₁ s₃ where
  rows := by
    intro k
    rcases h.rows k with ⟨hrows, hcommitted⟩ | ⟨hsame, hsame', hmarks⟩
    · rw [← hrows, ← hcommitted]
      exact h'.rows k
    · rcases h'.rows k with ⟨hrows, hcommitted⟩ | ⟨-, hlast, hmarks'⟩
      · refine .inr ⟨hsame, ?_, ?_⟩
        · rw [hrows, hcommitted, hsame']
        · rw [hcommitted]
          exact hmarks
      · exact .inr ⟨hsame, hlast, hmarks.trans hmarks'⟩
  seq := fun q => (h.seq q).trans (h'.seq q)

end Marked

/-- A statement of the worker, in any session but `i`. -/
def WorkerStatement (isHash : String → String → Bool) (i : ℕ) (w w' : Db) : Prop :=
  ∃ (j : ℕ) (c : Command) (x : Choice Fault Decision) (r : Except Exn c.Reply),
    j ≠ i ∧ WorkerCommand c ∧ exec Fault.exn (outside isHash) w j c x = some (r, w')

/-- Any number of them. -/
def WorkerActs (isHash : String → String → Bool) (i : ℕ) : Db → Db → Prop :=
  Relation.ReflTransGen (WorkerStatement isHash i)

section Worker

variable {isHash : String → String → Bool} {i j : ℕ} {w w' : Db}

/-- What issues the statements of the worker in another session is part of the worker, with
whatever else the worker does between them. -/
theorem WorkerActs.of_runs {α : Type} {p : Tx α} {events : List (StoreEvent Key Row Sequence
    Outcome Queue Outside Outside.Reply Exn)} {a : Except Exn α}
    (h : p.Runs (WorkerActs isHash i) (Acts Fault.exn (outside isHash) j) w events a w')
    (hp : p.Issues WorkerCommand) (hij : j ≠ i) : WorkerActs isHash i w w' := by
  induction h with
  | ret => exact .refl
  | raise => exact .refl
  | call waits does rest ih =>
    obtain ⟨hc, hk⟩ := hp
    obtain ⟨x, he⟩ := does
    obtain ⟨_, -, hrest⟩ := hk _ trivial
    exact (waits.tail ⟨j, _, x, _, hij, hc, he⟩).trans (ih hrest)

/-- **A relay pass** is what the worker may do beside a session. -/
theorem relayOnce_acts {owner : String} {leaseDuration : Duration} {batchSize : ℕ}
    {events : List (StoreEvent Key Row Sequence Outcome Queue Outside Outside.Reply Exn)}
    {a : Except Exn ℕ} (h : (relayOnce owner leaseDuration batchSize).Runs (WorkerActs isHash i)
      (Acts Fault.exn (outside isHash) j) w events a w') (hij : j ≠ i) :
    WorkerActs isHash i w w' :=
  .of_runs h (issues_relayOnce _ _ _) hij

/-- **So is a job**, whatever its payload. -/
theorem processTaskCreatedJob_acts {payload : JsonValue}
    {events : List (StoreEvent Key Row Sequence Outcome Queue Outside Outside.Reply Exn)}
    {a : Except Exn JobResult} (h : (processTaskCreatedJob payload).Runs (WorkerActs isHash i)
      (Acts Fault.exn (outside isHash) j) w events a w') (hij : j ≠ i) :
    WorkerActs isHash i w w' :=
  .of_runs h (issues_processTaskCreatedJob _) hij

theorem WorkerStatement.marks (h : WorkerStatement isHash i w w')
    (hw : ∀ k, MarksOnly i k (w.cell k)) :
    (∀ k, MarksOnly i k (w'.cell k)) ∧ Marked (seen i w) (seen i w') := by
  obtain ⟨j, c, x, r, hij, hc, he⟩ := h
  refine ⟨fun k => (hw k).worker hij (workerMoves hc he k), fun k => ?_, (exec_seq_env he).1⟩
  rcases (workerMoves hc he k).moves.beside hij with hsame | ⟨v, hhold, hcell⟩
  · exact .inl hsame
  · have hbefore : (w.cell k).view i = w.row k := by
      refine World.view_eq_row fun ho => hij ?_
      rw [hhold] at ho
      exact Option.some_inj.mp ho
    have hrow : w'.row k = v := by rw [World.row, hcell]
    have hafter : (w'.cell k).view i = v := by rw [hcell, Cell.view]
    refine .inr ⟨hbefore, hafter.trans hrow.symm, ?_⟩
    show Marking k (w.row k) (w'.row k)
    rw [hrow]
    exact hw k j v hhold hij

/-- **The worker marks tasks and writes messages**, and no more. -/
theorem WorkerActs.marks (h : WorkerActs isHash i w w') (hw : ∀ k, MarksOnly i k (w.cell k)) :
    (∀ k, MarksOnly i k (w'.cell k)) ∧ Marked (seen i w) (seen i w') := by
  induction h with
  | refl => exact ⟨hw, .refl _⟩
  | tail hacts hstep ih =>
    obtain ⟨hw', hmarks⟩ := hstep.marks ih.1
    exact ⟨hw', ih.2.trans hmarks⟩

end Worker

end Lsstack
