/-
The requests of the task page, beside the worker.

One browser sends its requests one after another; the worker may mark tasks between any two
statements, any statement may fail, and the clock stays within the time of the request.

* `beside` — what a statement of such a request meets;
* `Rested`, `OnlyTask` — what a request leaves of the users, and of the tasks it does not touch;
* `ensures_transaction`, `ensures_runTaskPage` — the frame of the handlers;
* **`ensures_taskList`**, **`ensures_createTaskAction`**, **`ensures_toggleTaskAction`**,
  **`ensures_deleteTaskAction`**, **`ensures_taskStatus`** — what they answer and change.
-/
import Lsstack.TaskForms
import Lsstack.TaskLists
import Lsstack.WorkerMarks

namespace Lsstack

open Concurrency

/-! ### Statements -/

/-- The clock stays between two times; nothing is said of the other calls. -/
def ClockWithin (lo hi : Instant) : (x : Outside) → x.Reply → Prop
  | .now, t => lo ≤ t ∧ t ≤ hi
  | _, _ => True

/-- What a statement of a request meets. -/
abbrev beside (isHash : String → String → Bool) (lo hi : Instant) :
    DbSession → (c : Command) → Except Exn c.Reply → DbSession → Prop :=
  amid Marked (ClockWithin lo hi) (Fails Fault.exn (outside isHash))

/-- The exceptions that no handler of the task page catches. -/
def Exn.unhandled : Exn → Prop
  | .invalidSessionError _ => False
  | .taskNotFoundError _ => False
  | _ => True

section Statements

variable {isHash : String → String → Bool} {lo hi : Instant} {s s' : DbSession} {c : Command}

theorem unhandled_of_fails {e : Exn} (h : Fails Fault.exn (outside isHash) c e) : e.unhandled := by
  have hfault : ∀ f : Fault, (Fault.exn f).unhandled := by
    intro f
    cases f <;> trivial
  cases c with
  | rollback => exact h.elim
  | ext x =>
    rcases h with ⟨f, rfl⟩ | ⟨env, y, env', hext⟩
    · exact hfault f
    · obtain ⟨f, rfl⟩ := outside_error hext
      exact hfault f
  | _ =>
    obtain ⟨f, rfl⟩ := h
    exact hfault f

/-- One statement, where unhandled exceptions may be raised. -/
theorem beside_perform {raised : Exn → Prop} (hraised : ∀ e, e.unhandled → raised e)
    {K : c.Reply → DbSession → Prop}
    (h : ∀ s₁ v, Marked s s₁ → s₁.Replies (ClockWithin lo hi) c v → K v (s₁.next c)) :
    (perform c).Ensures (beside isHash lo hi) s (Program.Ends raised K) := by
  refine Program.ensures_perform.mpr ?_
  rintro r s' ⟨s₁, hmarks, ⟨v, rfl, hv, rfl⟩ | ⟨e, rfl, hfails, rfl⟩⟩
  · exact h s₁ v hmarks hv
  · exact hraised e (unhandled_of_fails hfails)

/-- The statements of an operation of the task page: of the users it only reads. -/
def PageCommand : Command → Prop
  | .select _ _ => True
  | .scan _ _ => True
  | .update (.task _) _ _ => True
  | .insert (.task _) _ => True
  | .insert (.message _) _ => True
  | .delete (.task _) _ => True
  | .nextval _ => True
  | .ext _ => True
  | _ => False

/-- The session is in a transaction it began at `s₀`. -/
structure Within (s₀ s : DbSession) : Prop where
  committed : Marked s₀.base s.base
  users : ∀ id, s.rows (.user id) = s₀.rows (.user id)

theorem Marked.base (h : Marked s s') : Marked s.base s'.base where
  rows := by
    intro k
    rcases h.rows k with ⟨-, hsame⟩ | ⟨-, -, hmarks⟩
    · exact .inl ⟨hsame, hsame⟩
    · exact .inr ⟨rfl, rfl, hmarks⟩
  seq := h.seq

/-- The worker does not touch the users. -/
theorem Marked.user (h : Marked s s') (id : ℕ) : s'.rows (.user id) = s.rows (.user id) := by
  rcases h.rows (.user id) with ⟨hsame, -⟩ | ⟨-, -, hmarks⟩
  · exact hsame
  · exact hmarks.elim

/-- What a session has not written, it sees as committed. -/
theorem Marked.settled (h : Marked s s') (hs : s.rows = s.committed) : s'.rows = s'.committed := by
  funext k
  rcases h.rows k with ⟨hrows, hcommitted⟩ | ⟨-, hsame, -⟩
  · rw [hrows, hcommitted, hs]
  · exact hsame

/-- There is nothing to commit. -/
theorem Marked.commit (h : Marked s s') (hs : s.rows = s.committed) :
    Marked s { s' with committed := s'.rows } := by
  have hsettled := h.settled hs
  refine ⟨fun k => ?_, h.seq⟩
  have hk := h.rows k
  rw [← hsettled] at hk
  exact hk

/-- A row the session has written stays. -/
theorem Marked.written (h : Marked s s') {k : Key} (hk : s.committed k ≠ s.rows k) :
    s'.rows k = s.rows k ∧ s'.committed k = s.committed k := by
  rcases h.rows k with hsame | ⟨hsame, -⟩
  · exact hsame
  · exact absurd hsame.symm hk

theorem Within.refl (s : DbSession) : Within s s := ⟨.refl _, fun _ => rfl⟩

theorem Within.marks {s₀ : DbSession} (h : Within s₀ s) (hmarks : Marked s s') : Within s₀ s' where
  committed := h.committed.trans hmarks.base
  users := fun id => (hmarks.user id).trans (h.users id)

theorem PageCommand.frees (hc : PageCommand c) : c.frees = false := by
  cases c with
  | commit out => exact hc.elim
  | rollback => exact hc.elim
  | _ => rfl

theorem next_seq_le (s : DbSession) (c : Command) (q : Sequence) : s.seq q ≤ (s.next c).seq q := by
  cases c with
  | nextval q' =>
    by_cases hq : q = q'
    · subst hq
      simp [Session.next]
    · simp [Session.next, Function.update_of_ne hq]
  | update k p f =>
    rw [Session.next]
    split <;> exact Nat.le_refl _
  | delete k p =>
    rw [Session.next]
    split <;> exact Nat.le_refl _
  | insert k v =>
    rw [Session.next]
    split <;> exact Nat.le_refl _
  | _ => exact Nat.le_refl _

theorem PageCommand.users (hc : PageCommand c) (id : ℕ) :
    (s.next c).rows (.user id) = s.rows (.user id) := by
  -- a statement of a page writes to tasks and messages only
  cases c with
  | update k p f =>
    cases k with
    | task id' =>
      rw [Session.next]
      split
      · rfl
      · exact Session.put_rows_of_ne _ (by simp) _
    | _ => exact hc.elim
  | delete k p =>
    cases k with
    | task id' =>
      rw [Session.next]
      split
      · rfl
      · exact Session.put_rows_of_ne _ (by simp) _
    | _ => exact hc.elim
  | insert k v =>
    cases k with
    | task id' =>
      rw [Session.next]
      split
      · exact Session.put_rows_of_ne _ (by simp) _
      · rfl
    | message id' =>
      rw [Session.next]
      split
      · exact Session.put_rows_of_ne _ (by simp) _
      · rfl
    | _ => exact hc.elim
  | commit out => exact hc.elim
  | rollback => exact hc.elim
  | _ => rfl

/-- An operation stays within its transaction. -/
theorem Within.next {s₀ : DbSession} {r : Except Exn c.Reply} (h : Within s₀ s)
    (hc : PageCommand c) (hnext : beside isHash lo hi s c r s') : Within s₀ s' := by
  obtain ⟨s₁, hmarks, ⟨v, -, -, rfl⟩ | ⟨e, -, -, rfl⟩⟩ := hnext
  · have h₁ := h.marks hmarks
    have hseq : ∀ q, s₀.seq q ≤ s₁.seq q := h₁.committed.seq
    refine ⟨⟨?_, fun q => (hseq q).trans (next_seq_le s₁ c q)⟩, fun id => ?_⟩
    · rw [Session.base, next_committed _ _ hc.frees]
      exact h₁.committed.rows
    · rw [hc.users]
      exact h₁.users id
  · exact h.marks hmarks

end Statements

/-! ### Transactions -/

section Transactions

variable {isHash : String → String → Bool} {lo hi : Instant} {s : DbSession} {α : Type}
  {outcome : α → Outcome} {operation : Tx α}

/-- A transaction commits what its operation reaches. -/
theorem ensures_transaction {raised : Exn → Prop} (hraised : ∀ e, e.unhandled → raised e)
    {K : α → DbSession → Prop}
    (h : operation.Ensures (beside isHash lo hi) s (Program.Ends raised fun a s' =>
      ∀ s₁, Marked s' s₁ → K a { s₁ with committed := s₁.rows })) :
    (transactionRunner outcome operation).Ensures (beside isHash lo hi) s
      (Program.Ends raised K) := by
  have hrollback : ∀ (e : Exn) (s : DbSession), raised e →
      (rollback.bind fun _ => (.raise e : Tx α)).Ensures (beside isHash lo hi) s
        (Program.Ends raised K) :=
    fun e s he => Program.Ensures.bind (beside_perform hraised fun _ _ _ _ => he)
  refine Program.ensures_handle.mpr (Program.ensures_bind.mpr (h.mono fun r s' hr => ?_))
  cases r with
  | error e => exact hrollback e s' hr
  | ok a =>
    refine Program.ensures_bind.mpr (Program.Ensures.mono (Q := Program.Ends raised fun _ s₁ =>
      K a s₁) (beside_perform hraised fun s₁ _ hmarks _ => hr s₁ hmarks) fun r s₁ h₁ => ?_)
    cases r with
    | ok u => exact h₁
    | error e => exact hrollback e s₁ h₁

/-- How a request leaves what it met. -/
structure Rested (s s' : DbSession) : Prop where
  settled : s'.rows = s'.committed
  users : ∀ id, s'.rows (.user id) = s.rows (.user id)
  seq : ∀ q, s.seq q ≤ s'.seq q

theorem Rested.refl (hs : s.rows = s.committed) : Rested s s :=
  ⟨hs, fun _ => rfl, fun _ => Nat.le_refl _⟩

/-- A transaction leaves no row open, and a failed one changes none. -/
theorem ensures_rested (hs : s.rows = s.committed) (h : operation.Issues PageCommand) :
    (transactionRunner outcome operation).Ensures (beside isHash lo hi) s
      fun r s' => Rested s s' ∧ ∀ e, r = .error e → Marked s s' := by
  have hbase : s.base = s := Session.base_eq hs
  have hrolled : ∀ (e : Exn) (s' : DbSession), Within s s' →
      (rollback.bind fun _ => (.raise e : Tx α)).Ensures (beside isHash lo hi) s'
        fun r s'' => Rested s s'' ∧ ∀ e, r = .error e → Marked s s'' := by
    intro e s' h'
    refine Program.ensures_bind.mpr (Program.ensures_perform.mpr ?_)
    rintro r s'' ⟨s₁, hmarks, ⟨v, rfl, -, rfl⟩ | ⟨e, rfl, hfails, rfl⟩⟩
    · have h₁ := h'.marks hmarks
      have hmarks₁ : Marked s s₁.base := hbase ▸ h₁.committed
      exact ⟨⟨rfl, hmarks₁.user, hmarks₁.seq⟩, fun _ _ => hmarks₁⟩
    · exact hfails.elim
  have hwithin : operation.Ensures (beside isHash lo hi) s fun _ s' => Within s s' :=
    h.ensures (fun _ _ _ _ hc h hnext => h.next hc hnext) (.refl s)
  refine Program.ensures_handle.mpr (Program.ensures_bind.mpr (hwithin.mono fun r s' h' => ?_))
  cases r with
  | error e => exact hrolled e s' h'
  | ok a =>
    refine Program.ensures_bind.mpr (Program.ensures_perform.mpr ?_)
    rintro r s'' ⟨s₁, hmarks, ⟨v, rfl, -, rfl⟩ | ⟨e, rfl, hfails, rfl⟩⟩
    · have h₁ := h'.marks hmarks
      exact ⟨⟨rfl, h₁.users, h₁.committed.seq⟩, fun e he => by cases he⟩
    · exact hrolled e _ (h'.marks hmarks)

end Transactions

/-! ### The session of a request -/

/-- By some time the claims are rejected. -/
def Rejects (claims : SessionClaims) (t : Instant) (s : DbSession) : Prop :=
  claims.expiresAt ≤ t ∨
    ∀ row, s.rows (.user claims.userId) = some row → row.sessionVersion ≠ claims.sessionVersion

section Authenticated

variable {isHash : String → String → Bool} {lo hi : Instant} {s : DbSession}
  {claims : SessionClaims}

theorem issues_revalidateSession : (revalidateSession claims).Issues PageCommand := by
  refine (Program.Issues.perform trivial).bind fun time => ?_
  split
  · exact .raise _
  · refine Program.Issues.bind ?_ fun session => ?_
    · refine Program.Issues.bind ((Program.Issues.perform trivial).bind fun _ => .ret _)
        fun user => ?_
      cases user with
      | none => exact .ret _
      | some user =>
        dsimp only
        split
        · exact .ret _
        · exact .ret _
    · cases session with
      | none => exact .raise _
      | some current =>
        dsimp only
        split
        · exact .raise _
        · exact .ret _

/-- What a request may raise within its transaction. -/
def PageRefused (claims : SessionClaims) (hi : Instant) (s : DbSession) (e : Exn) : Prop :=
  e.unhandled ∨ (∃ message, e = .invalidSessionError message) ∧ Rejects claims hi s

/-- The user of the claims has their version. -/
theorem rejects_iff {t : Instant} {row : UserModel}
    (hrow : s.rows (.user claims.userId) = some row) :
    Rejects claims t s ↔ claims.expiresAt ≤ t ∨ row.sessionVersion ≠ claims.sessionVersion := by
  refine or_congr_right ⟨fun h => h row hrow, fun h row' hrow' => ?_⟩
  obtain rfl := Option.some_inj.mp (hrow.symm.trans hrow')
  exact h

/-- The session is judged by one reading of the clock and one of the user. -/
theorem ensures_revalidateSession :
    (revalidateSession claims).Ensures (beside isHash lo hi) s
      (Program.Ends (PageRefused claims hi s) fun session s' =>
        Marked s s' ∧ session.userId = claims.userId ∧ ¬ Rejects claims lo s) := by
  refine Program.Ensures.bind (beside_perform (fun _ => .inl) fun s₁ t h₁ ht => ?_)
  replace ht : lo ≤ t ∧ t ≤ hi := ht
  -- the clock is between `lo` and `hi`
  by_cases hexpired : claims.expiresAt ≤ t
  · rw [if_pos hexpired]
    exact .inr ⟨⟨_, rfl⟩, .inl (hexpired.trans ht.2)⟩
  rw [if_neg hexpired]
  refine Program.Ensures.bind (Program.Ensures.bind (Program.Ensures.bind
    (beside_perform (fun _ => .inl) fun s₂ user h₂ huser => ?_)))
  have hmarks : Marked s s₂ := h₁.trans h₂
  replace huser : user = (s₂.rows (.user claims.userId)).filter fun _ => true := huser
  have hfilter : user = s.rows (.user claims.userId) := by
    rw [huser, hmarks.user]
    cases s.rows (.user claims.userId) <;> rfl
  subst hfilter
  -- the user is as at first: the worker touches tasks only
  rcases hrow : s.rows (.user claims.userId) with _ | row
  · refine .inr ⟨⟨_, rfl⟩, .inr fun row hrow' => ?_⟩
    cases hrow.symm.trans hrow'
  show Program.Ensures _ (ite (row.sessionVersion ≠ claims.sessionVersion) _ _) _ _
  by_cases hversion : row.sessionVersion = claims.sessionVersion
  · rw [if_neg (not_not.mpr hversion)]
    refine ⟨hmarks, rfl, ?_⟩
    rw [rejects_iff hrow]
    rintro (h | h)
    · exact hexpired (h.trans ht.1)
    · exact h hversion
  · rw [if_pos hversion]
    exact .inr ⟨⟨_, rfl⟩, (rejects_iff hrow).mpr (.inr hversion)⟩

/-- **A task page** commits what its operation reaches, or the session is rejected. -/
theorem ensures_runTaskPage {α : Type} {request : WebRequest} {operation : CurrentUser → Tx α}
    (hrequest : request.session = some claims) {K : α → DbSession → Prop}
    (h : ∀ user s₁, user.id = claims.userId → Marked s s₁ →
      (operation user).Ensures (beside isHash lo hi) s₁ (Program.Ends Exn.unhandled fun a s₂ =>
        ∀ s₃, Marked s₂ s₃ → K a { s₃ with committed := s₃.rows })) :
    (runTaskPage request operation).Ensures (beside isHash lo hi) s
      (Program.Ends Exn.unhandled fun r s' =>
        (r = none ∧ Rejects claims hi s) ∨
        ∃ user a, r = some (user, a) ∧ ¬ Rejects claims lo s ∧ K a s') := by
  rw [runTaskPage, hrequest]
  have htransaction : (transactionRunner (fun result : CurrentUser × α => Outcome.visited result.1)
      (do
        let session ← revalidateSession claims
        let user : CurrentUser := ⟨session.userId, session.emailNormalized, session.sessionVersion⟩
        let result ← operation user
        return (user, result))).Ensures (beside isHash lo hi) s
      (Program.Ends (PageRefused claims hi s) fun result s' =>
        ¬ Rejects claims lo s ∧ K result.2 s') := by
    -- whatever raises in the transaction leaves the committed rows
    refine ensures_transaction (fun _ => .inl) ?_
    refine Program.Ensures.bind (ensures_revalidateSession.mono fun r s₁ hr => hr.mono ?_)
    rintro session ⟨hmarks, huser, hvalid⟩
    refine Program.Ensures.bind ((h _ _ huser hmarks).mono fun r s₂ hr => ?_)
    cases r with
    | ok a => exact fun s₃ hmarks₃ => ⟨hvalid, hr s₃ hmarks₃⟩
    | error e => exact .inl hr
  refine Program.ensures_handle.mpr (Program.ensures_bind.mpr (htransaction.mono fun r s' hr => ?_))
  cases r with
  | ok result => exact .inr ⟨result.1, result.2, rfl, hr⟩
  | error e =>
    rcases hr with hr | ⟨⟨message, rfl⟩, hrejects⟩
    · cases e <;> first | exact hr.elim | exact hr
    · exact .inl ⟨rfl, hrejects⟩

/-- And it leaves no row open, and changes nothing unless its operation returns. -/
theorem ensures_runTaskPage_rested {α : Type} {request : WebRequest}
    {operation : CurrentUser → Tx α} (hrequest : request.session = some claims)
    (hs : s.rows = s.committed) (h : ∀ user, (operation user).Issues PageCommand) :
    (runTaskPage request operation).Ensures (beside isHash lo hi) s
      fun r s' => Rested s s' ∧ ((∀ x, r ≠ .ok (some x)) → Marked s s') := by
  rw [runTaskPage, hrequest]
  refine Program.ensures_handle.mpr (Program.ensures_bind.mpr ((ensures_rested hs ?_).mono ?_))
  · exact issues_revalidateSession.bind fun session => (h _).bind fun result => .ret _
  · rintro (e | result) s' ⟨hrested, hmarks⟩
    · cases e with
      | invalidSessionError message => exact ⟨hrested, fun _ => hmarks _ rfl⟩
      | _ => exact ⟨hrested, fun _ => hmarks _ rfl⟩
    · exact ⟨hrested, fun hne => absurd rfl (hne result)⟩

end Authenticated

/-! ### What the worker leaves of a task -/

/-- The task is the same but for its mark. -/
structure TaskModel.Keeps (old new : TaskModel) : Prop where
  owner : new.userId = old.userId
  title : new.title = old.title
  description : new.description = old.description
  completed : new.isCompleted = old.isCompleted
  created : new.createdAt = old.createdAt
  marked : old.backgroundProcessedAt.isSome → new.backgroundProcessedAt.isSome

theorem TaskModel.Keeps.refl (row : TaskModel) : row.Keeps row := ⟨rfl, rfl, rfl, rfl, rfl, id⟩

theorem TaskModel.Keeps.trans {row₁ row₂ row₃ : TaskModel} (h : row₁.Keeps row₂)
    (h' : row₂.Keeps row₃) : row₁.Keeps row₃ where
  owner := h'.owner.trans h.owner
  title := h'.title.trans h.title
  description := h'.description.trans h.description
  completed := h'.completed.trans h.completed
  created := h'.created.trans h.created
  marked := fun hold => h'.marked (h.marked hold)

theorem TaskModel.Keeps.of_marked (stamp : Instant) (row : TaskModel) :
    row.Keeps (row.marked stamp) :=
  ⟨rfl, rfl, rfl, rfl, rfl, fun _ => rfl⟩

/-- The tasks beside one are the same but for their marks. -/
def OnlyTask (id : ℕ) (s s' : DbSession) : Prop :=
  ∀ id', id' ≠ id → Option.Rel TaskModel.Keeps (s.rows (.task id')) (s'.rows (.task id'))

section Tasks

variable {s s₁ s₂ s₃ : DbSession} {id : ℕ}

theorem rel_keeps_refl (row : Option TaskModel) : Option.Rel TaskModel.Keeps row row := by
  cases row with
  | none => exact .none
  | some row => exact .some (.refl row)

theorem rel_keeps_trans {a b c : Option TaskModel} (h : Option.Rel TaskModel.Keeps a b)
    (h' : Option.Rel TaskModel.Keeps b c) : Option.Rel TaskModel.Keeps a c := by
  cases h with
  | none => exact h'
  | some hab =>
    cases h' with
    | some hbc => exact .some (hab.trans hbc)

theorem Marked.tasks (h : Marked s₁ s₂) (id : ℕ) :
    Option.Rel TaskModel.Keeps (s₁.rows (.task id)) (s₂.rows (.task id)) := by
  rcases h.rows (.task id) with ⟨hsame, -⟩ | ⟨hold, hnew, row, stamp, hrow, -, hrow'⟩
  · rw [hsame]
    exact rel_keeps_refl _
  · rw [hold, hnew, hrow, hrow']
    exact .some (.of_marked stamp row)

/-- A task that is not there does not appear. -/
theorem Marked.no_task (h : Marked s₁ s₂) (hrow : s₁.rows (.task id) = none) :
    s₂.rows (.task id) = none := by
  have htasks := h.tasks id
  rw [hrow] at htasks
  generalize s₂.rows (.task id) = v at htasks ⊢
  cases htasks
  rfl

theorem Marked.nextval (h : Marked s₁ s₂) (q : Sequence) :
    Marked s₁ (s₂.next (.nextval q : Command)) where
  rows := h.rows
  seq := fun q' => (h.seq q').trans (next_seq_le s₂ (.nextval q) q')

/-- A task that is there stays. -/
theorem Marked.task (h : Marked s₁ s₂) {row : TaskModel} (hrow : s₁.rows (.task id) = some row) :
    ∃ row', s₂.rows (.task id) = some row' ∧ row.Keeps row' := by
  have htasks := h.tasks id
  rw [hrow] at htasks
  generalize s₂.rows (.task id) = v at htasks
  cases htasks with
  | some hkeeps => exact ⟨_, rfl, hkeeps⟩

/-- No task changes its place. -/
theorem Marked.places (h : Marked s₁ s₂) (id : ℕ) :
    (s₂.rows (.task id)).map TaskModel.place = (s₁.rows (.task id)).map TaskModel.place := by
  have htasks := h.tasks id
  generalize s₁.rows (.task id) = v₁ at htasks ⊢
  generalize s₂.rows (.task id) = v₂ at htasks ⊢
  cases htasks with
  | none => rfl
  | some hkeeps => exact congrArg some (Prod.ext hkeeps.owner hkeeps.created)

theorem Marked.onlyTask (h : Marked s₁ s₂) : OnlyTask id s₁ s₂ := fun id' _ => h.tasks id'

theorem OnlyTask.trans (h : OnlyTask id s₁ s₂) (h' : OnlyTask id s₂ s₃) : OnlyTask id s₁ s₃ :=
  fun id' hne => rel_keeps_trans (h id' hne) (h' id' hne)

theorem OnlyTask.put (s : DbSession) (id : ℕ) (v : Option TaskModel) :
    OnlyTask id s (s.put (.task id) v) := by
  intro id' hne
  rw [Session.put_rows_of_ne _ (by simpa using hne)]
  exact rel_keeps_refl _

/-- The session has written one task, and no other. -/
structure WritesRow (id : ℕ) (v : Option TaskModel) (s s' : DbSession) : Prop where
  others : OnlyTask id s s'
  row : s'.rows (.task id) = v
  written : s'.committed (.task id) ≠ v

theorem WritesRow.marked {v : Option TaskModel} (h : WritesRow id v s₁ s₂)
    (hmarked : Marked s₂ s₃) :
    WritesRow id v s₁ s₃ := by
  obtain ⟨hrow, hcommitted⟩ := hmarked.written (k := .task id) (by rw [h.row]; exact h.written)
  refine ⟨h.others.trans hmarked.onlyTask, hrow.trans h.row, ?_⟩
  rw [hcommitted]
  exact h.written

theorem WritesRow.of_put {v : Option TaskModel} (h : Marked s₁ s₂)
    (hne : s₂.committed (.task id) ≠ v) : WritesRow id v s₁ (s₂.put (.task id) v) :=
  ⟨h.onlyTask.trans (.put _ _ _), Session.put_rows_self _ _ _, hne⟩

/-- A message beside it changes nothing of that. -/
theorem WritesRow.message {v : Option TaskModel} (h : WritesRow id v s₁ s₂) (messageId : Uuid)
    (model : OutboxMessageModel) :
    WritesRow id v s₁ (s₂.next (.insert (.message messageId) model : Command)) := by
  have htasks : ∀ id', (s₂.next (.insert (.message messageId) model : Command)).rows (.task id') =
      s₂.rows (.task id') := by
    intro id'
    rw [Session.next]
    split
    · exact Session.put_rows_of_ne _ (by simp) _
    · rfl
  refine ⟨fun id' hne => ?_, (htasks id).trans h.row, ?_⟩
  · rw [htasks]
    exact h.others id' hne
  · rw [next_committed _ _ rfl]
    exact h.written

end Tasks

/-! ### The operations -/

/-- The result is of the task, but its mark may be newer. -/
structure TaskModel.Answers (id : ℕ) (row : TaskModel) (result : TaskResult) : Prop where
  id : result.id = id
  title : result.title = row.title
  description : result.description = row.description
  completed : result.isCompleted = row.isCompleted
  marked : result.backgroundProcessedAt.isSome → row.backgroundProcessedAt.isSome

theorem TaskModel.answers_result (id : ℕ) (row : TaskModel) : row.Answers id (row.result id) :=
  ⟨rfl, rfl, rfl, rfl, fun h => h⟩

theorem TaskModel.Answers.keeps {id : ℕ} {row row' : TaskModel} {result : TaskResult}
    (h : row.Answers id result) (hkeeps : row.Keeps row') : row'.Answers id result where
  id := h.id
  title := h.title.trans hkeeps.title.symm
  description := h.description.trans hkeeps.description.symm
  completed := h.completed.trans hkeeps.completed.symm
  marked := fun hresult => hkeeps.marked (h.marked hresult)

section Operations

variable {isHash : String → String → Bool} {lo hi : Instant} {s : DbSession} {userId taskId : ℕ}
  {row : TaskModel}

/-- The task is found by its owner. -/
theorem ensures_ownedQuery {raised : Exn → Prop} (hraised : ∀ e, e.unhandled → raised e)
    (hrow : s.rows (.task taskId) = some row) (howner : row.userId = userId)
    {K : Option TaskModel → DbSession → Prop}
    (h : ∀ s₁ row₁, Marked s s₁ → s₁.rows (.task taskId) = some row₁ → row.Keeps row₁ →
      K (some row₁) s₁) :
    (TaskRepository.ownedQuery taskId userId).Ensures (beside isHash lo hi) s
      (Program.Ends raised K) := by
  refine beside_perform hraised fun s₁ v h₁ hv => ?_
  obtain ⟨row₁, hrow₁, hkeeps⟩ := h₁.task hrow
  have hfound : v = some row₁ := by
    rw [show v = (s₁.rows (.task taskId)).filter fun row => row.userId == userId from hv, hrow₁,
      Option.filter_some, if_pos (by rw [hkeeps.owner, howner]; exact beq_self_eq_true _)]
  rw [hfound]
  exact h s₁ row₁ h₁ hrow₁ hkeeps

theorem ensures_getTask (hrow : s.rows (.task taskId) = some row) (howner : row.userId = userId) :
    (getTask userId taskId).Ensures (beside isHash lo hi) s
      (Program.Ends Exn.unhandled fun result s' => Marked s s' ∧
        ∃ row', s'.rows (.task taskId) = some row' ∧ row.Keeps row' ∧
          result = row'.result taskId) := by
  refine Program.Ensures.bind (Program.Ensures.bind
    (ensures_ownedQuery (fun _ h => h) hrow howner ?_))
  intro s₁ row₁ h₁ hrow₁ hkeeps₁
  exact ⟨h₁, row₁, hrow₁, hkeeps₁, rfl⟩

theorem ensures_deleteTask (hrow : s.rows (.task taskId) = some row) (howner : row.userId = userId)
    (hs : s.rows = s.committed) :
    (deleteTask userId taskId).Ensures (beside isHash lo hi) s
      (Program.Ends Exn.unhandled fun _ s' => WritesRow taskId none s s') := by
  refine Program.Ensures.bind (Program.Ensures.bind (beside_perform (fun _ h => h)
    fun s₁ v h₁ hv => ?_))
  obtain ⟨row₁, hrow₁, hkeeps⟩ := h₁.task hrow
  have hfilter : (s₁.rows (.task taskId)).filter (fun row : TaskModel => row.userId == userId) =
      some row₁ := by
    rw [hrow₁, Option.filter_some,
      if_pos (by rw [hkeeps.owner, howner]; exact beq_self_eq_true _)]
  have hfound : v = some row₁ := hv.1.trans hfilter
  rw [Session.next_delete hfilter, hfound]
  refine WritesRow.of_put h₁ ?_
  rw [← h₁.settled hs, hrow₁]
  exact nofun

/-- What a toggle leaves of a task. -/
structure TaskModel.Toggles (old new : TaskModel) : Prop where
  owner : new.userId = old.userId
  title : new.title = old.title
  description : new.description = old.description
  completed : new.isCompleted = !old.isCompleted
  created : new.createdAt = old.createdAt

theorem TaskModel.Toggles.of_keeps {old mid new : TaskModel} (h : mid.Toggles new)
    (hkeeps : old.Keeps mid) : old.Toggles new where
  owner := h.owner.trans hkeeps.owner
  title := h.title.trans hkeeps.title
  description := h.description.trans hkeeps.description
  completed := by rw [h.completed, hkeeps.completed]
  created := h.created.trans hkeeps.created

/-- The attributes a toggle assigns, from its first read `row` and its second, `loaded`. -/
def TaskModel.toggled (row loaded : TaskModel) (stamp : Instant) : TaskModel :=
  { loaded with
    title := row.title
    description := row.description
    isCompleted := !row.isCompleted
    backgroundProcessedAt := row.backgroundProcessedAt
    updatedAt := stamp }

/-- Its flush over the row as it is by then. -/
theorem toggles_merge {loaded current : TaskModel} (taskId : ℕ) (stamp : Instant)
    (hloaded : row.Keeps loaded) (hcurrent : loaded.Keeps current) :
    row.Toggles (TaskModel.merge loaded (row.toggled loaded stamp) current) ∧
      (TaskModel.merge loaded (row.toggled loaded stamp) current).Answers taskId
        ((row.toggled loaded stamp).result taskId) := by
  have hkeeps := hloaded.trans hcurrent
  have htitle : column loaded.title row.title current.title = row.title := by
    rw [column, if_pos hloaded.title.symm, hkeeps.title]
  have hdescription : column loaded.description row.description current.description =
      row.description := by
    rw [column, if_pos hloaded.description.symm, hkeeps.description]
  have hcompleted : column loaded.isCompleted (!row.isCompleted) current.isCompleted =
      !row.isCompleted := by
    rw [column, if_neg]
    rw [hloaded.completed]
    exact fun h => absurd h (by cases row.isCompleted <;> decide)
  refine ⟨⟨hkeeps.owner, htitle, hdescription, hcompleted, hkeeps.created⟩,
    ⟨rfl, htitle.symm, hdescription.symm, hcompleted.symm, fun hmarked => ?_⟩⟩
  show (column loaded.backgroundProcessedAt row.backgroundProcessedAt
    current.backgroundProcessedAt).isSome
  rw [column]
  split
  · exact hkeeps.marked hmarked
  · exact hmarked

theorem ensures_flush {loaded : TaskModel} {t : Instant}
    (hloaded : s.rows (.task taskId) = some loaded)
    (hcompleted : loaded.isCompleted = row.isCompleted) :
    (TaskModel.flush taskId loaded (row.toggled loaded t)).Ensures (beside isHash lo hi) s
      (Program.Ends Exn.unhandled fun model s' => ∃ stamp s₁ current, Marked s s₁ ∧
        s₁.rows (.task taskId) = some current ∧ loaded.Keeps current ∧
        model = row.toggled loaded stamp ∧
        s' = s₁.put (.task taskId) (some (loaded.merge (row.toggled loaded stamp) current))) := by
  -- the worker may mark the row before the UPDATE, which keeps the mark
  have hwrite : ∀ stamp s₀ loaded₀, Marked s s₀ → s₀.rows (.task taskId) = some loaded₀ →
      loaded.Keeps loaded₀ →
      (TaskModel.write taskId loaded (row.toggled loaded t) stamp).Ensures (beside isHash lo hi) s₀
        (Program.Ends Exn.unhandled fun model s' => ∃ stamp s₁ current, Marked s s₁ ∧
          s₁.rows (.task taskId) = some current ∧ loaded.Keeps current ∧
          model = row.toggled loaded stamp ∧
          s' = s₁.put (.task taskId) (some (loaded.merge (row.toggled loaded stamp) current))) := by
    intro stamp s₀ loaded₀ h₀ hloaded₀ hkeeps₀
    refine Program.Ensures.bind (beside_perform (fun _ h => h) fun s₁ v h₁ hv => ?_)
    obtain ⟨current, hcurrent, hkeeps⟩ := h₁.task hloaded₀
    have hfilter : (s₁.rows (.task taskId)).filter (fun _ : TaskModel => true) = some current := by
      rw [hcurrent, Option.filter_some, if_pos rfl]
    rw [Session.next_update hfilter, hv.1, hfilter]
    exact ⟨stamp, s₁, current, h₀.trans h₁, hcurrent, hkeeps₀.trans hkeeps, rfl, rfl⟩
  -- a toggle changes the row, so the session does send an UPDATE
  have hne : row.toggled loaded t ≠ loaded := by
    intro heq
    have hsame : (!row.isCompleted) = loaded.isCompleted := congrArg (·.isCompleted) heq
    rw [hcompleted] at hsame
    cases hrow : row.isCompleted <;> simp [hrow] at hsame
  rw [TaskModel.flush_eq, if_neg hne]
  split
  · refine Program.Ensures.bind (beside_perform (fun _ h => h) fun s₀ stamp h₀ _ => ?_)
    obtain ⟨loaded₀, hloaded₀, hkeeps₀⟩ := h₀.task hloaded
    exact hwrite stamp s₀ loaded₀ h₀ hloaded₀ hkeeps₀
  · exact hwrite _ s loaded (.refl s) hloaded (.refl loaded)

theorem ensures_toggleTask (hrow : s.rows (.task taskId) = some row) (howner : row.userId = userId)
    (hs : s.rows = s.committed) :
    (toggleTask userId taskId).Ensures (beside isHash lo hi) s
      (Program.Ends Exn.unhandled fun result s' => ∃ new, WritesRow taskId (some new) s s' ∧
        row.Toggles new ∧ new.Answers taskId result) := by
  refine Program.Ensures.bind (Program.Ensures.bind
    (ensures_ownedQuery (fun _ h => h) hrow howner ?_))
  intro s₁ row₁ h₁ hrow₁ hkeeps₁
  refine Program.Ensures.bind (beside_perform (fun _ h => h) fun s₂ t h₂ ht => ?_)
  obtain ⟨row₂, hrow₂, hkeeps₂⟩ := h₂.task hrow₁
  refine Program.Ensures.bind (Program.Ensures.bind
    (ensures_ownedQuery (fun _ h => h) hrow₂ hkeeps₂.owner ?_))
  intro s₃ loaded h₃ hloaded hkeeps₃
  have hkeeps : row₁.Keeps loaded := hkeeps₂.trans hkeeps₃
  refine Program.Ensures.bind ((ensures_flush hloaded hkeeps.completed).mono ?_)
  rintro (e | model) s' h'
  · exact h'
  obtain ⟨stamp, s₄, current, h₄, hcurrent, hkeeps₄, rfl, rfl⟩ := h'
  have hmarked : Marked s s₄ := ((h₁.trans h₂).trans h₃).trans h₄
  obtain ⟨htoggles, hanswers⟩ := toggles_merge taskId stamp hkeeps hkeeps₄
  refine ⟨_, WritesRow.of_put hmarked ?_, htoggles.of_keeps hkeeps₁, hanswers⟩
  rw [← hmarked.settled hs, hcurrent]
  intro heq
  have hsame : (TaskModel.merge loaded (row₁.toggled loaded stamp) current).isCompleted =
      row₁.isCompleted := by
    rw [← Option.some_inj.mp heq]
    exact (hkeeps.trans hkeeps₄).completed
  rw [htoggles.completed] at hsame
  cases hrow₁ : row₁.isCompleted <;> simp [hrow₁] at hsame

/-- Every task has a number the sequence has passed. -/
def Numbered (s : DbSession) : Prop :=
  ∀ taskId row, s.rows (.task taskId) = some row → taskId < s.seq .tasks

theorem Numbered.marked {s' : DbSession} (h : Numbered s) (hmarked : Marked s s') :
    Numbered s' := by
  intro taskId row' hrow'
  rcases hrow : s.rows (.task taskId) with _ | row
  · cases hrow'.symm.trans (hmarked.no_task hrow)
  · exact (h taskId row hrow).trans_le (hmarked.seq .tasks)

theorem ensures_createTask {title title' : String} {description description' : Option String}
    (htitle : normalizeTitle title = .ok title')
    (hdescription : normalizeDescription description = .ok description') (hs : s.rows = s.committed)
    (hnumbered : Numbered s) :
    (createTask userId title description).Ensures (beside isHash lo hi) s
      (Program.Ends Exn.unhandled fun created s' => ∃ taskId new,
        WritesRow taskId (some new) s s' ∧ s.seq .tasks ≤ taskId ∧ taskId < s'.seq .tasks ∧
        new.userId = userId ∧ lo ≤ new.createdAt ∧ new.createdAt ≤ hi ∧
        new.Answers taskId created.task) := by
  refine Program.Ensures.bind (beside_perform (fun _ h => h) fun s₁ t h₁ ht => ?_)
  replace ht : lo ≤ t ∧ t ≤ hi := ht
  simp only [htitle, hdescription, liftExcept, Program.bind_eq, Program.ret_bind]
  refine Program.Ensures.bind (Program.Ensures.bind (beside_perform (fun _ h => h)
    fun s₂ taskId h₂ htaskId => ?_))
  replace htaskId : taskId = s₂.seq .tasks := htaskId
  have hmarked₂ : Marked s (s₂.next (.nextval .tasks : Command)) := (h₁.trans h₂).nextval .tasks
  have hlt : taskId < (s₂.next (.nextval .tasks : Command)).seq .tasks := by
    rw [htaskId]
    simp [Session.next]
  refine Program.Ensures.bind (beside_perform (fun _ h => h) fun s₃ inserted h₃ hinserted => ?_)
  have hmarked : Marked s s₃ := hmarked₂.trans h₃
  have hle : s.seq .tasks ≤ taskId := by
    rw [htaskId]
    exact (h₁.trans h₂).seq .tasks
  -- no task has this number yet
  have hfree : s₃.rows (.task taskId) = none := by
    refine hmarked.no_task ?_
    by_contra hne
    obtain ⟨row, hrow⟩ := Option.ne_none_iff_exists'.mp hne
    exact absurd (hnumbered taskId row hrow) (by omega)
  have htrue : inserted = true := by
    rw [show inserted = (s₃.rows (.task taskId)).isNone from hinserted.1, hfree]
    rfl
  rw [Session.next_insert hfree, htrue]
  have hseq : taskId < s₃.seq .tasks := hlt.trans_le (h₃.seq .tasks)
  have hne : ∀ new : TaskModel, s₃.committed (.task taskId) ≠ some new := by
    intro new
    rw [← hmarked.settled hs, hfree]
    exact (Option.some_ne_none new).symm
  show Program.Ensures _ (Program.bind (call .uuid4) _)
    (s₃.put (.task taskId) (some (⟨userId, title', description', false, none, t, t⟩ : TaskModel))) _
  refine Program.Ensures.bind (beside_perform (fun _ h => h) fun s₄ outboxId h₄ _ => ?_)
  refine Program.Ensures.bind (Program.Ensures.bind (beside_perform (fun _ h => h)
    fun s₅ inserted h₅ _ => ?_))
  have hwrites := ((WritesRow.of_put hmarked (hne _)).marked h₄).marked h₅
  have hseq₅ : taskId < s₅.seq .tasks := (hseq.trans_le (h₄.seq .tasks)).trans_le (h₅.seq .tasks)
  cases inserted with
  | false => trivial
  | true =>
    refine ⟨taskId, _, hwrites.message _ _, hle, hseq₅.trans_le (next_seq_le _ _ _), rfl, ht.1,
      ht.2, ?_⟩
    exact TaskModel.answers_result _ _

theorem mapM_ok {α β : Type} {f : α → Except Exn β} {g : α → β} :
    ∀ {l : List α}, (∀ a ∈ l, f a = .ok (g a)) → l.mapM f = .ok (l.map g)
  | [], _ => rfl
  | a :: l, h => by
    rw [List.mapM_cons, h a List.mem_cons_self, mapM_ok fun b hb => h b (List.mem_cons_of_mem _ hb)]
    rfl

theorem ensures_listTasks :
    (listTasks userId).Ensures (beside isHash lo hi) s
      (Program.Ends Exn.unhandled fun results s' => Marked s s' ∧ ∃ tasks : List (ℕ × TaskModel),
        (∀ task ∈ tasks, s'.rows (.task task.1) = some task.2) ∧
        Listed s'.rows userId (tasks.map Prod.fst) ∧
        results = tasks.map fun task => task.2.result task.1) := by
  refine Program.Ensures.bind (Program.Ensures.bind (beside_perform (fun _ h => h)
    fun s₁ rows h₁ hrows => ?_))
  obtain ⟨l, hl, rfl⟩ : ∃ l, s₁.Enumerates (TaskRepository.ownedBy userId) l ∧
    rows = l.insertionSort fun a b => TaskRepository.newestFirst a b = true := hrows
  have hresults : (TaskRepository.tasks
      (l.insertionSort fun a b => TaskRepository.newestFirst a b = true)).mapM taskResult =
      .ok ((listedTasks (l.insertionSort fun a b => TaskRepository.newestFirst a b = true)).map
        fun task => task.2.result task.1) := by
    rw [tasks_eq, List.mapM_map]
    exact mapM_ok fun task _ => rfl
  show Program.Ensures _ (liftExcept ((TaskRepository.tasks _).mapM taskResult)) _ _
  rw [hresults]
  exact ⟨h₁, _, fun task hmem => ((mem_listedTasks hl task).mp hmem).1, listed_scan hl, rfl⟩

/-- A task that is found is not missed. -/
theorem ensures_onTask {α : Type} {operation : ℕ → Tx α} {K : α → DbSession → Prop}
    (h : (operation taskId).Ensures (beside isHash lo hi) s (Program.Ends Exn.unhandled K)) :
    (onTask (some taskId) operation).Ensures (beside isHash lo hi) s
      (Program.Ends Exn.unhandled fun o s' => ∃ a, o = some a ∧ K a s') := by
  refine Program.ensures_handle.mpr (Program.ensures_bind.mpr (h.mono fun r s' hr => ?_))
  cases r with
  | ok a => exact ⟨a, rfl, hr⟩
  | error e => cases e <;> first | exact hr.elim | exact hr

end Operations

/-! Their statements. -/

section Statements

variable {userId taskId : ℕ}

theorem issues_ownedQuery : (TaskRepository.ownedQuery taskId userId).Issues PageCommand :=
  Program.Issues.perform trivial

theorem issues_getTask : (getTask userId taskId).Issues PageCommand := by
  refine (issues_ownedQuery.bind fun _ => .ret _).bind fun task => ?_
  cases task with
  | none => exact .raise _
  | some task => exact issues_liftExcept _

theorem issues_deleteTask : (deleteTask userId taskId).Issues PageCommand := by
  refine ((Program.Issues.perform trivial).bind fun _ => .ret _).bind fun deleted => ?_
  split
  · exact .raise _
  · exact .ret _

theorem issues_flush {loaded assigned : TaskModel} :
    (TaskModel.flush taskId loaded assigned).Issues PageCommand := by
  have hwrite : ∀ stamp, (TaskModel.write taskId loaded assigned stamp).Issues PageCommand := by
    intro stamp
    refine (Program.Issues.perform trivial).bind fun updated => ?_
    cases updated with
    | none => exact .raise _
    | some row => exact .ret _
  rw [TaskModel.flush_eq]
  split
  · exact .ret _
  · split
    · exact (Program.Issues.perform trivial).bind hwrite
    · exact hwrite _

theorem issues_toggleTask : (toggleTask userId taskId).Issues PageCommand := by
  refine (issues_ownedQuery.bind fun _ => .ret _).bind fun task => ?_
  cases task with
  | none => exact .raise _
  | some task =>
    refine (Program.Issues.perform trivial).bind fun now => Program.Issues.bind ?_ fun updated =>
      issues_liftExcept _
    rw [TaskRepository.update]
    split
    · exact .raise _
    · refine issues_ownedQuery.bind fun loaded => ?_
      cases loaded with
      | none => exact .raise _
      | some loaded => exact issues_flush.bind fun model => .ret _

theorem issues_createTask {title : String} {description : Option String} :
    (createTask userId title description).Issues PageCommand := by
  refine (Program.Issues.perform trivial).bind fun now => ?_
  rcases normalizeTitle title with e | title
  · exact .raise _
  rcases normalizeDescription description with e | description
  · exact .raise _
  simp only [liftExcept, Program.bind_eq, Program.ret_bind]
  refine Program.Issues.bind ?_ fun task =>
    (issues_liftExcept (taskResult task)).bind fun result => ?_
  · refine (Program.Issues.perform trivial).bind fun taskId =>
      (Program.Issues.perform trivial).bind fun inserted => ?_
    dsimp only
    split
    · exact .raise _
    · exact .ret _
  · refine (Program.Issues.perform trivial).bind fun outboxId =>
      Program.Issues.bind ?_ fun _ => .ret _
    refine (Program.Issues.perform trivial).bind fun inserted => ?_
    dsimp only
    split
    · exact .raise _
    · exact .ret _

theorem issues_listTasks : (listTasks userId).Issues PageCommand := by
  have hlist : (TaskRepository.listOwned userId).Issues PageCommand :=
    (Program.Issues.perform trivial).bind fun rows => .ret _
  exact hlist.bind fun tasks => issues_liftExcept (tasks.mapM taskResult)

theorem issues_onTask {α : Type} {id : Option ℕ} {operation : ℕ → Tx α}
    (h : ∀ id, (operation id).Issues PageCommand) : (onTask id operation).Issues PageCommand := by
  cases id with
  | none => exact .ret _
  | some id =>
    refine ((h id).bind fun _ => .ret _).handle fun e => ?_
    cases e <;> first | exact .ret _ | exact .raise _

end Statements

/-! ### The handlers -/

/-- The view is of the task, but the task's mark may be newer. -/
structure TaskModel.ShownBy (codec : SqidsPublicIdCodec) (id : ℕ) (row : TaskModel)
    (view : TaskView) : Prop where
  publicId : codec.encode id = .ok view.publicId
  title : view.title = row.title
  description : view.description = row.description
  completed : view.isCompleted = row.isCompleted
  marked : view.backgroundProcessedAt.isSome → row.backgroundProcessedAt.isSome

/-- A view is made of a result whose id can be encoded. -/
theorem taskView_ok {codec : SqidsPublicIdCodec} {id : ℕ} {row : TaskModel} {result : TaskResult}
    (h : row.Answers id result) {publicId : String} (hencode : codec.encode id = .ok publicId) :
    ∃ view, taskView codec result = .ok view ∧ row.ShownBy codec id view ∧
      view.backgroundProcessedAt = result.backgroundProcessedAt := by
  have hid := h.id
  subst hid
  refine ⟨⟨publicId, result.title, result.description, result.isCompleted,
    result.backgroundProcessedAt, result.createdAt⟩, ?_, ?_, rfl⟩
  · rw [taskView, hencode]
    rfl
  · exact ⟨hencode, h.title, h.description, h.completed, h.marked⟩

section Handlers

variable {isHash : String → String → Bool} {lo hi : Instant} {s : DbSession}
  {claims : SessionClaims} {request : WebRequest} {uni : Unicode} {codec : SqidsPublicIdCodec}

/-- A handler whose session is valid answers what its operation has committed. -/
theorem ensures_page {α : Type} {operation : CurrentUser → Tx α}
    {answer : Option (CurrentUser × α) → Tx WebResponse} {K : α → DbSession → Prop}
    {Q : Except Exn WebResponse → DbSession → Prop} (hrequest : request.session = some claims)
    (hs : s.rows = s.committed) (hvalid : ¬ Rejects claims hi s)
    (hissues : ∀ user, (operation user).Issues PageCommand)
    (hop : ∀ user s₁, user.id = claims.userId → Marked s s₁ →
      (operation user).Ensures (beside isHash lo hi) s₁ (Program.Ends Exn.unhandled fun a s₂ =>
        ∀ s₃, Marked s₂ s₃ → K a { s₃ with committed := s₃.rows }))
    (hanswer : ∀ user a s', Rested s s' → K a s' →
      (answer (some (user, a))).Ensures (beside isHash lo hi) s' Q)
    (herror : ∀ e s', Rested s s' → Marked s s' → Q (.error e) s') :
    ((runTaskPage request operation).bind answer).Ensures (beside isHash lo hi) s Q := by
  refine Program.ensures_bind.mpr (((ensures_runTaskPage hrequest hop).and
    (ensures_runTaskPage_rested hrequest hs hissues)).mono ?_)
  rintro (e | r) s' ⟨hr, hrested, hmarked⟩
  · exact herror e s' hrested (hmarked fun _ h => by cases h)
  · obtain ⟨-, hrejects⟩ | ⟨user, a, rfl, -, hK⟩ := hr
    · exact absurd hrejects hvalid
    · exact hanswer user a s' hrested hK

/-- The task of the path. -/
structure Names (codec : SqidsPublicIdCodec) (s : DbSession) (userId : ℕ) (publicId : String)
    (id : ℕ) (row : TaskModel) : Prop where
  decode : codec.decode publicId = .ok (some id)
  encode : codec.encode id = .ok publicId
  stored : s.rows (.task id) = some row
  owner : row.userId = userId

variable {publicId : String} {id : ℕ} {row : TaskModel}

/-- **A status poll** changes nothing, and shows a mark that was there when it was sent. -/
theorem ensures_taskStatus (hrequest : request.session = some claims) (hs : s.rows = s.committed)
    (hvalid : ¬ Rejects claims hi s) (hnames : Names codec s claims.userId publicId id row) :
    (taskStatus codec request publicId).Ensures (beside isHash lo hi) s fun r s' =>
      Rested s s' ∧ Marked s s' ∧ ∀ response, r = .ok response → ∃ user view row',
        response = taskPage "tasks/status.html" user view ∧ s'.rows (.task id) = some row' ∧
        row'.ShownBy codec id view ∧
        (row.backgroundProcessedAt.isSome → view.backgroundProcessedAt.isSome) := by
  unfold taskStatus
  rw [hnames.decode]
  refine ensures_page (K := fun o s' => ∃ result, o = some result ∧ Marked s s' ∧ ∃ row',
    s'.rows (.task id) = some row' ∧ row'.Answers id result ∧
      (row.backgroundProcessedAt.isSome → result.backgroundProcessedAt.isSome))
    hrequest hs hvalid (fun user => issues_onTask fun _ => issues_getTask) ?_ ?_ ?_
  -- the row may be marked at any point; what was marked stays so
  · intro user s₁ huser h₁
    obtain ⟨row₁, hrow₁, hkeeps₁⟩ := h₁.task hnames.stored
    have howner : row₁.userId = user.id := by rw [hkeeps₁.owner, hnames.owner, huser]
    refine (ensures_onTask (ensures_getTask hrow₁ howner)).mono fun r s₂ hr => hr.mono ?_
    rintro _ ⟨result, rfl, h₂, row₂, hrow₂, hkeeps₂, rfl⟩ s₃ h₃
    obtain ⟨row₃, hrow₃, hkeeps₃⟩ := h₃.task hrow₂
    refine ⟨_, rfl, ((h₁.trans h₂).trans h₃).commit hs, row₃, hrow₃,
      (row₂.answers_result id).keeps hkeeps₃, (hkeeps₁.trans hkeeps₂).marked⟩
  · rintro user _ s' hrested ⟨result, rfl, hmarked, row', hrow', hanswers, hmark⟩
    obtain ⟨view, hview, hshown, hsame⟩ := taskView_ok hanswers hnames.encode
    dsimp only
    rw [hview]
    refine ⟨hrested, hmarked, ?_⟩
    rintro _ ⟨⟩
    rw [← hsame] at hmark
    exact ⟨user, view, row', rfl, hrow', hshown, hmark⟩
  · exact fun e s' hrested hmarked => ⟨hrested, hmarked, fun _ h => by cases h⟩

/-- What a request leaves that has written one task. -/
structure Replaces (id : ℕ) (v : Option TaskModel) (s s' : DbSession) : Prop where
  others : OnlyTask id s s'
  row : s'.rows (.task id) = v

theorem WritesRow.commit {v : Option TaskModel} {s₁ s₂ s₃ : DbSession} (h₁ : Marked s s₁)
    (h₂ : WritesRow id v s₁ s₂) (h₃ : Marked s₂ s₃) :
    Replaces id v s { s₃ with committed := s₃.rows } :=
  ⟨h₁.onlyTask.trans (h₂.marked h₃).others, (h₂.marked h₃).row⟩

/-- **A toggle** answers the row it has written. -/
theorem ensures_toggleTaskAction (hrequest : request.session = some claims)
    (hhtmx : isHtmx uni request = true) (hs : s.rows = s.committed) (hvalid : ¬ Rejects claims hi s)
    (hnames : Names codec s claims.userId publicId id row) :
    (toggleTaskAction uni codec request publicId).Ensures (beside isHash lo hi) s fun r s' =>
      Rested s s' ∧ (∀ e, r = .error e → Marked s s') ∧
      ∀ response, r = .ok response → ∃ user view new,
        response = taskPage "tasks/row.html" user view ∧ Replaces id (some new) s s' ∧
        row.Toggles new ∧ new.ShownBy codec id view := by
  unfold toggleTaskAction
  rw [hnames.decode]
  refine ensures_page (K := fun o s' => ∃ result, o = some result ∧ ∃ new,
    Replaces id (some new) s s' ∧ row.Toggles new ∧ new.Answers id result)
    hrequest hs hvalid (fun user => issues_onTask fun _ => issues_toggleTask) ?_ ?_ ?_
  · intro user s₁ huser h₁
    obtain ⟨row₁, hrow₁, hkeeps₁⟩ := h₁.task hnames.stored
    have howner : row₁.userId = user.id := by rw [hkeeps₁.owner, hnames.owner, huser]
    refine (ensures_onTask (ensures_toggleTask hrow₁ howner (h₁.settled hs))).mono
      fun r s₂ hr => hr.mono ?_
    rintro _ ⟨result, rfl, new, hwrites, htoggles, hanswers⟩ s₃ h₃
    exact ⟨result, rfl, new, hwrites.commit h₁ h₃, htoggles.of_keeps hkeeps₁, hanswers⟩
  · rintro user _ s' hrested ⟨result, rfl, new, hreplaces, htoggles, hanswers⟩
    obtain ⟨view, hview, hshown, -⟩ := taskView_ok hanswers hnames.encode
    dsimp only
    rw [if_pos hhtmx, hview]
    refine ⟨hrested, (fun _ h => by cases h), ?_⟩
    rintro _ ⟨⟩
    exact ⟨user, view, new, rfl, hreplaces, htoggles, hshown⟩
  · exact fun e s' hrested hmarked => ⟨hrested, fun _ _ => hmarked, fun _ h => by cases h⟩

/-- **A deletion** answers nothing. -/
theorem ensures_deleteTaskAction (hrequest : request.session = some claims)
    (hhtmx : isHtmx uni request = true) (hs : s.rows = s.committed) (hvalid : ¬ Rejects claims hi s)
    (hnames : Names codec s claims.userId publicId id row) :
    (deleteTaskAction uni codec request publicId).Ensures (beside isHash lo hi) s fun r s' =>
      Rested s s' ∧ (∀ e, r = .error e → Marked s s') ∧
      ∀ response, r = .ok response →
        response = .response "" "text/html" 200 ∧ Replaces id none s s' := by
  unfold deleteTaskAction
  rw [hnames.decode]
  refine ensures_page (K := fun o s' => o = some () ∧ Replaces id none s s')
    hrequest hs hvalid (fun user => issues_onTask fun _ => issues_deleteTask) ?_ ?_ ?_
  · intro user s₁ huser h₁
    obtain ⟨row₁, hrow₁, hkeeps₁⟩ := h₁.task hnames.stored
    have howner : row₁.userId = user.id := by rw [hkeeps₁.owner, hnames.owner, huser]
    refine (ensures_onTask (ensures_deleteTask hrow₁ howner (h₁.settled hs))).mono
      fun r s₂ hr => hr.mono ?_
    rintro _ ⟨_, rfl, hwrites⟩ s₃ h₃
    exact ⟨rfl, hwrites.commit h₁ h₃⟩
  · rintro user _ s' hrested ⟨rfl, hreplaces⟩
    dsimp only
    rw [if_pos hhtmx]
    refine ⟨hrested, (fun _ h => by cases h), ?_⟩
    rintro _ ⟨⟩
    exact ⟨rfl, hreplaces⟩
  · exact fun e s' hrested hmarked => ⟨hrested, fun _ _ => hmarked, fun _ h => by cases h⟩

/-- No text encodes the id. -/
def Unencodable (codec : SqidsPublicIdCodec) (id : ℕ) : Prop :=
  ∀ publicId, codec.encode id ≠ .ok publicId

/-- **An accepted form** is answered by the task it has created, whose number is new; only
where that cannot be encoded is the task created and an error raised. -/
theorem ensures_createTaskAction (hrequest : request.session = some claims)
    (hhtmx : isHtmx uni request = true) (hs : s.rows = s.committed) (hvalid : ¬ Rejects claims hi s)
    (hnumbered : Numbered s) (haccepted : (taskForm request.form).errors = [])
    {handler : Tx WebResponse} (hhandler : createTaskAction uni codec request = handler) :
    handler.Ensures (beside isHash lo hi) s fun r s' =>
      Rested s s' ∧ (∀ e, r = .error e → Marked s s' ∨
        ∃ id, s.seq .tasks ≤ id ∧ id < s'.seq .tasks ∧ Unencodable codec id) ∧
      ∀ response, r = .ok response → ∃ user view id new,
        response = taskPage "tasks/create_response.html" user view ∧
        Replaces id (some new) s s' ∧ s.seq .tasks ≤ id ∧ id < s'.seq .tasks ∧
        new.userId = claims.userId ∧ lo ≤ new.createdAt ∧ new.createdAt ≤ hi ∧
        new.ShownBy codec id view := by
  subst hhandler
  unfold createTaskAction
  dsimp only
  rw [if_neg (not_not.mpr haccepted)]
  refine ensures_page (K := fun (result : TaskResult) s' => ∃ id new,
    Replaces id (some new) s s' ∧ s.seq .tasks ≤ id ∧ id < s'.seq .tasks ∧
    new.userId = claims.userId ∧ lo ≤ new.createdAt ∧ new.createdAt ≤ hi ∧
    new.Answers id result) hrequest hs hvalid
    (fun user => issues_createTask.bind fun _ => .ret _) ?_ ?_ ?_
  -- the new task is the session's own until the commit, so the worker is no danger to it
  · intro user s₁ huser h₁
    refine Program.Ensures.bind ((ensures_createTask (normalizeTitle_taskForm haccepted)
      (normalizeDescription_orNone haccepted) (h₁.settled hs) (hnumbered.marked h₁)).mono ?_)
    rintro (e | created) s₂ h₂
    · exact h₂
    intro s₃ h₃
    obtain ⟨id, new, hwrites, hle, hlt, howner, hlo, hhi, hanswers⟩ := h₂
    exact ⟨id, new, hwrites.commit h₁ h₃, (h₁.seq _).trans hle, hlt.trans_le (h₃.seq _),
      howner.trans huser, hlo, hhi, hanswers⟩
  · rintro user result s' hrested ⟨id, new, hreplaces, hle, hlt, howner, hlo, hhi, hanswers⟩
    dsimp only
    rw [if_neg (by rw [hhtmx]; exact nofun)]
    -- the task is committed even where its id cannot be encoded
    rcases hencode : codec.encode id with e | publicId
    · have hid := hanswers.id
      subst hid
      have hview : taskView codec result = .error e := by
        rw [taskView, hencode]
        rfl
      rw [hview]
      refine ⟨hrested, fun _ _ => .inr ⟨_, hle, hlt, fun publicId h => ?_⟩, fun _ h => by cases h⟩
      cases hencode.symm.trans h
    · obtain ⟨view, hview, hshown, -⟩ := taskView_ok hanswers hencode
      rw [hview]
      refine ⟨hrested, (fun _ h => by cases h), ?_⟩
      rintro _ ⟨⟩
      exact ⟨user, view, id, new, rfl, hreplaces, hle, hlt, howner, hlo, hhi, hshown⟩
  · exact fun e s' hrested hmarked =>
      ⟨hrested, (fun _ _ => .inl hmarked), fun _ h => by cases h⟩

/-- A refused form is answered by its errors. -/
theorem ensures_createTaskAction_refused (hrequest : request.session = some claims)
    (hhtmx : isHtmx uni request = true) (hs : s.rows = s.committed) (hvalid : ¬ Rejects claims hi s)
    (hrefused : (taskForm request.form).errors ≠ [])
    {handler : Tx WebResponse} (hhandler : createTaskAction uni codec request = handler) :
    handler.Ensures (beside isHash lo hi) s fun r s' =>
      Rested s s' ∧ Marked s s' ∧ ∀ response, r = .ok response → ∃ context,
        response = .template "tasks/create_validation.html" context (some 422) := by
  subst hhandler
  unfold createTaskAction
  dsimp only
  rw [if_pos hrefused, if_pos hhtmx]
  refine ensures_page (K := fun _ s' => Marked s s') hrequest hs hvalid
    (fun user => issues_listTasks) ?_ ?_ ?_
  · intro user s₁ huser h₁
    refine ensures_listTasks.mono fun r s₂ hr => hr.mono ?_
    rintro results ⟨h₂, -⟩ s₃ h₃
    exact ((h₁.trans h₂).trans h₃).commit hs
  · intro user results s' hrested hmarked
    dsimp only
    rcases results.mapM (taskView codec) with e | views
    · exact ⟨hrested, hmarked, fun _ h => by cases h⟩
    · refine ⟨hrested, hmarked, ?_⟩
      rintro _ ⟨⟩
      exact ⟨_, rfl⟩
  · exact fun e s' hrested hmarked => ⟨hrested, hmarked, fun _ h => by cases h⟩

theorem forall₂_trans {α β γ : Type} {R : α → β → Prop} {S : β → γ → Prop} {T : α → γ → Prop}
    (hT : ∀ a b c, R a b → S b c → T a c) {l₁ : List α} {l₂ : List β} {l₃ : List γ}
    (h : List.Forall₂ R l₁ l₂) (h' : List.Forall₂ S l₂ l₃) : List.Forall₂ T l₁ l₃ := by
  induction h generalizing l₃ with
  | nil =>
    cases h'
    exact .nil
  | cons hab _ ih =>
    cases h' with
    | cons hbc hrest => exact .cons (hT _ _ _ hab hbc) (ih hrest)

theorem forall₂_of_mapM {α β : Type} {f : α → Except Exn β} :
    ∀ {l : List α} {l' : List β}, l.mapM f = .ok l' →
      List.Forall₂ (fun a b => f a = .ok b) l l' := by
  intro l
  induction l with
  | nil =>
    rintro l' ⟨⟩
    exact .nil
  | cons a l ih =>
    intro l' h
    rw [List.mapM_cons] at h
    rcases ha : f a with e | b
    · rw [ha] at h
      cases h
    · rcases hl : l.mapM f with e | bs
      · rw [ha, hl] at h
        cases h
      · rw [ha, hl] at h
        cases h
        exact .cons ha (ih hl)

/-- A view is made only of a result whose id is encoded. -/
theorem shownBy_of_taskView {result : TaskResult} {view : TaskView}
    (h : taskView codec result = .ok view) (hanswers : row.Answers id result) :
    row.ShownBy codec id view ∧ view.backgroundProcessedAt = result.backgroundProcessedAt := by
  rcases hencode : codec.encode id with e | publicId
  · have hid := hanswers.id
    subst hid
    rw [taskView, hencode] at h
    cases h
  · obtain ⟨view', hview, hshown⟩ := taskView_ok hanswers hencode
    rw [hview] at h
    cases h
    exact hshown

/-- **The list** is shown to a valid session: the user's tasks, newest first, with the marks
they had when it was asked for. -/
theorem ensures_taskList (hrequest : request.session = some claims) (hs : s.rows = s.committed) :
    (taskList codec request).Ensures (beside isHash lo hi) s fun r s' =>
      Rested s s' ∧ Marked s s' ∧ ∀ response, r = .ok response → response = redirect "/login" ∨
        ¬ Rejects claims lo s ∧ ∃ user views ids,
          response = listPage "tasks/list.html" user views [] none none ∧
          Listed s'.rows claims.userId ids ∧ List.Forall₂ (fun id view => ∃ row',
            s'.rows (.task id) = some row' ∧ row'.ShownBy codec id view ∧
            ∀ row, s.rows (.task id) = some row → row.backgroundProcessedAt.isSome →
              view.backgroundProcessedAt.isSome) ids views := by
  unfold taskList
  refine Program.ensures_bind.mpr (((ensures_runTaskPage
    (K := fun results s' => Marked s s' ∧ ∃ ids, Listed s'.rows claims.userId ids ∧
      List.Forall₂ (fun id result => ∃ row', s'.rows (.task id) = some row' ∧
        row'.Answers id result ∧ ∀ row, s.rows (.task id) = some row →
          row.backgroundProcessedAt.isSome → result.backgroundProcessedAt.isSome) ids results)
    hrequest ?_).and (ensures_runTaskPage_rested hrequest hs fun user => issues_listTasks)).mono ?_)
  -- each task on the list is there at the end, with its mark if it had one
  · intro user s₁ huser h₁
    refine ensures_listTasks.mono fun r s₂ hr => hr.mono ?_
    rintro results ⟨h₂, tasks, htasks, hlisted, rfl⟩ s₃ h₃
    refine ⟨((h₁.trans h₂).trans h₃).commit hs, tasks.map Prod.fst, ?_, ?_⟩
    · rw [← huser]
      exact hlisted.congr h₃.places
    · rw [List.forall₂_map_left_iff, List.forall₂_map_right_iff, List.forall₂_same]
      intro task hmem
      obtain ⟨row₃, hrow₃, hkeeps₃⟩ := h₃.task (htasks task hmem)
      refine ⟨row₃, hrow₃, (task.2.answers_result task.1).keeps hkeeps₃, fun row hrow hmark => ?_⟩
      obtain ⟨row₂, hrow₂, hkeeps₂⟩ := (h₁.trans h₂).task hrow
      rw [Option.some_inj.mp ((htasks task hmem).symm.trans hrow₂)]
      exact hkeeps₂.marked hmark
  rintro (e | r) s' ⟨hr, hrested, hmarked⟩
  · exact ⟨hrested, hmarked (fun _ h => by cases h), fun _ h => by cases h⟩
  obtain ⟨rfl, -⟩ | ⟨user, results, rfl, hvalid, hmarked', ids, hlisted, hresults⟩ := hr
  · refine ⟨hrested, hmarked (fun _ h => by cases h), ?_⟩
    rintro _ ⟨⟩
    exact .inl rfl
  · rw [Program.onOk_ok]
    refine Program.ensures_bind.mpr ?_
    rcases hviews : results.mapM (taskView codec) with e | views
    · exact ⟨hrested, hmarked', fun _ h => by cases h⟩
    · refine ⟨hrested, hmarked', ?_⟩
      rintro _ ⟨⟩
      refine .inr ⟨hvalid, user, views, ids, rfl, hlisted, ?_⟩
      refine forall₂_trans ?_ hresults (forall₂_of_mapM hviews)
      rintro id result view ⟨row', hrow', hanswers, hmark⟩ hview
      obtain ⟨hshown, hsame⟩ := shownBy_of_taskView hview hanswers
      refine ⟨row', hrow', hshown, ?_⟩
      rw [hsame]
      exact hmark

end Handlers

end Lsstack
