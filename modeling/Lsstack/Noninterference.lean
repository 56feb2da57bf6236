/-
Task ownership is a boundary between users.

Two databases that agree on one user, on the tasks that user owns and on the sequence of
task ids answer the user's requests alike: no answer depends on the tasks of others.

* `Agree` — what the user can see of two databases is the same;
* `Twin` — two sessions that agree, and leave the tasks of others as they were;
* `twins_ownedQuery`, `twins_flush`, `twins_add`, … — the rules of the repositories;
* `Confined` — programs that take the same course in twins, with their rules;
* `confined_handler` — every handler of the task pages is one;
* **`noninterference`** — requests of the user, one after another;
* **`hidden_as_missing`** — the task of another is answered as one that is not there.
-/
import Lsstack.PageAgreement
import Lsstack.TwoRuns

namespace Lsstack

open Concurrency

/-! ### What a user can see -/

/-- The user's row, the user's tasks, and which of the drawn message ids are taken. -/
structure Agree (userId : ℕ) (drawn : Uuid → Prop) (rows rows' : Rows) : Prop where
  user : rows (.user userId) = rows' (.user userId)
  owned : ∀ id row, row.userId = userId →
    (rows (.task id) = some row ↔ rows' (.task id) = some row)
  message : ∀ id, drawn id → (rows (.message id)).isNone = (rows' (.message id)).isNone

/-- The rows of other users' tasks are those of `before`. -/
def Unmoved (userId : ℕ) (before rows : Rows) : Prop :=
  ∀ id row, row.userId ≠ userId → (rows (.task id) = some row ↔ before (.task id) = some row)

/-- Every task has an id that the sequence has passed. -/
def Issued (next : ℕ) (rows : Rows) : Prop :=
  ∀ id row, rows (.task id) = some row → id < next

/-- A task that the user owns, or none. -/
def OwnedOrNone (userId : ℕ) (row : Option TaskModel) : Prop :=
  ∀ model, row = some model → model.userId = userId

section Views

variable {userId id : ℕ} {drawn : Uuid → Prop} {before rows rows' : Rows} {next : ℕ}
  {v : Option TaskModel}

/-- Restricted to the user's own, the rows are the same. -/
theorem Agree.filter (h : Agree userId drawn rows rows') (id : ℕ) :
    (rows (.task id)).filter (fun row => row.userId == userId) =
      (rows' (.task id)).filter fun row => row.userId == userId := by
  refine Option.ext fun row => ?_
  rw [Option.filter_eq_some_iff, Option.filter_eq_some_iff, beq_iff_eq]
  exact and_congr_left fun howner => h.owned id row howner

/-- What both write to a task of the user, both see. -/
theorem Agree.task (h : Agree userId drawn rows rows') (hrow : OwnedOrNone userId (rows (.task id)))
    (hrow' : OwnedOrNone userId (rows' (.task id))) :
    Agree userId drawn (Function.update rows (.task id) v)
      (Function.update rows' (.task id) v) where
  user := by
    rw [Function.update_of_ne (by simp), Function.update_of_ne (by simp)]
    exact h.user
  owned := by
    intro id' row howner
    by_cases hid : id' = id
    · subst hid
      rw [Function.update_self, Function.update_self]
    · have hne : Key.task id' ≠ Key.task id := fun heq => hid (Key.task.inj heq)
      rw [Function.update_of_ne hne, Function.update_of_ne hne]
      exact h.owned id' row howner
  message := by
    intro id' hdrawn
    rw [Function.update_of_ne (by simp), Function.update_of_ne (by simp)]
    exact h.message id' hdrawn

/-- A message that both add, both have. -/
theorem Agree.put_message (h : Agree userId drawn rows rows') (messageId : Uuid)
    (model : OutboxMessageModel) :
    Agree userId drawn (Function.update rows (.message messageId) (some model))
      (Function.update rows' (.message messageId) (some model)) where
  user := by
    rw [Function.update_of_ne (by simp), Function.update_of_ne (by simp)]
    exact h.user
  owned := by
    intro id row howner
    rw [Function.update_of_ne (by simp), Function.update_of_ne (by simp)]
    exact h.owned id row howner
  message := by
    intro id hdrawn
    by_cases hid : id = messageId
    · subst hid
      rw [Function.update_self, Function.update_self]
    · have hne : Key.message id ≠ Key.message messageId := fun heq => hid (Key.message.inj heq)
      rw [Function.update_of_ne hne, Function.update_of_ne hne]
      exact h.message id hdrawn

theorem Unmoved.task (h : Unmoved userId before rows)
    (hrow : OwnedOrNone userId (rows (.task id))) (hv : OwnedOrNone userId v) :
    Unmoved userId before (Function.update rows (.task id) v) := by
  intro id' row howner
  by_cases hid : id' = id
  · subst hid
    rw [Function.update_self]
    refine ⟨fun hrow' => absurd (hv row hrow') howner, fun hbefore => ?_⟩
    exact absurd (hrow row ((h id' row howner).mpr hbefore)) howner
  · rw [Function.update_of_ne fun heq => hid (Key.task.inj heq)]
    exact h id' row howner

theorem Issued.task (h : Issued next rows) (hv : ∀ model, v = some model → id < next) :
    Issued next (Function.update rows (.task id) v) := by
  intro id' row hrow
  by_cases hid : id' = id
  · subst hid
    rw [Function.update_self] at hrow
    exact hv row hrow
  · rw [Function.update_of_ne fun heq => hid (Key.task.inj heq)] at hrow
    exact h id' row hrow

end Views

/-! ### Sessions -/

/-- What one session keeps: the tasks of others, and the ids below the sequence.  It waits for
no lock. -/
structure Keeping (userId : ℕ) (before : Rows) (s : DbSession) : Prop where
  rows : Unmoved userId before s.rows
  committed : Unmoved userId before s.committed
  issued : Issued (s.seq .tasks) s.rows
  issuedCommitted : Issued (s.seq .tasks) s.committed
  free : ∀ k, ¬ s.blocked k

/-- Two sessions that agree. -/
structure Twin (userId : ℕ) (drawn : Uuid → Prop) (before before' : Rows)
    (s t : DbSession) : Prop where
  rows : Agree userId drawn s.rows t.rows
  committed : Agree userId drawn s.committed t.committed
  seq : s.seq .tasks = t.seq .tasks
  left : Keeping userId before s
  right : Keeping userId before' t

section Sessions

variable {userId id : ℕ} {drawn : Uuid → Prop} {before before' : Rows} {s t : DbSession}
  {v : Option TaskModel}

theorem Keeping.task (h : Keeping userId before s) (hrow : OwnedOrNone userId (s.rows (.task id)))
    (hv : OwnedOrNone userId v) (hid : ∀ model, v = some model → id < s.seq .tasks) :
    Keeping userId before (s.put (.task id) v) :=
  { h with
    rows := h.rows.task hrow hv
    issued := h.issued.task hid }

theorem Keeping.put_message (h : Keeping userId before s) (messageId : Uuid)
    (model : OutboxMessageModel) :
    Keeping userId before (s.put (.message messageId) (some model)) :=
  { h with
    rows := by
      intro id row howner
      rw [Session.put_rows_of_ne s (by simp)]
      exact h.rows id row howner
    issued := by
      intro id row hrow
      rw [Session.put_rows_of_ne s (by simp)] at hrow
      exact h.issued id row hrow }

theorem Keeping.nextval (h : Keeping userId before s) :
    Keeping userId before
      { s with seq := Function.update s.seq .tasks (s.seq .tasks + 1) } where
  rows := h.rows
  committed := h.committed
  issued := by
    intro id row hrow
    have hlt := h.issued id row hrow
    show id < Function.update s.seq Sequence.tasks (s.seq .tasks + 1) .tasks
    rw [Function.update_self]
    omega
  issuedCommitted := by
    intro id row hrow
    have hlt := h.issuedCommitted id row hrow
    show id < Function.update s.seq Sequence.tasks (s.seq .tasks + 1) .tasks
    rw [Function.update_self]
    omega
  free := h.free

theorem Keeping.commit (h : Keeping userId before s) :
    Keeping userId before { s with committed := s.rows } :=
  ⟨h.rows, h.rows, h.issued, h.issued, h.free⟩

theorem Keeping.rollback (h : Keeping userId before s) :
    Keeping userId before { s with rows := s.committed } :=
  ⟨h.committed, h.committed, h.issuedCommitted, h.issuedCommitted, h.free⟩

/-- A task above the sequence is not there yet. -/
theorem Keeping.fresh (h : Keeping userId before s) : s.rows (.task (s.seq .tasks)) = none := by
  rcases hrow : s.rows (.task (s.seq .tasks)) with _ | row
  · rfl
  · exact absurd (h.issued _ row hrow) (lt_irrefl _)

namespace Twin

/-- What both write to a task of the user. -/
theorem task (h : Twin userId drawn before before' s t)
    (hrow : OwnedOrNone userId (s.rows (.task id))) (hrow' : OwnedOrNone userId (t.rows (.task id)))
    (hv : OwnedOrNone userId v) (hid : ∀ model, v = some model → id < s.seq .tasks) :
    Twin userId drawn before before' (s.put (.task id) v) (t.put (.task id) v) where
  rows := h.rows.task hrow hrow'
  committed := h.committed
  seq := h.seq
  left := h.left.task hrow hv hid
  right := h.right.task hrow' hv (h.seq ▸ hid)

theorem put_message (h : Twin userId drawn before before' s t) (messageId : Uuid)
    (model : OutboxMessageModel) :
    Twin userId drawn before before' (s.put (.message messageId) (some model))
      (t.put (.message messageId) (some model)) where
  rows := h.rows.put_message messageId model
  committed := h.committed
  seq := h.seq
  left := h.left.put_message messageId model
  right := h.right.put_message messageId model

theorem nextval (h : Twin userId drawn before before' s t) :
    Twin userId drawn before before'
      { s with seq := Function.update s.seq .tasks (s.seq .tasks + 1) }
      { t with seq := Function.update t.seq .tasks (t.seq .tasks + 1) } where
  rows := h.rows
  committed := h.committed
  seq := by
    show Function.update s.seq Sequence.tasks (s.seq .tasks + 1) .tasks =
      Function.update t.seq Sequence.tasks (t.seq .tasks + 1) .tasks
    rw [Function.update_self, Function.update_self, h.seq]
  left := h.left.nextval
  right := h.right.nextval

theorem commit (h : Twin userId drawn before before' s t) :
    Twin userId drawn before before' { s with committed := s.rows }
      { t with committed := t.rows } :=
  ⟨h.rows, h.rows, h.seq, h.left.commit, h.right.commit⟩

theorem rollback (h : Twin userId drawn before before' s t) :
    Twin userId drawn before before' { s with rows := s.committed }
      { t with rows := t.committed } :=
  ⟨h.committed, h.committed, h.seq, h.left.rollback, h.right.rollback⟩

end Twin

end Sessions

/-! ### Statements -/

/-- Message ids are drawn from `drawn`. -/
def DrawsFrom (drawn : Uuid → Prop) : Decision → Prop
  | .uuid id => drawn id
  | _ => True

/-- The program takes the same course in both databases and keeps them twins. -/
abbrev TakesBoth {α : Type} (isHash : String → String → Bool) (userId : ℕ) (drawn : Uuid → Prop)
    (before before' : Rows) (program : Tx α) (s t : DbSession)
    (K : α → DbSession → DbSession → Prop) : Prop :=
  program.Twins (Session.Takes (DrawsFrom drawn) Fault.exn (outside isHash)) s t
    (Program.Keeps (Twin userId drawn before before') K)

/-- How the world outside answers does not depend on the queue. -/
theorem outside_same {isHash : String → String → Bool} (queue queue₁ : Queue) (x : Outside)
    (d : Decision) (r : Except Exn x.Reply) (queue' : Queue)
    (h : outside isHash queue x d = some (r, queue')) :
    ∃ queue₂, outside isHash queue₁ x d = some (r, queue₂) := by
  -- replies do not depend on what is in the queue
  cases x with
  | hash password =>
    cases d
    case hashed h' =>
      simp only [outside] at h ⊢
      split at h
      · rename_i hhash
        cases h
        exact ⟨_, if_pos hhash⟩
      · cases h
    all_goals cases h
  | verify password passwordHash =>
    cases d
    case upgrade replacement =>
      simp only [outside] at h ⊢
      split at h
      · rename_i hvalid
        rw [if_pos hvalid]
        split at h
        · cases h
          exact ⟨_, rfl⟩
        · split at h
          · rename_i hhash
            cases h
            exact ⟨_, if_pos hhash⟩
          · cases h
      · rename_i hinvalid
        cases h
        exact ⟨_, if_neg hinvalid⟩
    all_goals cases h
  | _ =>
    cases d
    all_goals cases h
    all_goals exact ⟨_, rfl⟩

section Statements

variable {isHash : String → String → Bool} {userId : ℕ} {drawn : Uuid → Prop}
  {before before' : Rows} {s t : DbSession}

theorem twins_call {x : Outside} {K : x.Reply → DbSession → DbSession → Prop}
    (hst : Twin userId drawn before before' s t)
    (h : ∀ v, (∃ queue d queue', DrawsFrom drawn d ∧
      outside isHash queue x d = some (.ok v, queue')) → K v s t) :
    TakesBoth isHash userId drawn before before' (call x) s t K :=
  twins_ext (fun queue queue₁ => outside_same queue queue₁ x) hst h

theorem twins_now {K : Instant → DbSession → DbSession → Prop}
    (hst : Twin userId drawn before before' s t) (h : ∀ time, K time s t) :
    TakesBoth isHash userId drawn before before' now s t K :=
  twins_call hst fun time _ => h time

/-- Both raise, or both go on with the value. -/
theorem twins_lift {α : Type} {a : Except Exn α} {K : α → DbSession → DbSession → Prop}
    (hst : Twin userId drawn before before' s t) (h : ∀ x, a = .ok x → K x s t) :
    TakesBoth isHash userId drawn before before' (liftExcept a) s t K := by
  cases a with
  | ok x => exact h x rfl
  | error e => exact hst

/-- The user's own row. -/
theorem twins_select_user {K : Option UserModel → DbSession → DbSession → Prop}
    (hst : Twin userId drawn before before' s t) (h : ∀ row, K row s t) :
    TakesBoth isHash userId drawn before before' (select (.user userId) fun _ => true) s t K := by
  refine twins_store (by simp) hst (by simp) ?_
  rintro v v' rfl rfl
  rw [hst.rows.user]
  exact ⟨rfl, h _⟩

/-- A task of the user, seen in both, or in neither. -/
theorem twins_ownedQuery {taskId : ℕ} {K : Option TaskModel → DbSession → DbSession → Prop}
    (hst : Twin userId drawn before before' s t) (hnone : K none s t)
    (hsome : ∀ row, row.userId = userId → s.rows (.task taskId) = some row →
      t.rows (.task taskId) = some row → K (some row) s t) :
    TakesBoth isHash userId drawn before before' (TaskRepository.ownedQuery taskId userId) s t
      K := by
  refine twins_store (by simp) hst (by simp) ?_
  rintro v v' rfl rfl
  refine ⟨hst.rows.filter taskId, ?_⟩
  show K ((s.rows (.task taskId)).filter fun row => row.userId == userId) s t
  rcases hrow : (s.rows (.task taskId)).filter (fun row => row.userId == userId) with _ | row
  · rw [hrow]
    exact hnone
  · rw [hrow]
    obtain ⟨hseen, howner⟩ := Option.filter_eq_some_iff.mp hrow
    replace howner : row.userId = userId := beq_iff_eq.mp howner
    exact hsome row howner hseen ((hst.rows.owned taskId row howner).mp hseen)

/-- The list of the user's tasks. -/
theorem twins_listOwned {K : List Task → DbSession → DbSession → Prop}
    (hst : Twin userId drawn before before' s t) (h : ∀ tasks, K tasks s t) :
    TakesBoth isHash userId drawn before before' (TaskRepository.listOwned userId) s t K := by
  refine Program.Twins.bind (twins_store (by simp) hst (by simp) ?_)
  rintro v v' ⟨l, hl, rfl⟩ ⟨l', hl', rfl⟩
  refine ⟨?_, h _⟩
  -- both list the same tasks, and the order leaves one list
  have hmem : ∀ x, x ∈ l ↔ x ∈ l' := by
    rintro ⟨k, row⟩
    rw [hl.2, hl'.2]
    cases k with
    | task id => exact and_congr_left fun howned => hst.rows.owned id row (beq_iff_eq.mp howned)
    | _ => exact ⟨fun hx => absurd hx.2 (by simp [TaskRepository.ownedBy]),
        fun hx => absurd hx.2 (by simp [TaskRepository.ownedBy])⟩
  have hperm : l.Perm l' := (List.perm_ext_iff_of_nodup hl.1 hl'.1).mpr hmem
  have hsorted := List.pairwise_map.mp (Session.pairwise_map_insertionSort (newestFirst_iff hl))
  have hsorted' := List.pairwise_map.mp (Session.pairwise_map_insertionSort (newestFirst_iff hl'))
  refine List.Perm.eq_of_pairwise ?_ hsorted hsorted'
    ((List.perm_insertionSort _ l).trans (hperm.trans (List.perm_insertionSort _ l').symm))
  rintro ⟨k, row⟩ ⟨k', row'⟩ ha hb hab hba
  have hrow := (hl.2 _).mp ((List.mem_insertionSort _).mp ha)
  have hrow' := (hl.2 _).mp ((hmem _).mpr ((List.mem_insertionSort _).mp hb))
  cases k with
  | task id =>
    cases k' with
    | task id' =>
      have hage : row.age id = row'.age id' := le_antisymm (OrderDual.toDual_le_toDual.mp hba)
        (OrderDual.toDual_le_toDual.mp hab)
      have hid : id = id' := congrArg (fun age => (ofLex age).2) hage
      subst hid
      have hsame : row = row' := Option.some_inj.mp (hrow.1.symm.trans hrow'.1)
      rw [hsame]
    | _ => cases hrow'.2
  | _ => cases hrow.2

/-- The flush of a task of the user. -/
theorem twins_flush {taskId : ℕ} {loaded assigned : TaskModel}
    {K : TaskModel → DbSession → DbSession → Prop} (hst : Twin userId drawn before before' s t)
    (hrow : s.rows (.task taskId) = some loaded) (hrow' : t.rows (.task taskId) = some loaded)
    (howner : loaded.userId = userId)
    (h : ∀ model s' t', Twin userId drawn before before' s' t' → K model s' t') :
    TakesBoth isHash userId drawn before before' (TaskModel.flush taskId loaded assigned) s t
      K := by
  have howned : OwnedOrNone userId (s.rows (.task taskId)) := by
    intro model hmodel
    rw [Option.some_inj.mp (hmodel.symm.trans hrow)]
    exact howner
  have howned' : OwnedOrNone userId (t.rows (.task taskId)) := by
    intro model hmodel
    rw [Option.some_inj.mp (hmodel.symm.trans hrow')]
    exact howner
  -- both sessions have read the same row, so they write the same one
  have hwrite : ∀ stamp, TakesBoth isHash userId drawn before before'
      (TaskModel.write taskId loaded assigned stamp) s t K := by
    intro stamp
    refine Program.Twins.bind (twins_store (by simp) hst (by simp) ?_)
    rintro v v' ⟨rfl, -⟩ ⟨rfl, -⟩
    have hfilter : (s.rows (.task taskId)).filter (fun _ => true) = some loaded := by
      rw [hrow]
      rfl
    have hfilter' : (t.rows (.task taskId)).filter (fun _ => true) = some loaded := by
      rw [hrow']
      rfl
    rw [hfilter, hfilter', Session.next_update hfilter, Session.next_update hfilter']
    refine ⟨rfl, h _ _ _ (hst.task howned howned' ?_ ?_)⟩
    · rintro model ⟨⟩
      exact howner
    · intro model _
      exact hst.left.issued taskId loaded hrow
  rw [TaskModel.flush_eq]
  split
  · exact h _ _ _ hst
  · split
    · exact Program.Twins.bind (twins_call hst fun stamp _ => hwrite stamp)
    · exact hwrite _

/-- `update` of a task of the user. -/
theorem twins_update {task : Task} {K : Task → DbSession → DbSession → Prop}
    (hst : Twin userId drawn before before' s t) (howner : task.userId = userId)
    (h : ∀ updated s' t', Twin userId drawn before before' s' t' → K updated s' t') :
    TakesBoth isHash userId drawn before before' (TaskRepository.update task) s t K := by
  subst howner
  unfold TaskRepository.update
  rcases task.id with _ | taskId
  · exact hst
  refine Program.Twins.bind (twins_ownedQuery hst hst fun row howner hrow hrow' => ?_)
  exact Program.Twins.bind (twins_flush hst hrow hrow' howner fun model s' t' hst' =>
    h _ s' t' hst')

/-- `add` of a task of the user. -/
theorem twins_add {task : Task} {K : Task → DbSession → DbSession → Prop}
    (hst : Twin userId drawn before before' s t) (howner : task.userId = userId)
    (h : ∀ added s' t', Twin userId drawn before before' s' t' → K added s' t') :
    TakesBoth isHash userId drawn before before' (TaskRepository.add task) s t K := by
  refine Program.Twins.bind (twins_store (by simp) hst (by simp) ?_)
  rintro id id' rfl hid
  replace hid : id' = t.seq .tasks := hid
  -- both sequences stand at the same number, and no task has it
  rw [← hst.seq] at hid
  subst hid
  refine ⟨rfl, ?_⟩
  have hst₁ : Twin userId drawn before before' (s.next (.nextval .tasks : Command))
      (t.next (.nextval .tasks : Command)) := hst.nextval
  have hnone : (s.next (.nextval .tasks : Command)).rows (.task (s.seq .tasks)) = none :=
    hst.left.fresh
  have hnone' : (t.next (.nextval .tasks : Command)).rows (.task (s.seq .tasks)) = none :=
    hst.seq ▸ hst.right.fresh
  refine Program.Twins.bind (twins_store (by simp) hst₁ (by simp) ?_)
  rintro v v' ⟨rfl, -⟩ ⟨rfl, -⟩
  rw [Session.next_insert hnone, Session.next_insert hnone', hnone, hnone']
  refine ⟨rfl, h _ _ _ (hst₁.task ?_ ?_ ?_ ?_)⟩
  · intro model hmodel
    cases hnone.symm.trans hmodel
  · intro model hmodel
    cases hnone'.symm.trans hmodel
  · rintro model ⟨⟩
    exact howner
  · intro model _
    show s.seq .tasks < Function.update s.seq Sequence.tasks (s.seq .tasks + 1) .tasks
    rw [Function.update_self]
    omega

/-- A message under a drawn id. -/
theorem twins_addMessage {message : OutboxMessage}
    {K : OutboxMessage → DbSession → DbSession → Prop}
    (hst : Twin userId drawn before before' s t) (hdrawn : drawn message.id)
    (h : ∀ added s' t', Twin userId drawn before before' s' t' → K added s' t') :
    TakesBoth isHash userId drawn before before' (OutboxRepository.add message) s t K := by
  have hsame := hst.rows.message message.id hdrawn
  refine Program.Twins.bind (twins_store (by simp) hst (by simp) ?_)
  rintro v v' ⟨rfl, -⟩ ⟨rfl, -⟩
  refine ⟨hsame, ?_⟩
  rcases hrow : s.rows (.message message.id) with _ | old
  · have hrow' : t.rows (.message message.id) = none := by
      rw [hrow] at hsame
      exact Option.isNone_iff_eq_none.mp hsame.symm
    rw [Session.next_insert hrow, Session.next_insert hrow']
    exact h _ _ _ (hst.put_message _ _)
  · rcases hrow' : t.rows (.message message.id) with _ | old'
    · rw [hrow, hrow'] at hsame
      cases hsame
    · rw [Session.next, hrow, Session.next, hrow']
      exact hst

/-- `delete_owned`. -/
theorem twins_deleteOwned {taskId : ℕ} {K : Bool → DbSession → DbSession → Prop}
    (hst : Twin userId drawn before before' s t)
    (h : ∀ deleted s' t', Twin userId drawn before before' s' t' → K deleted s' t') :
    TakesBoth isHash userId drawn before before' (TaskRepository.deleteOwned taskId userId) s t
      K := by
  have hsame := hst.rows.filter taskId
  refine Program.Twins.bind (twins_store (by simp) hst (by simp) ?_)
  rintro v v' ⟨rfl, -⟩ ⟨rfl, -⟩
  refine ⟨hsame, ?_⟩
  rcases hrow : (s.rows (.task taskId)).filter (fun row => row.userId == userId) with _ | row
  · rw [hrow] at hsame
    rw [Session.next, hrow, Session.next, ← hsame]
    exact h _ _ _ hst
  · rw [hrow] at hsame
    rw [Session.next_delete hrow, Session.next_delete hsame.symm]
    obtain ⟨hseen, howner⟩ := Option.filter_eq_some_iff.mp hrow
    obtain ⟨hseen', -⟩ := Option.filter_eq_some_iff.mp hsame.symm
    replace howner : row.userId = userId := beq_iff_eq.mp howner
    refine h _ _ _ (hst.task ?_ ?_ ?_ ?_)
    · intro model hmodel
      rw [Option.some_inj.mp (hmodel.symm.trans hseen)]
      exact howner
    · intro model hmodel
      rw [Option.some_inj.mp (hmodel.symm.trans hseen')]
      exact howner
    · intro model hmodel
      cases hmodel
    · intro model hmodel
      cases hmodel

end Statements

/-! ### Programs -/

/-- The program takes the same course in all twins, and keeps them twins. -/
def Confined {α : Type} (isHash : String → String → Bool) (userId : ℕ) (drawn : Uuid → Prop)
    (before before' : Rows) (program : Tx α) : Prop :=
  ∀ s t, Twin userId drawn before before' s t →
    TakesBoth isHash userId drawn before before' program s t
      fun _ s' t' => Twin userId drawn before before' s' t'

namespace Confined

variable {isHash : String → String → Bool} {userId : ℕ} {drawn : Uuid → Prop}
  {before before' : Rows} {α β : Type}

theorem ret (a : α) : Confined isHash userId drawn before before' (.ret a) := fun _ _ hst => hst

theorem raise (e : Exn) : Confined isHash userId drawn before before' (.raise e : Tx α) :=
  fun _ _ hst => hst

theorem bind {p : Tx α} {f : α → Tx β} (hp : Confined isHash userId drawn before before' p)
    (hf : ∀ a, Confined isHash userId drawn before before' (f a)) :
    Confined isHash userId drawn before before' (p.bind f) := by
  intro s t hst
  refine Program.Twins.bind ((hp s t hst).mono fun r s' t' hr => ?_)
  cases r with
  | ok a => exact hf a s' t' hr
  | error e => exact hr

theorem handle {p : Tx α} {h : Exn → Tx α} (hp : Confined isHash userId drawn before before' p)
    (hh : ∀ e, Confined isHash userId drawn before before' (h e)) :
    Confined isHash userId drawn before before' (p.handle h) := by
  intro s t hst
  refine Program.twins_handle ((hp s t hst).mono fun r s' t' hr => ?_)
  cases r with
  | ok a => exact hr
  | error e => exact hh e s' t' hr

theorem liftExcept (a : Except Exn α) :
    Confined isHash userId drawn before before' (liftExcept a) := by
  cases a with
  | ok a => exact ret a
  | error e => exact raise e

theorem commit (out : Outcome) : Confined isHash userId drawn before before' (commit out) :=
  fun _ _ hst => twins_store (by simp) hst (fun _ _ => hst.commit) fun _ _ _ _ => ⟨rfl, hst.commit⟩

theorem rollback : Confined isHash userId drawn before before' Lsstack.rollback :=
  fun _ _ hst => twins_store (by simp) hst (by simp) fun _ _ _ _ => ⟨rfl, hst.rollback⟩

/-- The rule of `TransactionRunner.run`. -/
theorem transaction {outcome : α → Outcome} {operation : Tx α}
    (h : Confined isHash userId drawn before before' operation) :
    Confined isHash userId drawn before before' (transactionRunner outcome operation) :=
  handle (bind h fun _ => bind (commit _) fun _ => ret _) fun _ => bind rollback fun _ => raise _

/-! ### Use cases -/

theorem listTasks : Confined isHash userId drawn before before' (listTasks userId) := by
  intro s t hst
  exact Program.Twins.bind (twins_listOwned hst fun tasks => liftExcept _ s t hst)

theorem getTask (taskId : ℕ) :
    Confined isHash userId drawn before before' (getTask userId taskId) := by
  intro s t hst
  refine Program.Twins.bind (Program.Twins.bind (twins_ownedQuery hst hst fun row _ _ _ => ?_))
  exact liftExcept _ s t hst

theorem updateTask (taskId : ℕ) (title : String) (description : Option String) :
    Confined isHash userId drawn before before' (updateTask userId taskId title description) := by
  intro s t hst
  refine Program.Twins.bind (Program.Twins.bind (twins_ownedQuery hst hst
    fun row howner _ _ => ?_))
  refine Program.Twins.bind (twins_now hst fun time => ?_)
  generalize hedited : (row.detach taskId).edited title description time = edited
  refine Program.Twins.bind (twins_lift hst fun edited' hok => ?_)
  obtain ⟨title', description', -, -, rfl⟩ := Task.edited_ok (hedited.trans hok)
  exact Program.Twins.bind (twins_update hst howner fun updated s' t' hst' =>
    liftExcept _ s' t' hst')

theorem toggleTask (taskId : ℕ) :
    Confined isHash userId drawn before before' (toggleTask userId taskId) := by
  intro s t hst
  refine Program.Twins.bind (Program.Twins.bind (twins_ownedQuery hst hst
    fun row howner _ _ => ?_))
  refine Program.Twins.bind (twins_now hst fun time => ?_)
  exact Program.Twins.bind (twins_update hst howner fun updated s' t' hst' =>
    liftExcept _ s' t' hst')

theorem deleteTask (taskId : ℕ) :
    Confined isHash userId drawn before before' (deleteTask userId taskId) := by
  intro s t hst
  refine Program.Twins.bind (twins_deleteOwned hst fun deleted s' t' hst' => ?_)
  cases deleted with
  | false => exact hst'
  | true => exact hst'

/-- The message of a new task is stored under a drawn id. -/
theorem createTask (title : String) (description : Option String) :
    Confined isHash userId drawn before before' (createTask userId title description) := by
  intro s t hst
  refine Program.Twins.bind (twins_now hst fun time => ?_)
  generalize normalizeTitle title = title
  refine Program.Twins.bind (twins_lift hst fun title _ => ?_)
  generalize normalizeDescription description = description
  refine Program.Twins.bind (twins_lift hst fun description _ => ?_)
  refine Program.Twins.bind (twins_add hst rfl fun added s₁ t₁ hst₁ => ?_)
  refine Program.Twins.bind (twins_lift hst₁ fun result _ => ?_)
  refine Program.Twins.bind (twins_call hst₁ fun messageId hdraws => ?_)
  have hdrawn : drawn messageId := by
    obtain ⟨queue, d, queue', hd, hext⟩ := hdraws
    cases d
    case uuid u =>
      cases hext
      exact hd
    all_goals cases hext
  exact Program.Twins.bind (twins_addMessage hst₁ hdrawn fun _ _ _ hst₂ => hst₂)

/-- An operation on the task of the path. -/
theorem onTask {taskId : Option ℕ} {operation : ℕ → Tx α}
    (h : ∀ taskId, Confined isHash userId drawn before before' (operation taskId)) :
    Confined isHash userId drawn before before' (onTask taskId operation) := by
  cases taskId with
  | none => exact ret none
  | some taskId =>
    refine handle (bind (h taskId) fun _ => ret _) fun e => ?_
    cases e with
    | taskNotFoundError message => exact ret none
    | _ => exact raise _

/-! ### Handlers -/

/-- The session belongs to the user, or is rejected. -/
theorem revalidateSession {claims : SessionClaims} (hclaims : claims.userId = userId)
    {s t : DbSession} (hst : Twin userId drawn before before' s t) :
    TakesBoth isHash userId drawn before before' (revalidateSession claims) s t
      fun session s' t' => session.userId = userId ∧ Twin userId drawn before before' s' t' := by
  subst hclaims
  refine Program.Twins.bind (twins_now hst fun time => ?_)
  split
  · exact hst
  refine Program.Twins.bind (Program.Twins.bind (Program.Twins.bind (twins_select_user hst
    fun row => ?_)))
  cases row with
  | none => exact hst
  | some row =>
    show TakesBoth _ _ _ _ _ (ite (row.sessionVersion ≠ claims.sessionVersion) _ _) _ _ _
    split
    · exact hst
    · exact ⟨rfl, hst⟩

/-- The rule of the frame of the task pages. -/
theorem runTaskPage {request : WebRequest} {operation : CurrentUser → Tx α}
    (hrequest : ∀ claims, request.session = some claims → claims.userId = userId)
    (h : ∀ user, user.id = userId →
      Confined isHash userId drawn before before' (operation user)) :
    Confined isHash userId drawn before before' (runTaskPage request operation) := by
  unfold Lsstack.runTaskPage runAuthenticated
  rcases hsession : request.session with _ | claims
  · exact ret none
  refine handle (bind (transaction ?_) fun _ => ret _) fun e => ?_
  · intro s t hst
    refine Program.Twins.bind ((revalidateSession (hrequest claims hsession) hst).mono ?_)
    rintro (e | session) s' t' hr
    · exact hr
    · exact bind (h _ hr.1) (fun _ => ret _) s' t' hr.2
  · cases e with
    | invalidSessionError message => exact ret none
    | _ => exact raise _

end Confined

/-! ### Requests -/

/-- A request, and what is decided outside the code while it is handled: the clock, `uuid4` and
the faults. -/
structure SentRequest where
  route : TaskRoute
  request : WebRequest
  decisions : List (Choice Fault Decision)

/-- One request after another, nobody beside them. -/
def answersTo (isHash : String → String → Bool) (uni : Unicode) (codec : SqidsPublicIdCodec)
    (i : ℕ) : List SentRequest → Db → Option (List (Except Exn WebResponse) × Db)
  | [], w => some ([], w)
  | sent :: requests, w =>
    match Program.replay (fun w => exec Fault.exn (outside isHash) w i) sent.decisions
        (sent.route.handler uni codec sent.request) w with
    | none => none
    | some (response, w') =>
      (answersTo isHash uni codec i requests w').map fun rest => (response :: rest.1, rest.2)

section Requests

variable {isHash : String → String → Bool} {uni : Unicode} {codec : SqidsPublicIdCodec}
  {userId : ℕ} {drawn : Uuid → Prop} {before before' : Rows} {request : WebRequest}

/-- A request with a session of the user, if with any. -/
abbrev SentBy (userId : ℕ) (request : WebRequest) : Prop :=
  ∀ claims, request.session = some claims → claims.userId = userId

theorem confined_listPage (hrequest : SentBy userId request) :
    Confined isHash userId drawn before before'
      (runTaskPage request fun user => listTasks user.id) :=
  Confined.runTaskPage hrequest fun _ huser => huser ▸ Confined.listTasks

theorem confined_taskPage (hrequest : SentBy userId request) (taskId : Option ℕ) :
    Confined isHash userId drawn before before'
      (runTaskPage request fun user => onTask taskId (getTask user.id)) :=
  Confined.runTaskPage hrequest fun _ huser => Confined.onTask fun id =>
    huser ▸ Confined.getTask id

theorem confined_taskList (hrequest : SentBy userId request) :
    Confined isHash userId drawn before before' (taskList codec request) := by
  refine Confined.bind (confined_listPage hrequest) fun result => ?_
  rcases result with _ | ⟨user, results⟩
  · exact Confined.ret _
  · exact Confined.bind (Confined.liftExcept _) fun _ => Confined.ret _

theorem confined_createTaskAction (hrequest : SentBy userId request) :
    Confined isHash userId drawn before before' (createTaskAction uni codec request) := by
  unfold createTaskAction
  dsimp only
  generalize taskForm request.form = submitted
  split
  -- a form with errors is shown again, with the list
  · refine Confined.bind (confined_listPage hrequest) fun result => ?_
    rcases result with _ | ⟨user, results⟩
    · exact Confined.ret _
    · exact Confined.bind (Confined.liftExcept _) fun _ => Confined.ret _
  · refine Confined.bind (Confined.runTaskPage hrequest fun user huser =>
      Confined.bind (huser ▸ Confined.createTask _ _) fun _ => Confined.ret _) fun result => ?_
    rcases result with _ | ⟨user, created⟩
    · exact Confined.ret _
    · dsimp only
      split
      · exact Confined.ret _
      · exact Confined.bind (Confined.liftExcept _) fun _ => Confined.ret _

theorem confined_editTaskForm (hrequest : SentBy userId request) (publicId : String) :
    Confined isHash userId drawn before before' (editTaskForm codec request publicId) := by
  refine Confined.bind (Confined.liftExcept _) fun taskId =>
    Confined.bind (confined_taskPage hrequest _) ?_
  rintro (_ | ⟨user, _ | result⟩)
  · exact Confined.ret _
  · exact Confined.ret _
  · exact Confined.bind (Confined.liftExcept _) fun _ => Confined.ret _

theorem confined_editTaskAction (hrequest : SentBy userId request) (publicId : String) :
    Confined isHash userId drawn before before' (editTaskAction uni codec request publicId) := by
  unfold editTaskAction
  dsimp only
  generalize taskForm request.form = submitted
  refine Confined.bind (Confined.liftExcept _) fun taskId => Confined.bind
    (Confined.runTaskPage hrequest fun user huser => Confined.onTask fun id => ?_) ?_
  -- a form with errors only reads the task
  · subst huser
    split
    · exact Confined.getTask id
    · exact Confined.updateTask id _ _
  · rintro (_ | ⟨user, _ | result⟩)
    · exact Confined.ret _
    · exact Confined.ret _
    · refine Confined.bind (Confined.liftExcept _) fun task => ?_
      split
      · exact Confined.ret _
      · split
        · exact Confined.ret _
        · exact Confined.ret _

theorem confined_toggleTaskAction (hrequest : SentBy userId request) (publicId : String) :
    Confined isHash userId drawn before before' (toggleTaskAction uni codec request publicId) := by
  refine Confined.bind (Confined.liftExcept _) fun taskId => Confined.bind
    (Confined.runTaskPage hrequest fun user huser => Confined.onTask fun id =>
      huser ▸ Confined.toggleTask id) ?_
  rintro (_ | ⟨user, _ | result⟩)
  · exact Confined.ret _
  · exact Confined.ret _
  · dsimp only
    split
    · exact Confined.bind (Confined.liftExcept _) fun _ => Confined.ret _
    · exact Confined.ret _

theorem confined_deleteTaskAction (hrequest : SentBy userId request) (publicId : String) :
    Confined isHash userId drawn before before' (deleteTaskAction uni codec request publicId) := by
  refine Confined.bind (Confined.liftExcept _) fun taskId => Confined.bind
    (Confined.runTaskPage hrequest fun user huser => Confined.onTask fun id =>
      huser ▸ Confined.deleteTask id) ?_
  rintro (_ | ⟨user, _ | result⟩)
  · exact Confined.ret _
  · exact Confined.ret _
  · dsimp only
    split
    · exact Confined.ret _
    · exact Confined.ret _

theorem confined_taskStatus (hrequest : SentBy userId request) (publicId : String) :
    Confined isHash userId drawn before before' (taskStatus codec request publicId) := by
  refine Confined.bind (Confined.liftExcept _) fun taskId =>
    Confined.bind (confined_taskPage hrequest _) ?_
  rintro (_ | ⟨user, _ | result⟩)
  · exact Confined.ret _
  · exact Confined.ret _
  · exact Confined.bind (Confined.liftExcept _) fun _ => Confined.ret _

/-- **Every handler** takes the same course in twins. -/
theorem confined_handler (hrequest : SentBy userId request) (route : TaskRoute) :
    Confined isHash userId drawn before before' (route.handler uni codec request) := by
  -- whatever the route, each transaction is confined to the user of the session
  cases route with
  | tasks => exact confined_taskList hrequest
  | createTask =>
    -- to find the arguments would be to run the check of the form
    exact @confined_createTaskAction isHash uni codec userId drawn before before' request hrequest
  | editTaskForm publicId => exact confined_editTaskForm hrequest publicId
  | editTask publicId => exact confined_editTaskAction hrequest publicId
  | toggleTask publicId => exact confined_toggleTaskAction hrequest publicId
  | deleteTask publicId => exact confined_deleteTaskAction hrequest publicId
  | taskStatus publicId => exact confined_taskStatus hrequest publicId

theorem answersTo_cons {i : ℕ} {sent : SentRequest} {requests : List SentRequest} {w w' w'' : Db}
    {response : Except Exn WebResponse} {responses : List (Except Exn WebResponse)}
    (h : Program.replay (fun w => exec Fault.exn (outside isHash) w i) sent.decisions
      (sent.route.handler uni codec sent.request) w = some (response, w'))
    (hrest : answersTo isHash uni codec i requests w' = some (responses, w'')) :
    answersTo isHash uni codec i (sent :: requests) w = some (response :: responses, w'') := by
  rw [answersTo, h]
  show (answersTo isHash uni codec i requests w').map _ = _
  rw [hrest]
  rfl

/-- Requests of the user, one after another. -/
theorem twins_answersTo {i : ℕ} {requests : List SentRequest} {w v w' : Db}
    {responses : List (Except Exn WebResponse)} {s t : DbSession}
    (hrequests : ∀ sent ∈ requests, ∀ claims, sent.request.session = some claims →
      claims.userId = userId)
    (hdrawn : ∀ sent ∈ requests, ∀ d, Choice.ext d ∈ sent.decisions → DrawsFrom drawn d)
    (hst : Twin userId drawn before before' s t) (hw : Alone i w s) (hv : Alone i v t)
    (h : answersTo isHash uni codec i requests w = some (responses, w')) :
    ∃ v' s' t', answersTo isHash uni codec i requests v = some (responses, v') ∧
      Alone i w' s' ∧ Alone i v' t' ∧ Twin userId drawn before before' s' t' := by
  induction requests generalizing w v s t responses with
  | nil =>
    cases h
    exact ⟨v, s, t, rfl, hw, hv, hst⟩
  | cons sent requests ih =>
    obtain ⟨hrequest, hrequests⟩ := List.forall_mem_cons.mp hrequests
    obtain ⟨hdraws, hdrawn⟩ := List.forall_mem_cons.mp hdrawn
    rw [answersTo] at h
    split at h
    · cases h
    · rename_i response w₁ hfirst
      obtain ⟨⟨rest, w₂⟩, hrest, heq⟩ := Option.map_eq_some_iff.mp h
      cases heq
      -- each request leaves the databases twins
      obtain ⟨v₁, s₁, t₁, hsecond, hw₁, hv₁, hr⟩ := (confined_handler hrequest sent.route s t
        hst).alone outside_same hdraws hw hv hst.left.free hst.right.free hfirst
      have hst₁ : Twin userId drawn before before' s₁ t₁ := by
        cases response with
        | ok a => exact hr
        | error e => exact hr
      obtain ⟨v', s', t', hanswers, hw', hv', hst'⟩ := ih hrequests hdrawn hst₁ hw₁ hv₁ hrest
      exact ⟨v', s', t', answersTo_cons hsecond hanswers, hw', hv', hst'⟩

/-- The message ids the requests draw. -/
def DrawnBy (requests : List SentRequest) (id : Uuid) : Prop :=
  ∃ sent ∈ requests, Choice.ext (Decision.uuid id) ∈ sent.decisions

theorem drawsFrom_drawn {requests : List SentRequest} :
    ∀ sent ∈ requests, ∀ d, Choice.ext d ∈ sent.decisions → DrawsFrom (DrawnBy requests) d := by
  intro sent hsent d hd
  cases d with
  | uuid id => exact ⟨sent, hsent, hd⟩
  | _ => trivial

/-- **Ownership is a boundary.**  Nobody else writes, the ids of the tasks are below the
sequence, and the two databases agree on the user, the user's tasks, the sequence and on which
of the drawn message ids are taken. -/
theorem noninterference {i : ℕ} {requests : List SentRequest} {w v w' : Db}
    {responses : List (Except Exn WebResponse)}
    (hrequests : ∀ sent ∈ requests, ∀ claims, sent.request.session = some claims →
      claims.userId = userId)
    (hw : ∀ k, (w.cell k).hold.owner = none) (hv : ∀ k, (v.cell k).hold.owner = none)
    (hissued : Issued (w.seq .tasks) w.row) (hissued' : Issued (v.seq .tasks) v.row)
    (hseq : w.seq .tasks = v.seq .tasks)
    (hagree : Agree userId (DrawnBy requests) w.row v.row)
    (h : answersTo isHash uni codec i requests w = some (responses, w')) :
    ∃ v', answersTo isHash uni codec i requests v = some (responses, v') ∧
      Agree userId (DrawnBy requests) w'.row v'.row ∧ w'.seq .tasks = v'.seq .tasks ∧
      Unmoved userId w.row w'.row ∧ Unmoved userId v.row v'.row := by
  have hunmoved : ∀ rows, Unmoved userId rows rows := fun _ _ _ _ => Iff.rfl
  -- at first each session sees what is committed
  have hst : Twin userId (DrawnBy requests) w.row v.row ⟨w.row, w.row, w.seq, fun _ => False⟩
      ⟨v.row, v.row, v.seq, fun _ => False⟩ :=
    { rows := hagree
      committed := hagree
      seq := hseq
      left := ⟨hunmoved _, hunmoved _, hissued, hissued, fun _ => id⟩
      right := ⟨hunmoved _, hunmoved _, hissued', hissued', fun _ => id⟩ }
  obtain ⟨v', s', t', hanswers, hw', hv', hst'⟩ := twins_answersTo hrequests drawsFrom_drawn hst
    (.of_unlocked hw) (.of_unlocked hv) h
  have hrows : w'.row = s'.committed := funext hw'.committed
  have hrows' : v'.row = t'.committed := funext hv'.committed
  refine ⟨v', hanswers, ?_, ?_, ?_, ?_⟩
  · rw [hrows, hrows']
    exact hst'.committed
  · rw [hw'.seq, hv'.seq]
    exact hst'.seq
  · rw [hrows]
    exact hst'.left.committed
  · rw [hrows']
    exact hst'.right.committed

/-- The database without a task. -/
def withoutTask (w : Db) (taskId : ℕ) : Db :=
  { w with store := w.store.set (.task taskId) .blank }

theorem withoutTask_row_of_ne {w : Db} {taskId : ℕ} {k : Key} (hk : k ≠ .task taskId) :
    (withoutTask w taskId).row k = w.row k := by
  rw [World.row, World.row, World.cell, withoutTask, Store.set_cell_of_ne _ hk]
  rfl

theorem withoutTask_row (w : Db) (taskId : ℕ) :
    (withoutTask w taskId).row (.task taskId) = none := by
  rw [World.row, World.cell, withoutTask, Store.set_cell_self]
  rfl

/-- **A task of another user is answered as one that is not there.** -/
theorem hidden_as_missing {i : ℕ} {requests : List SentRequest} {w w' : Db} {taskId : ℕ}
    {row : TaskModel} {responses : List (Except Exn WebResponse)}
    (hrequests : ∀ sent ∈ requests, ∀ claims, sent.request.session = some claims →
      claims.userId = userId)
    (hw : ∀ k, (w.cell k).hold.owner = none) (hissued : Issued (w.seq .tasks) w.row)
    (hrow : w.row (.task taskId) = some row) (hother : row.userId ≠ userId)
    (h : answersTo isHash uni codec i requests w = some (responses, w')) :
    ∃ v', answersTo isHash uni codec i requests (withoutTask w taskId) = some (responses, v') := by
  have hfree : ∀ k, ((withoutTask w taskId).cell k).hold.owner = none := by
    intro k
    by_cases hk : k = .task taskId
    · subst hk
      rw [World.cell, withoutTask, Store.set_cell_self]
      rfl
    · rw [World.cell, withoutTask, Store.set_cell_of_ne _ hk]
      exact hw k
  have hissued' : Issued ((withoutTask w taskId).seq .tasks) (withoutTask w taskId).row := by
    intro id model hmodel
    by_cases hid : id = taskId
    · subst hid
      cases (withoutTask_row w id).symm.trans hmodel
    · rw [withoutTask_row_of_ne fun heq => hid (Key.task.inj heq)] at hmodel
      exact hissued id model hmodel
  -- the databases differ in the one task, which is of another user
  have hagree : Agree userId (DrawnBy requests) w.row (withoutTask w taskId).row := by
    refine ⟨(withoutTask_row_of_ne (by simp)).symm, fun id model howner => ?_, fun id _ => ?_⟩
    · by_cases hid : id = taskId
      · subst hid
        rw [withoutTask_row, hrow]
        refine ⟨fun heq => absurd howner ?_, fun heq => by cases heq⟩
        rw [← Option.some_inj.mp heq]
        exact hother
      · rw [withoutTask_row_of_ne fun heq => hid (Key.task.inj heq)]
    · rw [withoutTask_row_of_ne (by simp)]
  obtain ⟨v', hanswers, -⟩ := noninterference hrequests hw hfree hissued hissued' rfl hagree h
  exact ⟨v', hanswers⟩

end Requests

/-! ### The task of another user -/

/-- A user without tasks, beside another user and a task of theirs. -/
def hiddenDb : Db :=
  storedDb
    (⟨.task 1, { lastTask with userId := 2 }⟩ :: ⟨.user 2, ⟨"bob@example.org", "", 0, 0, 0⟩⟩ ::
      ⟨.email "bob@example.org", (2 : ℕ)⟩ :: adaRows) fun
    | .users => 3
    | .tasks => 2

/-- The task of the other user is toggled. -/
def hiddenVisits : List SentRequest :=
  [⟨.toggleTask "aa", pageRequest lastClaims, [.ext (.time 0), .ok, .ok, .ok]⟩]

theorem replay_hidden : ∃ w', Program.replay (fun w => exec Fault.exn (outside saltedHash) w 0)
    [.ext (.time 0), .ok, .ok, .ok]
    (toggleTaskAction plainText plainCodec (pageRequest lastClaims) "aa") hiddenDb =
      some (.ok (notFound lastUser), w') := by
  have hdecode : plainCodec.decode "aa" = .ok (some 1) := by
    have hmax : 1 ≤ maxsize := by decide
    obtain ⟨publicId, hencode, hdecode⟩ := plainCodec.decode_encode (le_refl 1) hmax
    have haa : plainCodec.encode 1 = .ok "aa" := rfl
    obtain rfl := Except.ok.inj (hencode.symm.trans haa)
    exact hdecode
  rw [toggleTaskAction, hdecode]
  exact ⟨_, rfl⟩

theorem answersTo_hidden : ∃ w', answersTo saltedHash plainText plainCodec 0 hiddenVisits hiddenDb =
    some ([.ok (notFound lastUser)], w') := by
  obtain ⟨w', hreplay⟩ := replay_hidden
  exact ⟨w', answersTo_cons hreplay rfl⟩

/-- In an empty database, the user apart, the answer is the same. -/
theorem noninterference_hidden : ∃ v', answersTo saltedHash plainText plainCodec 0 hiddenVisits
    (withoutTask hiddenDb 1) = some ([.ok (notFound lastUser)], v') ∧
      Unmoved 1 (withoutTask hiddenDb 1).row v'.row := by
  have hfree : ∀ k, (hiddenDb.cell k).hold.owner = none := storedDb_unlocked
  have hfree' : ∀ k, ((withoutTask hiddenDb 1).cell k).hold.owner = none := by
    intro k
    by_cases htask : k = .task 1
    · subst htask
      rfl
    · rw [World.cell, withoutTask, Store.set_cell_of_ne _ htask]
      exact hfree k
  have htask : ∀ id row, hiddenDb.row (.task id) = some row → id = 1 ∧ row.userId = 2 := by
    intro id row hrow
    obtain ⟨rfl, rfl⟩ : id = 1 ∧ row = { lastTask with userId := 2 } := by
      simpa [adaRows] using storedDb_row hrow
    exact ⟨rfl, rfl⟩
  have hnone : ∀ id, (withoutTask hiddenDb 1).row (.task id) = none := by
    intro id
    by_cases hid : id = 1
    · subst hid
      exact withoutTask_row _ _
    · rw [withoutTask_row_of_ne fun heq => hid (Key.task.inj heq)]
      refine Option.eq_none_iff_forall_ne_some.mpr fun row hrow => hid ?_
      exact (htask id row hrow).1
  have hagree : Agree 1 (DrawnBy hiddenVisits) hiddenDb.row (withoutTask hiddenDb 1).row := by
    refine ⟨(withoutTask_row_of_ne (by simp)).symm, fun id row howner => ?_, fun id _ => ?_⟩
    · rw [hnone]
      refine ⟨fun hrow => ?_, fun hrow => by cases hrow⟩
      have hother := (htask id row hrow).2
      omega
    · rw [withoutTask_row_of_ne (by simp)]
  obtain ⟨w', hanswers⟩ := answersTo_hidden
  obtain ⟨v', hv', -, -, -, hunmoved⟩ := noninterference
    (by
      intro sent hsent claims hclaims
      obtain rfl := List.mem_singleton.mp hsent
      cases hclaims
      rfl)
    hfree hfree'
    (by
      intro id row hrow
      have hid := (htask id row hrow).1
      show id < 2
      omega)
    (by
      intro id row hrow
      cases (hnone id).symm.trans hrow)
    rfl hagree hanswers
  exact ⟨v', hv', hunmoved⟩

end Lsstack
