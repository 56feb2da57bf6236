/-
The task page and the list.

A page shows the tasks of its user when it is loaded, and is kept in step by the answers to its
actions; polls catch up with what the worker has marked meanwhile.

* `Requests.ensures` — a request does what its handler ensures;
* `Displays` — the rows of a page show a user's tasks;
* **`InStep.step`** — a page stays in step with the tasks through an action;
* **`Browses.inStep`** — and so through any number of them;
* **`Browses.polled`** — polls bring the marks that were there when they began.
-/
import Lsstack.TaskPage

namespace Lsstack

open Concurrency

/-! ### One request -/

section Request

variable {isHash : String → String → Bool} {i : ℕ} {lo hi : Instant} {w w' : Db}

/-- There is one such view. -/
theorem alone_eq_seen {s : DbSession} (h : Alone i w s) : s = seen i w := by
  obtain ⟨committed, rows, seq, blocked⟩ := s
  have hcommitted : w.row = committed := funext h.committed
  have hrows : (fun k => (w.cell k).view i) = rows := funext h.rows
  have hblocked : (fun k => ¬ (w.cell k).Open i) = blocked := by
    funext k
    exact propext ((not_congr (h.unlocked k)).trans not_not)
  have hseq : w.seq = seq := h.seq
  subst hcommitted hrows hblocked hseq
  rfl

/-- **A request does what its handler ensures.** -/
theorem Requests.ensures {handler : Tx WebResponse} {r : Except Exn WebResponse}
    {Q : Except Exn WebResponse → DbSession → Prop}
    (h : Requests isHash i handler lo hi w r w') (hw : ∀ k, MarksOnly i k (w.cell k))
    (hp : handler.Ensures (beside isHash lo hi) (seen i w) Q) :
    (∀ k, MarksOnly i k (w'.cell k)) ∧ Q r (seen i w') := by
  obtain ⟨-, events, hrun⟩ := h
  let sees : Db → DbSession → Prop := fun w s => s = seen i w ∧ ∀ k, MarksOnly i k (w.cell k)
  have hstep : ∀ {w s w₁ c r w₂}, sees w s → WorkerActs isHash i w w₁ →
      Tries Fault.exn (outside isHash) (ClockWithin lo hi) i w₁ c r w₂ →
      ∃ s', beside isHash lo hi s c r s' ∧ sees w₂ s' := by
    rintro w s w₁ c r w₂ ⟨rfl, hw⟩ hacts htries
    obtain ⟨hw₁, hmarked⟩ := WorkerActs.marks hacts hw
    have hw₂ : ∀ k, MarksOnly i k (w₂.cell k) := by
      obtain ⟨x, -, he, -⟩ := htries
      exact fun k => (hw₁ k).own he
    obtain ⟨v, rfl, hreplies, halone⟩ | ⟨e, rfl, hfails, halone⟩ := (alone_seen i w₁).tries htries
    · exact ⟨_, ⟨seen i w₁, hmarked, .inl ⟨v, rfl, hreplies, rfl⟩⟩, alone_eq_seen halone, hw₂⟩
    · exact ⟨_, ⟨seen i w₁, hmarked, .inr ⟨e, rfl, hfails, rfl⟩⟩, alone_eq_seen halone, hw₂⟩
  obtain ⟨s', ⟨rfl, hw'⟩, hQ⟩ := hrun.ensures hstep ⟨rfl, hw⟩ hp
  exact ⟨hw', hQ⟩

end Request

/-! ### What every request leaves -/

section Rest

variable {isHash : String → String → Bool} {uni : Unicode} {codec : SqidsPublicIdCodec}
  {claims : SessionClaims} {request : WebRequest} {publicId : String} {i : ℕ} {lo hi : Instant}
  {s : DbSession} {w w' : Db}

/-- The time of a request ends its session or not. -/
theorem Rested.rejects {s' : DbSession} {t t' : Instant} (h : Rested s s') (ht : t ≤ t')
    (hrejects : Rejects claims t s) : Rejects claims t' s' := by
  rcases hrejects with hexpired | hversion
  · exact .inl (hexpired.trans ht)
  · refine .inr fun row hrow => hversion row ?_
    rw [← h.users]
    exact hrow

theorem Rested.trans {s₁ s₂ s₃ : DbSession} (h : Rested s₁ s₂) (h' : Rested s₂ s₃) :
    Rested s₁ s₃ :=
  ⟨h'.settled, fun id => (h'.users id).trans (h.users id), fun q => (h.seq q).trans (h'.seq q)⟩

/-- What is not a statement changes nothing. -/
theorem ensures_rested_bind {α : Type} {operation : CurrentUser → Tx α}
    {answer : Option (CurrentUser × α) → Tx WebResponse} (hrequest : request.session = some claims)
    (hs : s.rows = s.committed) (hissues : ∀ user, (operation user).Issues PageCommand)
    (hanswer : ∀ a, (answer a).Issues fun _ => False) :
    ((runTaskPage request operation).bind answer).Ensures (beside isHash lo hi) s
      fun _ s' => Rested s s' := by
  refine Program.ensures_bind.mpr ((ensures_runTaskPage_rested hrequest hs hissues).mono ?_)
  rintro (e | a) s' ⟨hrested, -⟩
  · exact hrested
  · exact (hanswer a).ensures (fun _ _ _ _ h => h.elim) hrested

theorem createTaskAction_rested (hrequest : request.session = some claims)
    (hs : s.rows = s.committed) {handler : Tx WebResponse}
    (hhandler : createTaskAction uni codec request = handler) :
    handler.Ensures (beside isHash lo hi) s fun _ s' => Rested s s' := by
  unfold createTaskAction at hhandler
  dsimp only at hhandler
  rcases eq_or_ne (taskForm request.form).errors [] with haccepted | hrefused
  · rw [if_neg (not_not.mpr haccepted)] at hhandler
    rw [← hhandler]
    refine ensures_rested_bind hrequest hs (fun user => issues_createTask.bind fun _ => .ret _)
      fun a => ?_
    rcases a with _ | ⟨user, created⟩
    · exact .ret _
    · dsimp only
      split
      · exact .ret _
      · exact (issues_liftExcept _).bind fun task => .ret _
  · rw [if_pos hrefused] at hhandler
    rw [← hhandler]
    refine ensures_rested_bind hrequest hs (fun user => issues_listTasks) fun a => ?_
    rcases a with _ | ⟨user, results⟩
    · exact .ret _
    · exact (issues_liftExcept _).bind fun tasks => .ret _

theorem toggleTaskAction_rested (hrequest : request.session = some claims)
    (hs : s.rows = s.committed) :
    (toggleTaskAction uni codec request publicId).Ensures (beside isHash lo hi) s
      fun _ s' => Rested s s' := by
  unfold toggleTaskAction
  rcases codec.decode publicId with e | taskId
  · exact Rested.refl hs
  refine ensures_rested_bind hrequest hs (fun user => issues_onTask fun _ => issues_toggleTask)
    fun a => ?_
  rcases a with _ | ⟨user, _ | result⟩
  · exact .ret _
  · exact .ret _
  · dsimp only
    split
    · exact (issues_liftExcept _).bind fun task => .ret _
    · exact .ret _

theorem deleteTaskAction_rested (hrequest : request.session = some claims)
    (hs : s.rows = s.committed) :
    (deleteTaskAction uni codec request publicId).Ensures (beside isHash lo hi) s
      fun _ s' => Rested s s' := by
  unfold deleteTaskAction
  rcases codec.decode publicId with e | taskId
  · exact Rested.refl hs
  refine ensures_rested_bind hrequest hs (fun user => issues_onTask fun _ => issues_deleteTask)
    fun a => ?_
  rcases a with _ | ⟨user, _ | result⟩
  · exact .ret _
  · exact .ret _
  · dsimp only
    split
    · exact .ret _
    · exact .ret _

theorem taskStatus_rested (hrequest : request.session = some claims)
    (hs : s.rows = s.committed) :
    (taskStatus codec request publicId).Ensures (beside isHash lo hi) s
      fun _ s' => Rested s s' := by
  unfold taskStatus
  rcases codec.decode publicId with e | taskId
  · exact Rested.refl hs
  refine ensures_rested_bind hrequest hs (fun user => issues_onTask fun _ => issues_getTask)
    fun a => ?_
  rcases a with _ | ⟨user, _ | result⟩
  · exact .ret _
  · exact .ret _
  · exact (issues_liftExcept _).bind fun task => .ret _

theorem PageAction.rested (action : PageAction) (hs : s.rows = s.committed) :
    (action.handler uni codec claims).Ensures (beside isHash lo hi) s fun _ s' => Rested s s' := by
  have hsession : ∀ form, (htmxRequest claims form).session = some claims := fun _ => rfl
  generalize hhandler : action.handler uni codec claims = handler
  rcases action with form | publicId | publicId | publicId
  · rw [PageAction.handler] at hhandler
    exact createTaskAction_rested (hsession form) hs hhandler
  · rw [← hhandler, PageAction.handler]
    exact toggleTaskAction_rested (hsession _) hs
  · rw [← hhandler, PageAction.handler]
    exact deleteTaskAction_rested (hsession _) hs
  · rw [← hhandler, PageAction.handler]
    exact taskStatus_rested (hsession _) hs

/-- How a world stands between two requests. -/
structure Between (i : ℕ) (w : Db) : Prop where
  marks : ∀ k, MarksOnly i k (w.cell k)
  settled : (seen i w).rows = (seen i w).committed

theorem Between.rested {handler : Tx WebResponse} {r : Except Exn WebResponse}
    (h : Between i w) (hrequest : Requests isHash i handler lo hi w r w')
    (hrested : handler.Ensures (beside isHash lo hi) (seen i w) fun _ s' => Rested (seen i w) s') :
    Between i w' ∧ Rested (seen i w) (seen i w') := by
  obtain ⟨hmarks, hrest⟩ := hrequest.ensures h.marks hrested
  exact ⟨⟨hmarks, hrest.settled⟩, hrest⟩

/-- And so do all requests of a page. -/
theorem Browses.rested {page page' : TaskPage} {t t' : Instant} {steps : List (PageAction × Bool)}
    (h : Browses isHash uni codec claims i page t w steps page' t' w') (hw : Between i w) :
    Between i w' ∧ Rested (seen i w) (seen i w') ∧ t ≤ t' := by
  induction h with
  | nil page t w => exact ⟨hw, .refl hw.settled, le_rfl⟩
  | cons offered request takes rest ih =>
    obtain ⟨hw₁, hrested₁⟩ := hw.rested request (PageAction.rested _ hw.settled)
    obtain ⟨hw', hrested', ht⟩ := ih hw₁
    exact ⟨hw', hrested₁.trans hrested', request.1.trans ht⟩

end Rest

/-! ### The rows of a page -/

/-- The row shows the task, but the task's mark may be newer. -/
structure TaskModel.OnRow (codec : SqidsPublicIdCodec) (id : ℕ) (model : TaskModel)
    (row : TaskRow) : Prop where
  publicId : codec.encode id = .ok row.publicId
  title : row.title = model.title
  description : row.description = model.description.filter (· ≠ "")
  completed : row.isCompleted = model.isCompleted
  marked : row.processed = true → model.backgroundProcessedAt.isSome

/-- The rows show the tasks of a user, newest first. -/
structure Displays (codec : SqidsPublicIdCodec) (s : DbSession) (userId : ℕ) (ids : List ℕ)
    (rows : List TaskRow) : Prop where
  listed : Listed s.rows userId ids
  shown : List.Forall₂ (fun id row => ∃ model, s.rows (.task id) = some model ∧
    model.OnRow codec id row) ids rows

/-- A pending row still has an answered poll ahead, or its task was not marked at `s₀`. -/
def Awaits (s₀ : DbSession) (polls : List (PageAction × Bool)) (id : ℕ) (row : TaskRow) : Prop :=
  row.processed = false → (.poll row.publicId, true) ∈ polls ∨
    ∀ model, s₀.rows (.task id) = some model → model.backgroundProcessedAt = none

section Rows

variable {codec : SqidsPublicIdCodec} {id userId : ℕ} {model : TaskModel} {row : TaskRow}
  {s s' : DbSession} {ids : List ℕ} {rows : List TaskRow} {publicId : String}

theorem TaskModel.ShownBy.onRow {view : TaskView} (h : model.ShownBy codec id view) :
    model.OnRow codec id view.taskRow where
  publicId := h.publicId
  title := h.title
  description := congrArg (Option.filter _) h.description
  completed := h.completed
  marked := h.marked

theorem TaskModel.OnRow.keeps {model' : TaskModel} (h : model.OnRow codec id row)
    (hkeeps : model.Keeps model') : model'.OnRow codec id row where
  publicId := h.publicId
  title := h.title.trans hkeeps.title.symm
  description := by rw [h.description, hkeeps.description]
  completed := h.completed.trans hkeeps.completed.symm
  marked := fun hrow => hkeeps.marked (h.marked hrow)

/-- A task has one row, but for the mark. -/
theorem TaskModel.OnRow.eq {row' : TaskRow} (h : model.OnRow codec id row)
    (h' : model.OnRow codec id row') (hprocessed : row.processed = row'.processed) :
    row = row' := by
  obtain ⟨publicId, title, description, isCompleted, processed⟩ := row
  obtain ⟨publicId', title', description', isCompleted', processed'⟩ := row'
  have hpublicId := Except.ok.inj (h.publicId.symm.trans h'.publicId)
  have htitle := h.title.trans h'.title.symm
  have hdescription := h.description.trans h'.description.symm
  have hcompleted := h.completed.trans h'.completed.symm
  dsimp only at hpublicId htitle hdescription hcompleted hprocessed
  rw [hpublicId, htitle, hdescription, hcompleted, hprocessed]

/-- One row is swapped for another. -/
theorem forall₂_outerHTML {R R' : ℕ → TaskRow → Prop} {f : TaskRow → TaskRow}
    (h : List.Forall₂ R ids rows) (hnodup : ids.Nodup)
    (hid : ∀ id' row, R id' row → (row.publicId = publicId ↔ id' = id))
    (hother : ∀ id' row, id' ≠ id → R id' row → R' id' row)
    (hrow : ∀ row, R id row → R' id (f row)) :
    List.Forall₂ R' ids (outerHTML publicId (fun row => [f row]) rows) := by
  induction h with
  | nil => exact .nil
  | @cons id' row ids rows hfirst hrest ih =>
    obtain ⟨hnew, hnodup⟩ := List.nodup_cons.mp hnodup
    rw [outerHTML]
    split
    · rename_i hpublicId
      obtain rfl := (hid id' row hfirst).mp hpublicId
      have hne : ∀ id ∈ ids, id ≠ id' := fun id hmem heq => hnew (heq ▸ hmem)
      refine .cons (hrow row hfirst) (((List.forall₂_and_left ids rows).mpr ⟨hne, hrest⟩).imp ?_)
      exact fun id row h => hother id row h.1 h.2
    · rename_i hpublicId
      exact .cons (hother id' row (fun heq => hpublicId ((hid id' row hfirst).mpr heq)) hfirst)
        (ih hnodup)

/-- One row is taken out. -/
theorem forall₂_outerHTML_nil {R R' : ℕ → TaskRow → Prop} (h : List.Forall₂ R ids rows)
    (hnodup : ids.Nodup) (hid : ∀ id' row, R id' row → (row.publicId = publicId ↔ id' = id))
    (hother : ∀ id' row, id' ≠ id → R id' row → R' id' row) :
    List.Forall₂ R' (ids.erase id) (outerHTML publicId (fun _ => []) rows) := by
  induction h with
  | nil => exact .nil
  | @cons id' row ids rows hfirst hrest ih =>
    obtain ⟨hnew, hnodup⟩ := List.nodup_cons.mp hnodup
    rw [outerHTML]
    split
    · rename_i hpublicId
      obtain rfl := (hid id' row hfirst).mp hpublicId
      have hne : ∀ id ∈ ids, id ≠ id' := fun id hmem heq => hnew (heq ▸ hmem)
      rw [List.erase_cons_head]
      refine ((List.forall₂_and_left ids rows).mpr ⟨hne, hrest⟩).imp ?_
      exact fun id row h => hother id row h.1 h.2
    · rename_i hpublicId
      have hne : id' ≠ id := fun heq => hpublicId ((hid id' row hfirst).mpr heq)
      rw [List.erase_cons_tail (by simpa using hne)]
      exact .cons (hother id' row hne hfirst) (ih hnodup)

namespace Displays

/-- The row of a task is found by its public id. -/
theorem publicId_iff (hencode : codec.encode id = .ok publicId) {id' : ℕ}
    (h : ∃ model, s.rows (.task id') = some model ∧ model.OnRow codec id' row) :
    row.publicId = publicId ↔ id' = id := by
  obtain ⟨model, -, honRow⟩ := h
  constructor
  · rintro rfl
    exact SqidsPublicIdCodec.encode_injective honRow.publicId hencode
  · rintro rfl
    exact Except.ok.inj (honRow.publicId.symm.trans hencode)

theorem keeps (hrel : Option.Rel TaskModel.Keeps (s.rows (.task id)) (s'.rows (.task id)))
    (h : ∃ model, s.rows (.task id) = some model ∧ model.OnRow codec id row) :
    ∃ model, s'.rows (.task id) = some model ∧ model.OnRow codec id row := by
  obtain ⟨model, hmodel, honRow⟩ := h
  rw [hmodel] at hrel
  generalize s'.rows (.task id) = v at hrel ⊢
  cases hrel with
  | some hkeeps => exact ⟨_, rfl, honRow.keeps hkeeps⟩

theorem marked (h : Displays codec s userId ids rows) (hmarked : Marked s s') :
    Displays codec s' userId ids rows :=
  ⟨h.listed.congr hmarked.places, h.shown.imp fun id _ => keeps (hmarked.tasks id)⟩

/-- The task of a row. -/
theorem find (h : Displays codec s userId ids rows) (hmem : row ∈ rows) :
    ∃ id model, id ∈ ids ∧ s.rows (.task id) = some model ∧ model.userId = userId ∧
      model.OnRow codec id row := by
  obtain ⟨listed, hshown⟩ := h
  have hfind : ∃ id ∈ ids, ∃ model, s.rows (.task id) = some model ∧ model.OnRow codec id row := by
    clear listed
    induction hshown with
    | nil => cases hmem
    | @cons id first ids rows hfirst hrest ih =>
      rcases List.mem_cons.mp hmem with rfl | hmem
      · exact ⟨id, List.mem_cons_self, hfirst⟩
      · obtain ⟨id', hid', hrow⟩ := ih hmem
        exact ⟨id', List.mem_cons_of_mem _ hid', hrow⟩
  obtain ⟨id, hid, model, hmodel, honRow⟩ := hfind
  obtain ⟨model', hmodel', howner⟩ := (listed.mem id).mp hid
  obtain rfl := Option.some_inj.mp (hmodel.symm.trans hmodel')
  exact ⟨id, model, hid, hmodel, howner, honRow⟩

/-- No place changes where one row keeps its own. -/
theorem places_of_only (h : OnlyTask id s s') {id' : ℕ} (hne : id' ≠ id) :
    (s'.rows (.task id')).map TaskModel.place = (s.rows (.task id')).map TaskModel.place := by
  have hrel := h id' hne
  generalize s.rows (.task id') = a at hrel ⊢
  generalize s'.rows (.task id') = b at hrel ⊢
  cases hrel with
  | none => rfl
  | some hkeeps => rw [Option.map_some, Option.map_some, TaskModel.place, TaskModel.place,
      hkeeps.owner, hkeeps.created]

/-- A new task is shown first. -/
theorem create (h : Displays codec s userId ids rows) {new : TaskModel}
    (hreplaces : Replaces id (some new) s s') (howner : new.userId = userId)
    (hfree : s.rows (.task id) = none) (hnewest : ∀ id' row, s.rows (.task id') = some row →
      row.createdAt ≤ new.createdAt ∧ id' < id) (hrow : new.OnRow codec id row) :
    Displays codec s' userId (id :: ids) (row :: rows) where
  listed := h.listed.cons hreplaces.row howner hfree
    (fun id' hne => places_of_only hreplaces.others hne) fun id' row hrow _ => hnewest id' row hrow
  shown := by
    have hne : ∀ id' ∈ ids, id' ≠ id := by
      rintro id' hmem rfl
      obtain ⟨row, hrow, -⟩ := (h.listed.mem id').mp hmem
      cases hrow.symm.trans hfree
    refine .cons ⟨new, hreplaces.row, hrow⟩ ?_
    refine ((List.forall₂_and_left ids rows).mpr ⟨hne, h.shown⟩).imp ?_
    exact fun id' row h => keeps (hreplaces.others id' h.1) h.2

/-- A task that keeps its place keeps its row's. -/
theorem toggle (h : Displays codec s userId ids rows) {new : TaskModel} {row' : TaskRow}
    (hreplaces : Replaces id (some new) s s') (hmodel : s.rows (.task id) = some model)
    (hencode : codec.encode id = .ok publicId) (htoggles : model.Toggles new)
    (hrow : new.OnRow codec id row') :
    Displays codec s' userId ids (outerHTML publicId (fun _ => [row']) rows) where
  listed := by
    refine h.listed.congr fun id' => ?_
    by_cases hne : id' = id
    · subst hne
      rw [hreplaces.row, hmodel, Option.map_some, Option.map_some, TaskModel.place, TaskModel.place,
        htoggles.owner, htoggles.created]
    · exact places_of_only hreplaces.others hne
  shown := forall₂_outerHTML h.shown h.listed.nodup (fun _ _ => publicId_iff hencode)
    (fun id' _ hne => keeps (hreplaces.others id' hne)) fun _ _ => ⟨new, hreplaces.row, hrow⟩

/-- A deleted task leaves the page. -/
theorem delete (h : Displays codec s userId ids rows) (hreplaces : Replaces id none s s')
    (hencode : codec.encode id = .ok publicId) :
    Displays codec s' userId (ids.erase id) (outerHTML publicId (fun _ => []) rows) where
  listed := h.listed.erase hreplaces.row fun _ hne => places_of_only hreplaces.others hne
  shown := forall₂_outerHTML_nil h.shown h.listed.nodup (fun _ _ => publicId_iff hencode)
    fun id' _ hne => keeps (hreplaces.others id' hne)

/-- A poll shows a mark that is there. -/
theorem poll (h : Displays codec s userId ids rows) (hmarked : Marked s s') {processed : Bool}
    (hencode : codec.encode id = .ok publicId) (hmodel : s'.rows (.task id) = some model)
    (hprocessed : processed = true → model.backgroundProcessedAt.isSome) :
    Displays codec s' userId ids
      (outerHTML publicId (fun row => [{ row with processed := processed }]) rows) where
  listed := h.listed.congr hmarked.places
  shown := by
    refine forall₂_outerHTML (h.marked hmarked).shown h.listed.nodup
      (fun _ _ => publicId_iff hencode) (fun _ _ _ hrow => hrow) fun row hrow => ?_
    obtain ⟨model', hmodel', honRow⟩ := hrow
    obtain rfl := Option.some_inj.mp (hmodel'.symm.trans hmodel)
    exact ⟨model', hmodel', honRow.publicId, honRow.title, honRow.description, honRow.completed,
      hprocessed⟩

end Displays

end Rows

/-! ### Steps -/

/-- The ids of the stored tasks are from the sequence, and their times are past. -/
structure Stored (t : Instant) (s : DbSession) : Prop where
  seq : 1 ≤ s.seq .tasks
  tasks : ∀ id row, s.rows (.task id) = some row →
    1 ≤ id ∧ id < s.seq .tasks ∧ row.createdAt ≤ t

namespace Stored

variable {s s' : DbSession} {t t' : Instant} {id : ℕ}

theorem numbered (h : Stored t s) : Numbered s := fun id row hrow => (h.tasks id row hrow).2.1

/-- Of a task that keeps its place. -/
theorem keeps (h : Stored t s) (hseq : ∀ q, s.seq q ≤ s'.seq q) (ht : t ≤ t')
    (hrel : Option.Rel TaskModel.Keeps (s.rows (.task id)) (s'.rows (.task id))) {row' : TaskModel}
    (hrow' : s'.rows (.task id) = some row') :
    1 ≤ id ∧ id < s'.seq .tasks ∧ row'.createdAt ≤ t' := by
  rw [hrow'] at hrel
  rcases hrow : s.rows (.task id) with _ | row
  · rw [hrow] at hrel
    cases hrel
  · rw [hrow] at hrel
    cases hrel with
    | some hkeeps =>
      obtain ⟨hpos, hlt, hcreated⟩ := h.tasks id row hrow
      exact ⟨hpos, hlt.trans_le (hseq _), (hkeeps.created.le.trans hcreated).trans ht⟩

theorem marked (h : Stored t s) (hmarked : Marked s s') (ht : t ≤ t') : Stored t' s' where
  seq := h.seq.trans (hmarked.seq _)
  tasks := fun id _ hrow => h.keeps hmarked.seq ht (hmarked.tasks id) hrow

/-- Where one row is written. -/
theorem replaces (h : Stored t s) {v : Option TaskModel} (hseq : ∀ q, s.seq q ≤ s'.seq q)
    (ht : t ≤ t') (hreplaces : Replaces id v s s') (hv : ∀ new, v = some new →
      1 ≤ id ∧ id < s'.seq .tasks ∧ new.createdAt ≤ t') : Stored t' s' where
  seq := h.seq.trans (hseq _)
  tasks := by
    intro id' row hrow
    by_cases hne : id' = id
    · subst hne
      exact hv row (hreplaces.row.symm.trans hrow)
    · exact h.keeps hseq ht (hreplaces.others id' hne) hrow

end Stored

/-- A page in step with the tasks of its user, at some time. -/
structure InStep (codec : SqidsPublicIdCodec) (claims : SessionClaims) (i : ℕ) (t : Instant)
    (w : Db) (ids : List ℕ) (rows : List TaskRow) : Prop where
  between : Between i w
  stored : Stored t (seen i w)
  displays : Displays codec (seen i w) claims.userId ids rows

section Steps

variable {isHash : String → String → Bool} {uni : Unicode} {codec : SqidsPublicIdCodec}
  {claims : SessionClaims} {i : ℕ} {lo hi : Instant} {w w' : Db} {page page' : TaskPage}
  {ids : List ℕ} {row : TaskRow} {publicId : String}

/-- `HX-Request: true`. -/
theorem isHtmx_htmxRequest (form : Form) : isHtmx uni (htmxRequest claims form) = true := by
  have hfold : uni.casefold "true" = "true" :=
    uni.casefold_ascii _ (List.all_iff_forall_prop.mp (by decide))
  show (uni.casefold "true" == "true") = true
  rw [hfold]
  rfl

/-- The public id of a row names its task. -/
theorem InStep.names (h : InStep codec claims i lo w ids page.rows)
    (hbigint : (seen i w).seq .tasks ≤ 2 ^ 63) (hrow : row ∈ page.rows) :
    ∃ id model, id ∈ ids ∧ model.OnRow codec id row ∧
      Names codec (seen i w) claims.userId row.publicId id model := by
  obtain ⟨id, model, hid, hmodel, howner, honRow⟩ := h.displays.find hrow
  obtain ⟨hpos, hlt, -⟩ := h.stored.tasks id model hmodel
  have hmax : id ≤ maxsize := by
    rw [maxsize]
    omega
  obtain ⟨publicId, hencode, hdecode⟩ := codec.decode_encode hpos hmax
  obtain rfl := Except.ok.inj (hencode.symm.trans honRow.publicId)
  exact ⟨id, model, hid, honRow, hdecode, hencode, hmodel, howner⟩

/-- Nothing has happened but what the worker does. -/
theorem InStep.marked {rows : List TaskRow} (h : InStep codec claims i lo w ids rows)
    (hbetween : Between i w') (hmarked : Marked (seen i w) (seen i w')) (ht : lo ≤ hi) :
    InStep codec claims i hi w' ids rows :=
  ⟨hbetween, h.stored.marked hmarked ht, h.displays.marked hmarked⟩

/-- What a step makes of the tasks, of the page and of the placeholder. -/
def Advances (codec : SqidsPublicIdCodec) (claims : SessionClaims) (i : ℕ) (t : Instant) (w : Db)
    (ids : List ℕ) (page page' : TaskPage) (steps : List (PageAction × Bool)) : Prop :=
  ∃ ids', InStep codec claims i t w ids' page'.rows ∧
    ids'.length + deletedTasks steps = ids.length + createdTasks steps ∧
    (page'.emptyState = true ↔ page.emptyState = true ∧ createdTasks steps = 0)

variable {r : Except Exn WebResponse}

/-- A step that shows the same, of the same tasks. -/
theorem InStep.rests {action : PageAction} {answered : Bool}
    (h : InStep codec claims i lo w ids page.rows)
    (hbetween : Between i w') (hmarked : Marked (seen i w) (seen i w')) (ht : lo ≤ hi)
    (hcreated : createdTasks [(action, answered)] = 0)
    (hdeleted : deletedTasks [(action, answered)] = 0) :
    Advances codec claims i hi w' ids page page [(action, answered)] := by
  refine ⟨ids, h.marked hbetween hmarked ht, ?_, ?_⟩
  · rw [hcreated, hdeleted]
  · rw [hcreated]
    simp

/-- What is not answered counts for nothing. -/
theorem createdTasks_unanswered (action : PageAction) : createdTasks [(action, false)] = 0 := by
  cases action <;> rfl

theorem deletedTasks_unanswered (action : PageAction) : deletedTasks [(action, false)] = 0 := by
  cases action <;> rfl

theorem InStep.unanswered {action : PageAction} {e : Exn}
    (h : InStep codec claims i lo w ids page.rows) (hbetween : Between i w')
    (hmarked : Marked (seen i w) (seen i w')) (ht : lo ≤ hi)
    (takes : page.takes action (.error e) = some page') :
    Advances codec claims i hi w' ids page page' [(action, false)] := by
  obtain rfl := Option.some_inj.mp takes
  exact h.rests hbetween hmarked ht (createdTasks_unanswered action)
    (deletedTasks_unanswered action)

theorem createdTasks_create {form : Form} (haccepted : (taskForm form).errors = []) :
    createdTasks [(.create form, true)] = 1 := by
  simp [createdTasks, haccepted]

theorem createdTasks_refused {form : Form} (hrefused : (taskForm form).errors ≠ [])
    (answered : Bool) : createdTasks [(.create form, answered)] = 0 := by
  simp [createdTasks, hrefused]

theorem InStep.create {form : Form} (h : InStep codec claims i lo w ids page.rows)
    (hvalid : ¬ Rejects claims hi (seen i w)) (hbigint : (seen i w').seq .tasks ≤ 2 ^ 63)
    {handler : Tx WebResponse}
    (hhandler : createTaskAction uni codec (htmxRequest claims form) = handler)
    (request : Requests isHash i handler lo hi w r w')
    (takes : page.takes (.create form) r = some page') :
    Advances codec claims i hi w' ids page page' [(.create form, r.isOk)] := by
  have hsession : (htmxRequest claims form).session = some claims := rfl
  have hhtmx : isHtmx uni (htmxRequest claims form) = true := isHtmx_htmxRequest form
  have hs := h.between.settled
  have ht := request.1
  rcases eq_or_ne (taskForm (htmxRequest claims form).form).errors [] with haccepted | hrefused
  · obtain ⟨hmarks, hrested, herror, hok⟩ := request.ensures h.between.marks
      (ensures_createTaskAction hsession hhtmx hs hvalid h.stored.numbered haccepted hhandler)
    have hbetween : Between i w' := ⟨hmarks, hrested.settled⟩
    rcases r with e | response
    · obtain hmarked | ⟨id, hle, hlt, hunencodable⟩ := herror e rfl
      · exact h.unanswered hbetween hmarked ht takes
      · -- an id that has no text is beyond those of the sequence
        have hmax : id ≤ maxsize := by
          rw [maxsize]
          omega
        obtain ⟨publicId, hencode, -⟩ := codec.decode_encode (h.stored.seq.trans hle) hmax
        exact absurd hencode (hunencodable publicId)
    · obtain ⟨user, view, id, new, rfl, hreplaces, hle, hlt, howner, hlo, hhi, hshown⟩ :=
        hok response rfl
      obtain rfl := Option.some_inj.mp takes
      -- the new id is above all that are stored, so the task comes first on the page
      have hbelow : ∀ id' row, (seen i w).rows (.task id') = some row → id' < id :=
        fun id' row hrow => (h.stored.numbered id' row hrow).trans_le hle
      have hfree : (seen i w).rows (.task id) = none := by
        rcases hrow : (seen i w).rows (.task id) with _ | row
        · rfl
        · exact absurd (hbelow id row hrow) (lt_irrefl id)
      have hnewest : ∀ id' row, (seen i w).rows (.task id') = some row →
          row.createdAt ≤ new.createdAt ∧ id' < id :=
        fun id' row hrow => ⟨(h.stored.tasks id' row hrow).2.2.trans hlo, hbelow id' row hrow⟩
      have hcreated : createdTasks [(.create form, true)] = 1 := createdTasks_create haccepted
      refine ⟨id :: ids, ⟨hbetween, ?_, ?_⟩, hcreated.symm ▸ rfl, ?_⟩
      · refine h.stored.replaces hrested.seq ht hreplaces fun _ heq => ?_
        obtain rfl := Option.some_inj.mp heq
        exact ⟨h.stored.seq.trans hle, hlt, hhi⟩
      · exact h.displays.create hreplaces howner hfree hnewest hshown.onRow
      · show false = true ↔ _ ∧ createdTasks [(.create form, true)] = 0
        rw [hcreated]
        simp
  -- a form with errors is answered with the form, and nothing is stored
  · obtain ⟨hmarks, hrested, hmarked, hok⟩ := request.ensures h.between.marks
      (ensures_createTaskAction_refused hsession hhtmx hs hvalid hrefused hhandler)
    have hbetween : Between i w' := ⟨hmarks, hrested.settled⟩
    rcases r with e | response
    · exact h.unanswered hbetween hmarked ht takes
    · obtain ⟨context, rfl⟩ := hok response rfl
      obtain rfl := Option.some_inj.mp takes
      exact h.rests hbetween hmarked ht (createdTasks_refused hrefused _) rfl

theorem InStep.toggle (h : InStep codec claims i lo w ids page.rows)
    (offered : page.Offers (.toggle publicId)) (hvalid : ¬ Rejects claims hi (seen i w))
    (hbigint : (seen i w).seq .tasks ≤ 2 ^ 63)
    (request : Requests isHash i
      (toggleTaskAction uni codec (htmxRequest claims fun _ => none) publicId) lo hi w r w')
    (takes : page.takes (.toggle publicId) r = some page') :
    Advances codec claims i hi w' ids page page' [(.toggle publicId, r.isOk)] := by
  obtain ⟨row, hrow, rfl⟩ := offered
  obtain ⟨id, model, hid, honRow, hnames⟩ := h.names hbigint hrow
  obtain ⟨hmarks, hrested, herror, hok⟩ := request.ensures h.between.marks
    (ensures_toggleTaskAction rfl (isHtmx_htmxRequest _) h.between.settled hvalid hnames)
  have hbetween : Between i w' := ⟨hmarks, hrested.settled⟩
  rcases r with e | response
  · exact h.unanswered hbetween (herror e rfl) request.1 takes
  · obtain ⟨user, view, new, rfl, hreplaces, htoggles, hshown⟩ := hok response rfl
    obtain rfl := Option.some_inj.mp takes
    obtain ⟨hpos, hlt, hcreated⟩ := h.stored.tasks id model hnames.stored
    refine ⟨ids, ⟨hbetween, ?_, ?_⟩, rfl, ?_⟩
    · refine h.stored.replaces hrested.seq request.1 hreplaces fun _ heq => ?_
      obtain rfl := Option.some_inj.mp heq
      exact ⟨hpos, hlt.trans_le (hrested.seq _),
        (htoggles.created.le.trans hcreated).trans request.1⟩
    · exact h.displays.toggle hreplaces hnames.stored hnames.encode htoggles hshown.onRow
    · exact (and_iff_left rfl).symm

theorem InStep.delete (h : InStep codec claims i lo w ids page.rows)
    (offered : page.Offers (.delete publicId)) (hvalid : ¬ Rejects claims hi (seen i w))
    (hbigint : (seen i w).seq .tasks ≤ 2 ^ 63)
    (request : Requests isHash i
      (deleteTaskAction uni codec (htmxRequest claims fun _ => none) publicId) lo hi w r w')
    (takes : page.takes (.delete publicId) r = some page') :
    Advances codec claims i hi w' ids page page' [(.delete publicId, r.isOk)] := by
  obtain ⟨row, hrow, rfl⟩ := offered
  obtain ⟨id, model, hid, honRow, hnames⟩ := h.names hbigint hrow
  obtain ⟨hmarks, hrested, herror, hok⟩ := request.ensures h.between.marks
    (ensures_deleteTaskAction rfl (isHtmx_htmxRequest _) h.between.settled hvalid hnames)
  have hbetween : Between i w' := ⟨hmarks, hrested.settled⟩
  rcases r with e | response
  · exact h.unanswered hbetween (herror e rfl) request.1 takes
  · obtain ⟨rfl, hreplaces⟩ := hok response rfl
    obtain rfl := Option.some_inj.mp takes
    refine ⟨ids.erase id, ⟨hbetween, ?_, ?_⟩, ?_, ?_⟩
    · exact h.stored.replaces hrested.seq request.1 hreplaces fun _ heq => by cases heq
    · exact h.displays.delete hreplaces hnames.encode
    · show (ids.erase id).length + 1 = ids.length + 0
      rw [List.length_erase_add_one hid]
      rfl
    · exact (and_iff_left rfl).symm

/-- A poll keeps the tasks, and brings the mark that was there when it was sent. -/
theorem InStep.polled (h : InStep codec claims i lo w ids page.rows)
    (offered : page.Offers (.poll publicId)) (hvalid : ¬ Rejects claims hi (seen i w))
    (hbigint : (seen i w).seq .tasks ≤ 2 ^ 63)
    (request : Requests isHash i
      (taskStatus codec (htmxRequest claims fun _ => none) publicId) lo hi w r w')
    (takes : page.takes (.poll publicId) r = some page') :
    InStep codec claims i hi w' ids page'.rows ∧ Marked (seen i w) (seen i w') ∧
      page'.emptyState = page.emptyState ∧
      ∀ {s₀ polls}, Marked s₀ (seen i w) →
        List.Forall₂ (Awaits s₀ ((.poll publicId, r.isOk) :: polls)) ids page.rows →
        List.Forall₂ (Awaits s₀ polls) ids page'.rows := by
  obtain ⟨row, hrow, rfl, -⟩ := offered
  obtain ⟨id, model, hid, honRow, hnames⟩ := h.names hbigint hrow
  obtain ⟨hmarks, hrested, hmarked, hok⟩ := request.ensures h.between.marks
    (ensures_taskStatus rfl h.between.settled hvalid hnames)
  have hbetween : Between i w' := ⟨hmarks, hrested.settled⟩
  rcases r with e | response
  -- a poll that fails does not show on the page
  · obtain rfl := Option.some_inj.mp takes
    refine ⟨h.marked hbetween hmarked request.1, hmarked, rfl, fun {s₀ polls} _ hawaits =>
      hawaits.imp fun id' row' hrow' hpending => (hrow' hpending).imp_left fun hmem => ?_⟩
    rcases List.mem_cons.mp hmem with heq | hmem
    · cases congrArg Prod.snd heq
    · exact hmem
  obtain ⟨user, view, model', rfl, hmodel', hshown, hmark⟩ := hok response rfl
  obtain rfl := Option.some_inj.mp takes
  refine ⟨⟨hbetween, h.stored.marked hmarked request.1,
    h.displays.poll hmarked hnames.encode hmodel' hshown.marked⟩, hmarked, rfl, ?_⟩
  -- every row still awaits its mark, except where this poll has shown it
  intro s₀ polls hsince hawaits
  have hboth := List.Forall₂.mp (fun id row hawaits hrow => And.intro hrow hawaits) hawaits
    h.displays.shown
  refine forall₂_outerHTML hboth h.displays.listed.nodup
    (fun id' row h => Displays.publicId_iff hnames.encode h.1) ?_ ?_
  · rintro id' row' hne ⟨honRow', hawaits'⟩ hpending
    refine (hawaits' hpending).imp_left fun hmem => ?_
    rcases List.mem_cons.mp hmem with heq | hmem
    · have hpublicId : row'.publicId = row.publicId := PageAction.poll.inj (congrArg Prod.fst heq)
      exact absurd ((Displays.publicId_iff hnames.encode honRow').mp hpublicId) hne
    · exact hmem
  · -- a mark of `s₀` is there when the poll is sent
    rintro row' - hpending
    refine .inr fun model₀ hmodel₀ => Option.not_isSome_iff_eq_none.mp fun hmark₀ => ?_
    obtain ⟨model₁, hmodel₁, hkeeps⟩ := hsince.task hmodel₀
    obtain rfl := Option.some_inj.mp (hmodel₁.symm.trans hnames.stored)
    have hview := hmark (hkeeps.marked hmark₀)
    exact Bool.false_ne_true (hpending.symm.trans hview)

theorem InStep.poll (h : InStep codec claims i lo w ids page.rows)
    (offered : page.Offers (.poll publicId)) (hvalid : ¬ Rejects claims hi (seen i w))
    (hbigint : (seen i w).seq .tasks ≤ 2 ^ 63)
    (request : Requests isHash i
      (taskStatus codec (htmxRequest claims fun _ => none) publicId) lo hi w r w')
    (takes : page.takes (.poll publicId) r = some page') :
    Advances codec claims i hi w' ids page page' [(.poll publicId, r.isOk)] := by
  obtain ⟨hinStep, -, hempty, -⟩ := h.polled offered hvalid hbigint request takes
  refine ⟨ids, hinStep, rfl, ?_⟩
  rw [hempty]
  exact (and_iff_left rfl).symm

/-- **One step.** -/
theorem InStep.step {action : PageAction} (h : InStep codec claims i lo w ids page.rows)
    (offered : page.Offers action) (hvalid : ¬ Rejects claims hi (seen i w))
    (hseq : (seen i w).seq .tasks ≤ (seen i w').seq .tasks)
    (hbigint : (seen i w').seq .tasks ≤ 2 ^ 63)
    (request : Requests isHash i (action.handler uni codec claims) lo hi w r w')
    (takes : page.takes action r = some page') :
    Advances codec claims i hi w' ids page page' [(action, r.isOk)] := by
  generalize hhandler : action.handler uni codec claims = handler at request
  cases action with
  | create form =>
    rw [PageAction.handler] at hhandler
    exact h.create hvalid hbigint hhandler request takes
  | toggle publicId =>
    rw [← hhandler, PageAction.handler] at request
    exact h.toggle offered hvalid (hseq.trans hbigint) request takes
  | delete publicId =>
    rw [← hhandler, PageAction.handler] at request
    exact h.delete offered hvalid (hseq.trans hbigint) request takes
  | poll publicId =>
    rw [← hhandler, PageAction.handler] at request
    exact h.poll offered hvalid (hseq.trans hbigint) request takes

/-! Runs. -/

theorem createdTasks_cons (step : PageAction × Bool) (steps : List (PageAction × Bool)) :
    createdTasks (step :: steps) = createdTasks [step] + createdTasks steps := by
  show createdTasks ([step] ++ steps) = _
  exact List.countP_append

theorem deletedTasks_cons (step : PageAction × Bool) (steps : List (PageAction × Bool)) :
    deletedTasks (step :: steps) = deletedTasks [step] + deletedTasks steps := by
  show deletedTasks ([step] ++ steps) = _
  exact List.countP_append

/-- What has happened before the rest of a run. -/
theorem Between.first {action : PageAction} {steps : List (PageAction × Bool)} {t' : Instant}
    {w₁ : Db} {page₁ : TaskPage} {r : Except Exn WebResponse} (hw : Between i w)
    (request : Requests isHash i (action.handler uni codec claims) lo hi w r w₁)
    (rest : Browses isHash uni codec claims i page₁ hi w₁ steps page' t' w')
    (hvalid : ¬ Rejects claims t' (seen i w')) (hbigint : (seen i w').seq .tasks ≤ 2 ^ 63) :
    Between i w₁ ∧ ¬ Rejects claims hi (seen i w) ∧
      (seen i w).seq .tasks ≤ (seen i w₁).seq .tasks ∧ (seen i w₁).seq .tasks ≤ 2 ^ 63 := by
  obtain ⟨hw₁, hrested₁⟩ := hw.rested request (PageAction.rested _ hw.settled)
  obtain ⟨-, hrested', ht⟩ := rest.rested hw₁
  exact ⟨hw₁, fun hrejects => hvalid ((hrested₁.trans hrested').rejects ht hrejects),
    hrested₁.seq _, (hrested'.seq _).trans hbigint⟩

/-- **Every page that is browsed stays in step.** -/
theorem Browses.inStep {steps : List (PageAction × Bool)} {t t' : Instant}
    (hrun : Browses isHash uni codec claims i page t w steps page' t' w')
    (h : InStep codec claims i t w ids page.rows) (hvalid : ¬ Rejects claims t' (seen i w'))
    (hbigint : (seen i w').seq .tasks ≤ 2 ^ 63) :
    Advances codec claims i t' w' ids page page' steps := by
  induction hrun generalizing ids with
  | nil page t w => exact ⟨ids, h, rfl, (and_iff_left rfl).symm⟩
  | @cons page page₁ page' lo hi t' w w₁ w' action r steps offered request takes rest ih =>
    obtain ⟨-, hvalid₁, hseq, hbigint₁⟩ := h.between.first request rest hvalid hbigint
    obtain ⟨ids₁, h₁, hlength₁, hempty₁⟩ := h.step offered hvalid₁ hseq hbigint₁ request takes
    obtain ⟨ids', h', hlength', hempty'⟩ := ih h₁ hvalid hbigint
    refine ⟨ids', h', ?_, ?_⟩
    · rw [createdTasks_cons, deletedTasks_cons]
      omega
    · rw [createdTasks_cons, Nat.add_eq_zero_iff, hempty', hempty₁, and_assoc]

/-- And its polls bring the marks that were there when they began. -/
theorem Browses.polled {polls : List (PageAction × Bool)} {t t' : Instant} {s₀ : DbSession}
    (hrun : Browses isHash uni codec claims i page t w polls page' t' w')
    (hpolls : ∀ step ∈ polls, ∃ publicId, step.1 = .poll publicId)
    (h : InStep codec claims i t w ids page.rows) (hvalid : ¬ Rejects claims t' (seen i w'))
    (hbigint : (seen i w').seq .tasks ≤ 2 ^ 63) (hsince : Marked s₀ (seen i w))
    (hawaits : List.Forall₂ (Awaits s₀ polls) ids page.rows) :
    InStep codec claims i t' w' ids page'.rows ∧ page'.emptyState = page.emptyState ∧
      Marked s₀ (seen i w') ∧ List.Forall₂ (Awaits s₀ []) ids page'.rows := by
  induction hrun with
  | nil page t w => exact ⟨h, rfl, hsince, hawaits⟩
  | @cons page page₁ page' lo hi t' w w₁ w' action r polls offered request takes rest ih =>
    obtain ⟨hpoll, hrest⟩ := List.forall_mem_cons.mp hpolls
    obtain ⟨publicId, rfl⟩ : ∃ publicId, action = .poll publicId := hpoll
    obtain ⟨-, hvalid₁, hseq, hbigint₁⟩ := h.between.first request rest hvalid hbigint
    obtain ⟨h₁, hmarked, hempty, hawaits₁⟩ :=
      h.polled offered hvalid₁ (hseq.trans hbigint₁) request takes
    obtain ⟨h', hempty', hsince', hawaits'⟩ := ih hrest h₁ hvalid hbigint (hsince.trans hmarked)
      (hawaits₁ hsince hawaits)
    exact ⟨h', hempty'.trans hempty, hsince', hawaits'⟩

end Steps

end Lsstack
