/-
Concurrent edits of one task as a serial execution.

An edit flushes the difference between what it computed from its first read and
what it found at its second, over whatever row is there by then.  Where the
three agree in the columns that matter (`UserEdit.Fresh`), the commit is that
of the edit alone:

* **`merge_fields_iff`** — a flush does the edit exactly if it is fresh;
* **`serialisable_of_fresh`** — a run of fresh commits is serialisable;
* **`serialisable_violated`** — two toggles that both read the open task.
-/
import Lsstack.TaskWriteOnce

namespace Lsstack

open Concurrency

/-! ### Edits one after another -/

/-- What users see and change of a task. -/
structure UserFields where
  title : String
  description : Option String
  isCompleted : Bool
  deriving DecidableEq

def TaskModel.fields (row : TaskModel) : UserFields :=
  ⟨row.title, row.description, row.isCompleted⟩

/-- An edit or a toggle on its own. -/
def UserEdit.apply : UserEdit → UserFields → UserFields
  | .edit title description, fields =>
    { fields with title := title, description := description }
  | .toggle, fields => { fields with isCompleted := !fields.isCompleted }

/-- The edits of a list, one after another. -/
def UserEdit.applyAll (ops : List UserEdit) (fields : UserFields) : UserFields :=
  ops.foldl (fun fields op => op.apply fields) fields

/-- Each toggle flips the completion, an edit does not touch it. -/
theorem UserEdit.applyAll_isCompleted (ops : List UserEdit) (fields : UserFields) :
    (UserEdit.applyAll ops fields).isCompleted =
      (fields.isCompleted ^^ decide (ops.count .toggle % 2 = 1)) := by
  induction ops generalizing fields with
  | nil => simp [applyAll]
  | cons op ops ih =>
    rw [applyAll, List.foldl_cons]
    refine (ih (op.apply fields)).trans ?_
    cases op with
    | edit title description => simp [apply]
    | toggle =>
      rw [List.count_cons_self, apply]
      rcases Nat.mod_two_eq_zero_or_one (ops.count .toggle) with h | h <;>
        cases fields.isCompleted <;> simp [h, Nat.add_mod]

/-! ### One commit -/

/-- What an edit that read `s` and then `l` may find under its flush. -/
def UserEdit.Fresh (s l row : TaskModel) : UserEdit → Prop
  | .edit title description =>
    (title = l.title → row.title = title) ∧
    (description = l.description → row.description = description) ∧
    (s.isCompleted = l.isCompleted ∨ s.isCompleted = row.isCompleted)
  | .toggle =>
    (s.title = l.title ∨ s.title = row.title) ∧
    (s.description = l.description ∨ s.description = row.description) ∧
    s.isCompleted = l.isCompleted ∧ s.isCompleted = row.isCompleted

instance (op : UserEdit) (s l row : TaskModel) : Decidable (op.Fresh s l row) :=
  match op with
  | .edit _ _ => inferInstanceAs (Decidable (_ ∧ _ ∧ _))
  | .toggle => inferInstanceAs (Decidable (_ ∧ _ ∧ _))

/-- **A flush does the edit exactly if the edit is fresh.** -/
theorem merge_fields_iff (op : UserEdit) (s l row : TaskModel) (stamp : Instant) :
    (TaskModel.merge l (op.assign s l stamp) row).fields = op.apply row.fields ↔
      op.Fresh s l row := by
  have hcolumn : ∀ {α : Type} [DecidableEq α] (loaded assigned row value : α),
      column loaded assigned row = value ↔
        (assigned = loaded → row = value) ∧ (assigned ≠ loaded → assigned = value) := by
    intro α _ loaded assigned row value
    unfold column
    split <;> simp_all
  cases op with
  | edit title description =>
    simp only [TaskModel.fields, TaskModel.merge, UserEdit.assign, UserEdit.apply,
      UserFields.mk.injEq, hcolumn, UserEdit.Fresh]
    tauto
  | toggle =>
    simp only [TaskModel.fields, TaskModel.merge, UserEdit.assign, UserEdit.apply,
      UserFields.mk.injEq, hcolumn, UserEdit.Fresh]
    cases s.isCompleted <;> cases l.isCompleted <;> cases row.isCompleted <;> simp <;> tauto

/-! ### Runs -/

/-- The edits and toggles of one user on one task. -/
def Request.EditsTask (userId taskId : ℕ) : Request → Prop
  | .edit userId' taskId' _ _ => userId' = userId ∧ taskId' = taskId
  | .toggle userId' taskId' => userId' = userId ∧ taskId' = taskId
  | _ => False

theorem Request.EditsTask.writesTask {userId taskId : ℕ} {q : Request}
    (h : q.EditsTask userId taskId) : q.WritesTask := by
  cases q <;> first | exact trivial | exact h.elim

theorem Request.EditsTask.task {userId taskId : ℕ} {q : Request}
    (h : q.EditsTask userId taskId) : q.task = some taskId := by
  cases q <;> first | exact congrArg some h.2 | exact h.elim

theorem Request.EditsTask.isSome {userId taskId : ℕ} {q : Request}
    (h : q.EditsTask userId taskId) : q.userEdit.isSome := by
  cases q <;> first | exact rfl | exact h.elim

/-- Runs of those transactions, any number of them, interleaved in any way. -/
abbrev EditRun (userId taskId : ℕ) : Type :=
  DbRun (fun _ _ => false) Request.code fun _ q => q.EditsTask userId taskId

/-- The accepted edits of a list of requests. -/
def userEdits (requests : List Request) : List UserEdit :=
  requests.filterMap fun q =>
    match q.userEdit with
    | some (.ok op) => some op
    | _ => none

/-- The committed transactions, run alone in some order, give the same task. -/
def Serialisable (taskId : ℕ) (cfg₀ cfg : TaskConfig) : Prop :=
  ∃ order : List Request, order.Perm (committed cfg) ∧
    (cfg.world.row (.task taskId)).map TaskModel.fields =
      (cfg₀.world.row (.task taskId)).map fun row =>
        UserEdit.applyAll (userEdits order) row.fields

/-- If the step commits an edit, the edit is fresh. -/
def FreshCommit (taskId : ℕ) (cfg cfg' : TaskConfig) : Prop :=
  ∀ i out p op s l row, cfg'.world.log = (i, out) :: cfg.world.log → cfg.procs i = some p →
    p.request.userEdit = some (.ok op) → taskReads p.calls = [l, s] →
    cfg.world.row (.task taskId) = some row → op.Fresh s l row

/-- Each process keeps its locks. -/
theorem edits_relyGuarantee (userId taskId : ℕ) :
    RelyGuarantee taskMachine (fun _ q => q.EditsTask userId taskId) editing .idle
      (fun _ _ _ => True) (fun _ _ => True) (fun _ => True)
      (fun i w w' => ∀ k, (w.cell k).Moves i (w'.cell k))
      (fun w i p g => EditAsserts w i p g ∧
        ∀ p', p = some p' → p'.request.EditsTask userId taskId) where
  start := fun {_ _ q} _ _ hq ha =>
    ⟨q.editGhost, hq.writesTask.meets, ha.1.start q _, fun p' hp => by cases hp; exact hq⟩
  act := by
    intro cfg i q calls c k x r w g _ _ ha hg he _
    refine ⟨trivial, trivial, exec_moves he, ?_⟩
    rintro g' rfl
    exact ⟨ha.1.act hg he, fun p' hp => by cases hp; exact ha.2 ⟨q, calls, _⟩ rfl⟩
  crash := by
    intro w i q calls c k g _ ha
    exact ⟨trivial, release_moves, ⟨g.op, g.task, g.marks, .closed⟩, ha.1.crash,
      fun p' hp => by cases hp; exact ha.2 ⟨q, calls, some (.call c k)⟩ rfl⟩
  stable := fun hij _ hrel ha => ⟨ha.1.frame hrel hij, ha.2⟩

/-- What the commit of a fresh edit does to the user's fields. -/
theorem commit_fields {w : Db} {i : ℕ} {g : EditGhost} {out : Outcome}
    {p : Process Command Command.Reply Exn Request Response} {userId taskId : ℕ}
    (ha : EditAsserts w i (some p) g) (hguard : editGuard g (.commit out))
    (hq : p.request.EditsTask userId taskId)
    (hfresh : ∀ op s l row, p.request.userEdit = some (.ok op) → taskReads p.calls = [l, s] →
      w.row (.task taskId) = some row → op.Fresh s l row) :
    ∃ op, p.request.userEdit = some (.ok op) ∧
      ((w.cell (.task taskId)).view i).map TaskModel.fields =
        (w.row (.task taskId)).map fun row => op.apply row.fields := by
  obtain ⟨op, s, l, stamp, hop, hreads, hcommit⟩ := ha.commit_edit hguard hq.isSome hq.task
  refine ⟨op, hop, ?_⟩
  obtain ⟨-, hsame, hview⟩ | ⟨-, row, hrow, hview⟩ := hcommit
  · rw [hview]
    rcases hrow : w.row (.task taskId) with _ | row
    · rfl
    · have hmerge := (merge_fields_iff op s l row stamp).mpr (hfresh op s l row hop hreads hrow)
      rw [hsame] at hmerge
      simpa [TaskModel.merge, column, TaskModel.fields] using hmerge
  · rw [hview, hrow, Option.map_some, Option.map_some,
      (merge_fields_iff op s l row stamp).mpr (hfresh op s l row hop hreads hrow)]

/-- In a run of fresh commits the edits take effect in the order of their
commits. -/
theorem fields_eq_applyAll {userId taskId : ℕ} (run : EditRun userId taskId)
    (h : ∀ n, FreshCommit taskId (run.state n) (run.state (n + 1))) (n : ℕ) :
    ((run.state n).world.row (.task taskId)).map TaskModel.fields =
      ((run.state 0).world.row (.task taskId)).map fun row =>
        UserEdit.applyAll (userEdits (committed (run.state n)).reverse) row.fields := by
  induction n with
  | zero =>
    have hnone : committed (run.state 0) = [] := by rw [committed, run.unlogged]; rfl
    rw [hnone]
    rfl
  | succ n ih =>
    rcases run.next n with hn | hn
    · rw [hn]
      exact ih
    have hholds := (edits_relyGuarantee userId taskId).run run.toRun trivial
      (fun i => ⟨.idle fun k => (by rw [run.unlocked k]; intro h; cases h),
        fun _ hp => by cases hp⟩)
      n fun _ _ => trivial
    obtain ⟨hrows, hlog⟩ | ⟨i, p, out, g, hp, hw, hguard, ha, hq⟩ := commit_cases hholds hn
    · rw [hrows, committed_of_log_eq (run.arrived n) hn hlog, ih]
    · replace hguard : editGuard g (.commit out) := hguard
      have hlog : (run.state (n + 1)).world.log = (i, out) :: (run.state n).world.log := by
        rw [hw]
        rfl
      obtain ⟨op, hop, hfields⟩ := commit_fields ha hguard (hq p rfl)
        fun op s l row hop hreads hrow => h n i out p op s l row hlog hp hop hreads hrow
      rw [hw, World.commit_row, hfields, committed_of_commit (run.arrived n) hn hp hlog]
      have hdone := congrArg (Option.map op.apply) ih
      simpa [Option.map_map, Function.comp_def, userEdits, hop, UserEdit.applyAll] using hdone

/-- **A run of fresh commits is serialisable**, and the task is completed or
not by the number of committed toggles. -/
theorem serialisable_of_fresh {userId taskId : ℕ} (run : EditRun userId taskId)
    (h : ∀ n, FreshCommit taskId (run.state n) (run.state (n + 1))) (n : ℕ) :
    Serialisable taskId (run.state 0) (run.state n) ∧
    ∀ row₀ row, (run.state 0).world.row (.task taskId) = some row₀ →
      (run.state n).world.row (.task taskId) = some row →
      row.isCompleted = (row₀.isCompleted ^^
        decide ((userEdits (committed (run.state n))).count .toggle % 2 = 1)) := by
  have hfields := fields_eq_applyAll run h n
  refine ⟨⟨_, List.reverse_perm _, hfields⟩, fun row₀ row hrow₀ hrow => ?_⟩
  rw [hrow₀, hrow, Option.map_some, Option.map_some, Option.some_inj] at hfields
  have hcount : (userEdits (committed (run.state n)).reverse).count .toggle =
      (userEdits (committed (run.state n))).count .toggle :=
    ((List.reverse_perm _).filterMap _).count_eq _
  have hcompleted := congrArg UserFields.isCompleted hfields
  rw [UserEdit.applyAll_isCompleted, hcount] at hcompleted
  exact hcompleted

/-- Two toggles, one after the other. -/
def toggleTwice : List (Label Request (Choice Fault Decision)) :=
  [.start 0 (.toggle 1 1), .act 0 .ok, .act 0 (.ext (.time 10)), .act 0 .ok, .act 0 .ok,
    .act 0 .ok,
    .start 1 (.toggle 1 1), .act 1 .ok, .act 1 (.ext (.time 20)), .act 1 .ok, .act 1 .ok,
    .act 1 .ok]

theorem editsTask_of_toggle {q : Request} (h : q = .toggle 1 1) : q.EditsTask 1 1 := by
  rw [h]
  exact ⟨rfl, rfl⟩

/-- The run that follows some toggles of the open task. -/
def toggleRun (ls : List (Label Request (Choice Fault Decision)))
    (h : ∀ q ∈ ls.filterMap Label.arrival, q = .toggle 1 1) : EditRun 1 1 :=
  traceRun _ _ _ oneTask ls oneTask_unlocked oneTask_unlogged fun q hq =>
    editsTask_of_toggle (h q hq)

theorem serialisable_of_fresh_toggleTwice :
    let run := toggleRun toggleTwice (by simp [toggleTwice, Label.arrival])
    Serialisable 1 (run.state 0) (run.state 12) := by
  intro run
  refine (serialisable_of_fresh run (fun n => ?_) 12).1
  intro i out p op s l row hlog hp hop hreads hrow
  match n with
  | 0 | 1 | 2 | 3 | 4 => cases hlog
  | 5 =>
    cases hlog
    cases hp
    cases hop
    cases hreads
    cases hrow
    decide
  | 6 | 7 | 8 | 9 | 10 => cases hlog
  | 11 =>
    cases hlog
    cases hp
    cases hop
    cases hreads
    cases hrow
    decide
  | n + 12 =>
    have hstill : run.state (n + 12 + 1) = run.state (n + 12) :=
      Machine.still_of_trace run.toRun (fun _ => rfl) (by simp [toggleTwice])
    rw [hstill] at hlog
    exact absurd hlog.symm (List.cons_ne_self _ _)

/-- Two toggles that read the task before either has committed. -/
def toggleTogether : List (Label Request (Choice Fault Decision)) :=
  [.start 0 (.toggle 1 1), .act 0 .ok, .act 0 (.ext (.time 10)), .act 0 .ok,
    .start 1 (.toggle 1 1), .act 1 .ok, .act 1 (.ext (.time 20)), .act 1 .ok,
    .act 0 .ok, .act 0 .ok, .act 1 .ok, .act 1 .ok]

/-- **Both toggles commit, and the task is flipped once.** -/
theorem serialisable_violated :
    ¬ ∀ (userId taskId : ℕ) (run : EditRun userId taskId) (n : ℕ),
      Serialisable taskId (run.state 0) (run.state n) := by
  intro h
  obtain ⟨order, hperm, hfields⟩ := h 1 1 (toggleRun toggleTogether (by simp [toggleTogether,
    Label.arrival])) 12
  have horder : order = [.toggle 1 1, .toggle 1 1] := by
    have hboth : order.Perm (List.replicate 2 (Request.toggle 1 1)) := hperm
    exact List.perm_replicate.mp hboth
  subst horder
  cases hfields

end Lsstack
