/-
The worker's mark under concurrent edits.

A user's edit writes back the mark of its first read whenever that differs from
the mark of its second read, so a job that commits between the two reads has
its mark erased.  `StaleCommit` is that case, and it is the only one:

* **`writeOnce_iff`** — a run keeps every mark exactly when none of its commits
  is stale;
* **`writeOnce_violated`** — a run in which a toggle erases the mark.
-/
import Lsstack.TaskEdits

namespace Lsstack

open Concurrency

/-- The transactions that write existing tasks. -/
def Request.WritesTask : Request → Prop
  | .edit _ _ _ _ => True
  | .toggle _ _ => True
  | .delete _ _ => True
  | .process _ => True
  | _ => False

/-- Runs of those transactions, any number of them, interleaved in any way. -/
abbrev TaskRun : Type :=
  DbRun (fun _ _ => false) Request.code fun _ q => q.WritesTask

/-- A committed mark stays while its task exists. -/
def KeepsMark (w w' : Db) : Prop :=
  ∀ taskId row', w'.row (.task taskId) = some row' →
    ∃ row, w.row (.task taskId) = some row ∧
      ∀ t, row.backgroundProcessedAt = some t → row'.backgroundProcessedAt = some t

theorem KeepsMark.refl (w : Db) : KeepsMark w w :=
  fun _ row' h => ⟨row', h, fun _ ht => ht⟩

theorem KeepsMark.trans {w₁ w₂ w₃ : Db} (h : KeepsMark w₁ w₂) (h' : KeepsMark w₂ w₃) :
    KeepsMark w₁ w₃ := by
  intro taskId row₃ h₃
  obtain ⟨row₂, h₂, hm₂⟩ := h' taskId row₃ h₃
  obtain ⟨row₁, h₁, hm₁⟩ := h taskId row₂ h₂
  exact ⟨row₁, h₁, fun t ht => hm₂ t (hm₁ t ht)⟩

theorem KeepsMark.of_row_eq {w w' : Db}
    (h : ∀ taskId, w'.row (.task taskId) = w.row (.task taskId)) : KeepsMark w w' :=
  fun taskId row' hr => ⟨row', (h taskId).symm.trans hr, fun _ ht => ht⟩

/-- A step in which an edit commits whose first read found its task unmarked and
whose second read found it marked. -/
def StaleCommit (cfg cfg' : TaskConfig) : Prop :=
  ∃ i out p s l, cfg'.world.log = (i, out) :: cfg.world.log ∧ cfg.procs i = some p ∧
    p.request.userEdit.isSome ∧ taskReads p.calls = [l, s] ∧
    s.backgroundProcessedAt = none ∧ l.backgroundProcessedAt.isSome

/-! ### What an edit remembers -/

/-- A mark that was read is still there, or its task is gone. -/
def Remembers (w : Db) (taskId : ℕ) (s : TaskModel) : Prop :=
  ∀ t row, s.backgroundProcessedAt = some t → w.row (.task taskId) = some row →
    row.backgroundProcessedAt = some t

theorem Remembers.keeps {w w' : Db} {taskId : ℕ} {s : TaskModel} (h : Remembers w taskId s)
    (hk : KeepsMark w w') : Remembers w' taskId s := by
  intro t row' hs hrow'
  obtain ⟨row, hrow, hm⟩ := hk taskId row' hrow'
  exact hm t (h t row hs hrow)

/-- The rows an edit has read. -/
def EditGhost.seen (g : EditGhost) : List TaskModel :=
  match g.phase with
  | .first s => [s]
  | .second s l => [s, l]
  | .flushed s l => [s, l]
  | _ => []

/-- All its reads are remembered. -/
def EditGhost.Memory (g : EditGhost) (w : Db) : Prop :=
  ∀ taskId, g.task = some taskId → ∀ s ∈ g.seen, Remembers w taskId s

theorem EditGhost.Memory.keeps {g : EditGhost} {w w' : Db} (h : g.Memory w)
    (hk : KeepsMark w w') : g.Memory w' :=
  fun taskId ht s hs => (h taskId ht s hs).keeps hk

/-- **A statement of the session itself** adds what it has just read. -/
theorem EditGhost.Memory.next {g : EditGhost} {w w' : Db} {i : ℕ}
    {p : Option (Process Command Command.Reply Exn Request Response)} {c : Command}
    {x : Choice Fault Decision} {r : Except Exn c.Reply} {isHash : String → String → Bool}
    (h : g.Memory w) (ha : EditAsserts w i p g) (hg : editGuard g c)
    (he : exec Fault.exn (outside isHash) w i c x = some (r, w')) (hk : KeepsMark w w') :
    (g.next c r).Memory w' := by
  have h' := h.keeps hk
  rcases c with ⟨k, P⟩ | _ | _ | _ | ⟨k, P, f⟩ | _ | ⟨k, P⟩ | _ | out | _ | y
  case select =>
    rcases k with _ | _ | taskId | _
    all_goals try exact hg.elim
    obtain ⟨rfl, hr⟩ := exec_select he
    rcases r with e | _ | row
    · exact h
    · exact h
    -- the row read is the committed one, since the process has written nothing
    have hrow : g.Quiet → Remembers w' taskId row := by
      intro hq t row' ht hrow'
      obtain ⟨e, he⟩ | hr := hr
      · cases he
      · have hview := (Option.filter_eq_some_iff.mp (Except.ok.inj hr).symm).1
        rw [ha.view_eq_row hq, hrow', Option.some_inj] at hview
        rwa [hview]
    rcases g with ⟨_ | op, task, marks, _ | s | _ | _ | _ | _ | _⟩
    all_goals try exact hg.2.elim
    all_goals try exact h
    all_goals
      obtain rfl := hg.1
      rintro _ ⟨⟩
    · simpa [EditGhost.seen, EditGhost.next] using hrow trivial
    · have hs := h taskId rfl s (List.mem_singleton_self _)
      simpa [EditGhost.seen, EditGhost.next] using ⟨hs, hrow trivial⟩
  -- after a write the session remembers what it has read before
  case update =>
    rcases k with _ | _ | taskId | _
    all_goals try exact hg.elim
    rcases r with e | _ | row
    · exact h'
    · exact h'
    · rcases g with ⟨op, task, marks, _ | _ | _ | _ | _ | _ | _⟩
      all_goals first | exact hg.2.elim | exact h'
  case delete =>
    rcases k with _ | _ | taskId | _
    all_goals try exact hg.elim
    rcases r with e | _ | row
    · exact h'
    · exact h'
    · exact fun _ _ _ hs => absurd hs List.not_mem_nil
  case ext => rcases r with e | y' <;> exact h'
  all_goals first | exact hg.elim | exact fun _ _ _ hs => absurd hs List.not_mem_nil

/-! ### Runs -/

/-- The transactions keep to the protocol. -/
theorem Request.WritesTask.meets {q : Request} (h : q.WritesTask) :
    q.code.Meets editing q.editGhost fun _ _ => True := by
  cases q with
  | edit userId taskId title description =>
    exact meets_transaction (meets_updateTask userId taskId title description)
  | toggle userId taskId => exact meets_transaction (meets_toggleTask userId taskId)
  | delete userId taskId => exact meets_transaction (meets_deleteTask userId taskId)
  | process taskId => exact meets_transaction (meets_processTaskCreated taskId)
  | _ => exact h.elim

/-- Each process keeps its locks and its memory, as long as marks are kept. -/
theorem marks_relyGuarantee :
    RelyGuarantee taskMachine (fun _ q => q.WritesTask) editing .idle
      (fun _ _ _ => True) (fun cfg cfg' => KeepsMark cfg.world cfg'.world) (fun _ => True)
      (fun i w w' => (∀ k, (w.cell k).Moves i (w'.cell k)) ∧ KeepsMark w w')
      (fun w i p g => EditAsserts w i p g ∧ g.Memory w) where
  start := fun {_ _ q} _ _ hq ha => ⟨q.editGhost, hq.meets, ha.1.start q _,
    by simp [EditGhost.Memory, EditGhost.seen, Request.editGhost]⟩
  act := by
    intro cfg i q calls c k x r w g _ _ ha hg he hok
    refine ⟨trivial, trivial, ⟨exec_moves he, hok⟩, ?_⟩
    rintro g' rfl
    exact ⟨ha.1.act hg he, ha.2.next ha.1 hg he hok⟩
  crash := by
    intro w i q calls c k g _ ha
    exact ⟨trivial, ⟨release_moves, KeepsMark.of_row_eq fun _ => World.release_row _ _ _⟩,
      ⟨g.op, g.task, g.marks, .closed⟩, ha.1.crash, by simp [EditGhost.Memory, EditGhost.seen]⟩
  stable := fun hij _ hrel ha => ⟨ha.1.frame hrel.1 hij, ha.2.keeps hrel.2⟩

/-- What holds in a state of a run whose earlier steps have kept all marks. -/
abbrev MarksHold : TaskConfig → Prop :=
  Sound.Holds editing .idle (fun _ _ _ => True)
    (RelyGuarantee.Invariant (fun _ => True) fun w i p g => EditAsserts w i p g ∧ g.Memory w)

theorem TaskRun.marksHold (run : TaskRun) (n : ℕ)
    (h : ∀ m < n, KeepsMark (run.state m).world (run.state (m + 1)).world) :
    MarksHold (run.state n) :=
  marks_relyGuarantee.run run.toRun trivial
    (fun i => ⟨.idle fun k => by rw [run.unlocked k]; exact nofun,
      by simp [EditGhost.Memory, EditGhost.seen, EditGhost.idle]⟩) n h

/-- The commit of an edit erases a mark exactly if it is stale. -/
theorem keepsMark_flushed {w : Db} {taskId : ℕ} {op : UserEdit} {s l row : TaskModel}
    {stamp : Instant} (hs : Remembers w taskId s) (hl : Remembers w taskId l)
    (hrow : w.row (.task taskId) = some row) :
    (∀ t, row.backgroundProcessedAt = some t →
      (TaskModel.merge l (op.assign s l stamp) row).backgroundProcessedAt = some t) ↔
    ¬ (s.backgroundProcessedAt = none ∧ l.backgroundProcessedAt.isSome) := by
  simp only [TaskModel.merge, UserEdit.assign_backgroundProcessedAt, column]
  rcases hsm : s.backgroundProcessedAt with _ | t
  · rcases hlm : l.backgroundProcessedAt with _ | t
    · simp
    · simp [hl t row hlm hrow]
  · have := hs t row hsm hrow
    simp [this]

/-- No step brings a task into being. -/
theorem MarksHold.survives {cfg cfg' : TaskConfig} (h : MarksHold cfg)
    (hs : taskMachine.Step (fun _ q => q.WritesTask) cfg cfg') {taskId : ℕ} {row' : TaskModel}
    (hrow' : cfg'.world.row (.task taskId) = some row') :
    ∃ row, cfg.world.row (.task taskId) = some row := by
  obtain ⟨hrows, -⟩ | ⟨i, p, out, g, -, hw, hguard, ha, -⟩ := commit_cases h hs
  · exact ⟨row', (hrows _).symm.trans hrow'⟩
  · replace hguard : editGuard g (.commit out) := hguard
    rw [hw, World.commit_row] at hrow'
    obtain hv | ⟨-, ⟨_, _, _, _, row, _, _, hrow, _⟩ | ⟨_, row, _, hrow, _⟩ | ⟨_, hv⟩⟩ :=
      ha.commit_view hguard taskId
    · exact ⟨row', hv.symm.trans hrow'⟩
    · exact ⟨row, hrow⟩
    · exact ⟨row, hrow⟩
    · rw [hv] at hrow'
      cases hrow'

/-- A commit that keeps all marks is not that of an edit with a stale read. -/
theorem not_stale_of_keepsMark {w : Db} {i : ℕ} {g : EditGhost} {out : Outcome}
    {p : Process Command Command.Reply Exn Request Response} {s l : TaskModel}
    (ha : EditAsserts w i (some p) g) (hmem : g.Memory w) (hguard : editGuard g (.commit out))
    (hkeeps : KeepsMark w (w.commit i out)) (hedit : p.request.userEdit.isSome)
    (hcalls : taskReads p.calls = [l, s]) :
    ¬ (s.backgroundProcessedAt = none ∧ l.backgroundProcessedAt.isSome) := by
  rintro ⟨hs, hl⟩
  obtain ⟨taskId, htask⟩ : ∃ taskId, p.request.task = some taskId := by
    cases hq : p.request <;> simp_all [Request.userEdit, Request.task]
  obtain ⟨op, s', l', stamp, -, hreads, hcommit⟩ := ha.commit_edit hguard hedit htask
  obtain ⟨rfl, rfl⟩ : l = l' ∧ s = s' := by simpa [hcalls] using hreads
  obtain ⟨-, hsame, -⟩ | ⟨hphase, row, hrow, hview⟩ := hcommit
  · -- nothing was flushed, so both reads found the same mark
    have hmark : s.backgroundProcessedAt = l.backgroundProcessedAt := by
      rw [← op.assign_backgroundProcessedAt s l stamp, hsame]
    rw [← hmark, hs] at hl
    cases hl
  · -- the flush has overwritten the mark of the second read
    obtain ⟨row', hrow', hkept⟩ := hkeeps taskId _ ((World.commit_row _ _ _ _).trans hview)
    obtain rfl := Option.some_inj.mp (hrow.symm.trans hrow')
    have hseen := hmem taskId ((ha.task p rfl).trans htask)
    simp only [EditGhost.seen, hphase, List.forall_mem_cons] at hseen
    exact (keepsMark_flushed hseen.1 hseen.2.1 hrow).mp hkept ⟨hs, hl⟩

/-- A commit without a stale read keeps all marks. -/
theorem keepsMark_of_not_stale {w : Db} {i : ℕ} {g : EditGhost} {out : Outcome}
    {p : Process Command Command.Reply Exn Request Response}
    (ha : EditAsserts w i (some p) g) (hmem : g.Memory w) (hguard : editGuard g (.commit out))
    (hfresh : ∀ s l, p.request.userEdit.isSome → taskReads p.calls = [l, s] →
      ¬ (s.backgroundProcessedAt = none ∧ l.backgroundProcessedAt.isSome)) :
    KeepsMark w (w.commit i out) := by
  intro taskId row' hrow'
  rw [World.commit_row] at hrow'
  obtain hv | ⟨htask, ⟨op, s, l, stamp, row, hsome, hphase, hrow, hv⟩ |
      ⟨stamp, row, -, hrow, hmark, -⟩ | ⟨-, hv⟩⟩ := ha.commit_view hguard taskId
  · exact ⟨row', hv.symm.trans hrow', fun _ ht => ht⟩
  · rw [hv] at hrow'
    obtain rfl := Option.some_inj.mp hrow'
    have hreads : g.Reads (taskReads p.calls) := ha.reads p rfl
    simp only [EditGhost.Reads, hsome, hphase, reduceCtorEq, false_or] at hreads
    have hseen := hmem taskId htask
    simp only [EditGhost.seen, hphase, List.forall_mem_cons] at hseen
    have hedit : p.request.userEdit.isSome := by rw [← ha.op p rfl, hsome]; rfl
    exact ⟨row, hrow,
      (keepsMark_flushed hseen.1 hseen.2.1 hrow).mpr (hfresh s l hedit hreads)⟩
  · exact ⟨row, hrow, fun t ht => by rw [hmark] at ht; cases ht⟩
  · rw [hv] at hrow'
    cases hrow'

/-- A step erases a mark exactly if it is a stale commit. -/
theorem MarksHold.keepsMark_iff {cfg cfg' : TaskConfig} (h : MarksHold cfg)
    (hs : taskMachine.Step (fun _ q => q.WritesTask) cfg cfg') :
    KeepsMark cfg.world cfg'.world ↔ ¬ StaleCommit cfg cfg' := by
  obtain ⟨hrows, hlog⟩ | ⟨i, p, out, g, hp, hw, hguard, ha, hmem⟩ := commit_cases h hs
  · refine iff_of_true (.of_row_eq fun _ => hrows _) ?_
    rintro ⟨i, out, p, s, l, hlog', -⟩
    rw [hlog'] at hlog
    exact List.cons_ne_self _ _ hlog
  · replace hguard : editGuard g (.commit out) := hguard
    rw [hw]
    constructor
    · rintro hkeeps ⟨i', out', p', s, l, hlog, hp', hedit, hcalls, hstale⟩
      rw [hw, World.commit_log, List.cons_eq_cons, Prod.mk.injEq] at hlog
      obtain rfl := hlog.1.1
      obtain rfl := Option.some_inj.mp (hp.symm.trans hp')
      exact not_stale_of_keepsMark ha hmem hguard hkeeps hedit hcalls hstale
    · refine fun hfresh => keepsMark_of_not_stale ha hmem hguard fun s l hedit hcalls hstale => ?_
      exact hfresh ⟨i, out, p, s, l, by rw [hw]; rfl, hp, hedit, hcalls, hstale⟩

/-- **A run keeps every mark exactly when no commit is stale.** -/
theorem writeOnce_iff (run : TaskRun) :
    (∀ m n, m ≤ n → ∀ taskId row row' t,
      (run.state m).world.row (.task taskId) = some row →
      row.backgroundProcessedAt = some t →
      (run.state n).world.row (.task taskId) = some row' →
      row'.backgroundProcessedAt = some t) ↔
    ∀ n, ¬ StaleCommit (run.state n) (run.state (n + 1)) := by
  have hstill : ∀ n, run.state (n + 1) = run.state n →
      ¬ StaleCommit (run.state n) (run.state (n + 1)) := by
    rintro n hn ⟨i, out, p, s, l, hlog, -⟩
    rw [hn] at hlog
    exact List.cons_ne_self _ _ hlog.symm
  -- write-once between any two states says that each step keeps the marks
  constructor
  · intro honce
    have hkeeps : ∀ n, KeepsMark (run.state n).world (run.state (n + 1)).world := by
      intro n
      induction n using Nat.strong_induction_on with
      | _ n ih =>
        intro taskId row' hrow'
        rcases run.next n with hn | hn
        · rw [hn] at hrow'
          exact ⟨row', hrow', fun _ ht => ht⟩
        · obtain ⟨row, hrow⟩ := (run.marksHold n ih).survives hn hrow'
          exact ⟨row, hrow, fun t ht =>
            honce n (n + 1) n.le_succ taskId row row' t hrow ht hrow'⟩
    intro n
    rcases run.next n with hn | hn
    · exact hstill n hn
    · exact ((run.marksHold n fun m _ => hkeeps m).keepsMark_iff hn).mp (hkeeps n)
  -- a step that commits nothing stale keeps the marks, and so does a run of them
  · intro hfresh
    have hkeeps : ∀ n, KeepsMark (run.state n).world (run.state (n + 1)).world := by
      intro n
      induction n using Nat.strong_induction_on with
      | _ n ih =>
        rcases run.next n with hn | hn
        · rw [hn]
          exact .refl _
        · exact ((run.marksHold n ih).keepsMark_iff hn).mpr (hfresh n)
    intro m n hmn taskId row row' t hrow ht hrow'
    have hmono : KeepsMark (run.state m).world (run.state n).world :=
      run.monotone (fun cfg cfg' => KeepsMark cfg.world cfg'.world) (fun _ => .refl _)
        (fun h h' => h.trans h') (fun n _ => hkeeps n) hmn
    obtain ⟨row₀, hrow₀, hkept⟩ := hmono taskId row' hrow'
    obtain rfl := Option.some_inj.mp (hrow.symm.trans hrow₀)
    exact hkept t ht

/-! ### A mark is lost -/

/-- An unmarked task of user 1. -/
def openTask : TaskModel where
  userId := 1
  title := "Write the report"
  description := none
  isCompleted := false
  backgroundProcessedAt := none
  createdAt := 0
  updatedAt := 0

/-- The database with this task under id 1, and its user. -/
def oneTask : Db := storedDb (⟨.task 1, openTask⟩ :: adaRows) fun _ => 2

theorem oneTask_unlocked (k : Key) : (oneTask.cell k).hold.owner = none := storedDb_unlocked k

theorem oneTask_unlogged : oneTask.log = [] := rfl

/-- A toggle whose two reads enclose the job. -/
def staleToggle : List (Label Request (Choice Fault Decision)) :=
  [.start 0 (.toggle 1 1), .act 0 .ok, .act 0 (.ext (.time 10)),
    .start 1 (.process 1), .act 1 (.ext (.time 5)), .act 1 .ok, .act 1 .ok, .act 1 .ok,
    .act 0 .ok, .act 0 .ok, .act 0 .ok]

/-- **The toggle erases the mark.** -/
theorem writeOnce_violated :
    ¬ ∀ run : TaskRun, ∀ m n, m ≤ n → ∀ taskId row row' t,
      (run.state m).world.row (.task taskId) = some row →
      row.backgroundProcessedAt = some t →
      (run.state n).world.row (.task taskId) = some row' →
      row'.backgroundProcessedAt = some t := by
  intro h
  have hlost := h (traceRun _ _ _ oneTask staleToggle oneTask_unlocked oneTask_unlogged
    (by simp [staleToggle, Label.arrival, Request.WritesTask])) 8 11
    (by decide) 1 (openTask.marked 5) { openTask with isCompleted := true, updatedAt := 10 } 5
    rfl rfl rfl
  cases hlost

end Lsstack
