/-
The text of a task is checked three times.

The form, the domain and the database each bound the title and the description;
behind the form check no handler expects a refusal.  `TaskModel.storable` says
which rows PostgreSQL stores, and `Harmless` that code sends no other row and
raises no `ValidationError`.

* `taskForm_accepts_iff` — form and domain accept the same texts;
* **`formChecked_iff`** — the three layers agree on a form exactly if its texts,
  where accepted, are free of U+0000.
-/
import Lsstack.Web

namespace Lsstack

open Concurrency

/-! ### The layers -/

/-- `varchar(limit)`: at most so many code points, none of them U+0000. -/
def storableText (limit : ℕ) (text : String) : Bool :=
  decide (text.length ≤ limit) && !decide ('\x00' ∈ text.toList)

/-- PostgreSQL stores the row: the column types and both CHECK constraints. -/
def TaskModel.storable (row : TaskModel) : Bool :=
  storableText 200 row.title && decide (1 ≤ row.title.length) &&
    match row.description with
    | none => true
    | some description => storableText 5000 description

/-- The domain accepts the texts of the form. -/
def DomainAccepts (form : Form) : Prop :=
  (∃ title, normalizeTitle (formText form "title") = .ok title) ∧
    ∃ description, normalizeDescription (some (formText form "description")) = .ok description

theorem normalizeTitle_accepts_iff {value : String} :
    (∃ title, normalizeTitle value = .ok title) ↔
      (strip value).length ≠ 0 ∧ (strip value).length ≤ maxTaskTitleLength := by
  constructor
  · rintro ⟨title, h⟩
    obtain ⟨rfl, hpos, hle⟩ := normalizeTitle_ok h
    exact ⟨by omega, hle⟩
  · rintro ⟨hpos, hle⟩
    exact ⟨strip value, by simp only [normalizeTitle]; rw [if_neg hpos, if_neg (by omega)]⟩

theorem normalizeDescription_accepts_iff {value : String} :
    (∃ description, normalizeDescription (some value) = .ok description) ↔
      (strip value).length ≤ maxTaskDescriptionLength := by
  constructor
  · rintro ⟨description, h⟩
    by_contra hlong
    simp only [normalizeDescription] at h
    rw [if_pos (by omega)] at h
    cases h
  · intro hle
    simp only [normalizeDescription]
    rw [if_neg (by omega)]
    split
    · exact ⟨_, rfl⟩
    · exact ⟨_, rfl⟩

theorem taskForm_errors_iff {form : Form} :
    (taskForm form).errors = [] ↔
      ((strip (formText form "title")).length ≠ 0 ∧
        (strip (formText form "title")).length ≤ 200) ∧
      (strip (formText form "description")).length ≤ 5000 := by
  simp only [taskForm, List.append_eq_nil_iff]
  refine and_congr ?_ ?_
  · split
    · simp_all
    · split
      · simp only [List.cons_ne_nil, false_iff]
        omega
      · simp only [true_iff]
        omega
  · split
    · simp only [List.cons_ne_nil, false_iff]
      omega
    · simp only [true_iff]
      omega

/-- **The form and the domain accept the same texts.** -/
theorem taskForm_accepts_iff {form : Form} :
    (taskForm form).errors = [] ↔ DomainAccepts form := by
  rw [taskForm_errors_iff, DomainAccepts, normalizeTitle_accepts_iff,
    normalizeDescription_accepts_iff]
  rfl

/-! ### The values of an accepted form -/

section Accepted

variable {form : Form}

theorem normalizeTitle_taskForm (h : (taskForm form).errors = []) :
    normalizeTitle (taskForm form).values.title = .ok (taskForm form).values.title := by
  obtain ⟨⟨hempty, hlong⟩, -⟩ := taskForm_errors_iff.mp h
  simp only [normalizeTitle, taskForm, strip_strip]
  rw [if_neg hempty, if_neg (show ¬_ > maxTaskTitleLength from not_lt.mpr hlong)]

theorem normalizeDescription_taskForm (h : (taskForm form).errors = []) :
    normalizeDescription (some (taskForm form).values.description) =
      .ok (orNone (taskForm form).values.description) := by
  obtain ⟨-, hlong⟩ := taskForm_errors_iff.mp h
  show normalizeDescription (some (strip (formText form "description"))) =
    .ok (orNone (strip (formText form "description")))
  generalize formText form "description" = value at hlong ⊢
  simp only [normalizeDescription, strip_strip]
  rw [if_neg (show ¬_ > maxTaskDescriptionLength from not_lt.mpr hlong), orNone]
  by_cases hempty : strip value = ""
  · rw [if_pos hempty, if_pos (by rw [hempty]; rfl)]
  · rw [if_neg hempty, if_neg fun h => hempty (String.length_eq_zero_iff.mp h)]

/-- What the handlers pass on is left as it is. -/
theorem normalizeDescription_orNone (h : (taskForm form).errors = []) :
    normalizeDescription (orNone (taskForm form).values.description) =
      .ok (orNone (taskForm form).values.description) := by
  by_cases hempty : (taskForm form).values.description = ""
  · rw [orNone, if_pos hempty]
    rfl
  · have := normalizeDescription_taskForm h
    rw [orNone, if_neg hempty] at this ⊢
    exact this

/-- Neither text of the form holds U+0000. -/
def NulFree (form : Form) : Prop :=
  '\x00' ∉ (formText form "title").toList ∧ '\x00' ∉ (formText form "description").toList

theorem storable_taskForm_iff (h : (taskForm form).errors = []) (row : TaskModel) :
    ({ row with
        title := (taskForm form).values.title
        description := orNone (taskForm form).values.description } : TaskModel).storable = true ↔
      NulFree form := by
  obtain ⟨⟨hempty, hlong⟩, hdescription⟩ := taskForm_errors_iff.mp h
  have htitle : '\x00' ∈ (strip (formText form "title")).toList ↔
      '\x00' ∈ (formText form "title").toList := mem_strip (by decide)
  have hbody : '\x00' ∈ (strip (formText form "description")).toList ↔
      '\x00' ∈ (formText form "description").toList := mem_strip (by decide)
  have hpos : 1 ≤ (strip (formText form "title")).length := by omega
  simp only [TaskModel.storable, storableText, taskForm, NulFree, htitle, hlong, hpos, orNone,
    ← hbody, decide_true, Bool.true_and, Bool.and_true, Bool.and_eq_true, Bool.not_eq_true',
    decide_eq_false_iff_not]
  refine and_congr_right fun _ => ?_
  by_cases hnone : strip (formText form "description") = ""
  · simp [hnone]
  · simp [hnone, hdescription]

end Accepted

/-! ### Code that stores its rows -/

/-- What can be stored depends on the two texts only. -/
theorem storable_congr {row row' : TaskModel} (htitle : row.title = row'.title)
    (hdescription : row.description = row'.description) : row.storable = row'.storable := by
  rw [TaskModel.storable, TaskModel.storable, htitle, hdescription]

theorem storable_iff {row : TaskModel} :
    row.storable = true ↔ (storableText 200 row.title = true ∧ 1 ≤ row.title.length) ∧
      ∀ description, row.description = some description →
        storableText 5000 description = true := by
  rw [TaskModel.storable, Bool.and_eq_true, Bool.and_eq_true, decide_eq_true_eq]
  refine and_congr_right fun _ => ?_
  rcases row.description with _ | description
  · simp
  · simp

/-- A flush leaves each text assigned or as it was. -/
theorem storable_merge {loaded assigned row : TaskModel} (hassigned : assigned.storable = true)
    (hrow : row.storable = true) : (TaskModel.merge loaded assigned row).storable = true := by
  obtain ⟨htitle, hdescription⟩ := storable_iff.mp hassigned
  obtain ⟨htitle', hdescription'⟩ := storable_iff.mp hrow
  refine storable_iff.mpr ⟨?_, ?_⟩
  · simp only [TaskModel.merge, column]
    split
    · exact htitle'
    · exact htitle
  · simp only [TaskModel.merge, column]
    split
    · exact hdescription'
    · exact hdescription

/-- The exception is a `ValidationError`. -/
def Exn.isValidation : Exn → Bool
  | .validationError _ _ => true
  | _ => false

/-- PostgreSQL stores what the statement writes to a task. -/
def Command.StoresTask : Command → Prop
  | .insert (.task _) row => row.storable = true
  | .update (.task _) _ f => ∀ row : TaskModel, row.storable = true → (f row).storable = true
  | _ => True

/-- The environment raises no `ValidationError` of its own. -/
def storing : Protocol Command Command.Reply Exn Unit where
  guard := fun _ c => c.StoresTask
  reply := fun _ _ r => ∀ e, r = .error e → e.isValidation = false
  step := fun _ _ _ _ => True

/-- The code sends rows that PostgreSQL stores and raises no `ValidationError`. -/
structure Harmless {α : Type} (p : Tx α) : Prop where
  meets : p.Meets storing () fun r _ => ∀ e, r = .error e → e.isValidation = false

namespace Harmless

variable {α β : Type}

theorem ret (a : α) : Harmless (.ret a) := ⟨nofun⟩

theorem raise {e : Exn} (h : e.isValidation = false) : Harmless (.raise e : Tx α) :=
  ⟨fun _ he => by cases he; exact h⟩

theorem bind {p : Tx α} {f : α → Tx β} (hp : Harmless p) (hf : ∀ a, Harmless (f a)) :
    Harmless (p.bind f) := by
  refine ⟨Program.meets_bind.mpr (hp.meets.mono fun r g hr => ?_)⟩
  rcases r with e | a
  · exact fun e' he => hr e' (by cases he; rfl)
  · exact (hf a).meets

theorem handle {p : Tx α} {h : Exn → Tx α} (hp : Harmless p)
    (hh : ∀ e, e.isValidation = false → Harmless (h e)) : Harmless (p.handle h) := by
  refine ⟨Program.meets_handle.mpr (hp.meets.mono fun r g hr => ?_)⟩
  rcases r with e | a
  · exact (hh e (hr e rfl)).meets
  · exact nofun

theorem perform {c : Command} (h : c.StoresTask) : Harmless (perform c) :=
  ⟨Program.meets_perform.mpr ⟨h, fun _ hr => ⟨(), trivial, hr⟩⟩⟩

theorem liftExcept {a : Except Exn α} (h : ∀ e, a = .error e → e.isValidation = false) :
    Harmless (liftExcept a) := by
  rcases a with e | a
  · exact raise (h e rfl)
  · exact ret a

theorem bind_ok {a : Except Exn α} {x : α} {f : α → Tx β} (h : a = .ok x) (hf : Harmless (f x)) :
    Harmless ((Lsstack.liftExcept a).bind f) := by
  rw [h]
  exact hf

theorem transactionRunner {outcome : α → Outcome} {operation : Tx α} (h : Harmless operation) :
    Harmless (transactionRunner outcome operation) :=
  handle (bind h fun a => bind (perform trivial) fun _ => ret a)
    fun _ he => bind (perform trivial) fun _ => raise he

theorem revalidateSession (claims : SessionClaims) : Harmless (revalidateSession claims) := by
  refine bind (perform trivial) fun time => ?_
  split
  · exact raise rfl
  · refine bind (bind (bind (perform trivial) fun _ => ret _) fun user => ?_) fun session => ?_
    · rcases user with _ | user
      · exact ret _
      · dsimp only
        split
        · exact ret _
        · exact ret _
    · rcases session with _ | session
      · exact raise rfl
      · dsimp only
        split
        · exact raise rfl
        · exact ret _

theorem runTaskPage {request : WebRequest} {operation : CurrentUser → Tx α}
    (h : ∀ user, Harmless (operation user)) : Harmless (runTaskPage request operation) := by
  unfold Lsstack.runTaskPage runAuthenticated
  split
  · exact ret _
  · refine handle (bind (transactionRunner (bind (revalidateSession _) fun session =>
      bind (h _) fun result => ret _)) fun result => ret _) fun e he => ?_
    split
    · exact ret _
    · exact raise he

theorem onTask {taskId : Option ℕ} {operation : ℕ → Tx α} (h : ∀ id, Harmless (operation id)) :
    Harmless (onTask taskId operation) := by
  rcases taskId with _ | id
  · exact ret _
  · refine handle (bind (h id) fun result => ret _) fun e he => ?_
    split
    · exact ret _
    · exact raise he

theorem taskResult_error (task : Task) (e : Exn) (h : taskResult task = .error e) :
    e.isValidation = false := by
  unfold taskResult at h
  split at h <;> cases h
  rfl

theorem taskView_error (codec : SqidsPublicIdCodec) (result : TaskResult) (e : Exn)
    (h : taskView codec result = .error e) : e.isValidation = false := by
  unfold taskView at h
  rcases hencode : codec.encode result.id with e' | publicId
  · obtain ⟨message, rfl⟩ := SqidsPublicIdCodec.encode_error hencode
    rw [hencode] at h
    cases h
    rfl
  · rw [hencode] at h
    cases h

/-- Texts that normalize to themselves are inserted as they are. -/
theorem createTask {userId : ℕ} {title : String} {description : Option String}
    (htitle : normalizeTitle title = .ok title)
    (hdescription : normalizeDescription description = .ok description)
    (hstorable : ∀ row : TaskModel,
      ({ row with title := title, description := description } : TaskModel).storable = true) :
    Harmless (createTask userId title description) := by
  refine bind (perform trivial) fun now => bind_ok htitle (bind_ok hdescription ?_)
  refine bind (bind (perform trivial) fun id => bind (perform ?_) fun inserted => ?_)
    fun task => bind (liftExcept (taskResult_error _)) fun result => bind (perform trivial)
      fun outboxId => bind (bind (perform trivial) fun inserted => ?_) fun _ => ret _
  · exact hstorable ⟨userId, title, description, false, none, now, now⟩
  · split
    · exact raise rfl
    · exact ret _
  · split
    · exact raise rfl
    · exact ret _

/-- So is a flush of them over whatever row is stored by then. -/
theorem flush {id : ℕ} {loaded assigned : TaskModel}
    (hstorable : ∀ row : TaskModel, row.storable = true →
      (TaskModel.merge loaded assigned row).storable = true) :
    Harmless (TaskModel.flush id loaded assigned) := by
  rw [TaskModel.flush_eq]
  split
  · exact ret _
  · have hupdate : ∀ stamp, Harmless (TaskModel.write id loaded assigned stamp) := by
      intro stamp
      refine bind (perform fun row hrow => hstorable row hrow) fun reply => ?_
      rcases reply with _ | row
      · exact raise rfl
      · exact ret _
    split
    · exact bind (perform trivial) hupdate
    · exact hupdate _

/-- An edit to texts that normalize to themselves. -/
theorem updateTask {userId taskId : ℕ} {title : String} {description : Option String}
    (htitle : normalizeTitle title = .ok title)
    (hdescription : normalizeDescription description = .ok description)
    (hstorable : ∀ row : TaskModel,
      ({ row with title := title, description := description } : TaskModel).storable = true) :
    Harmless (updateTask userId taskId title description) := by
  refine bind (bind (perform trivial) fun _ => ret _) fun task => ?_
  rcases task with _ | task
  · exact raise rfl
  · refine bind (perform trivial) fun now => ?_
    have hedited : task.edited title description now = .ok
        { task with title := title, description := description, updatedAt := now } := by
      rw [Task.edited, htitle, hdescription]
      rfl
    refine bind_ok hedited (bind ?_ fun updated => liftExcept (taskResult_error _))
    unfold TaskRepository.update
    dsimp only
    rcases task.id with _ | id
    · exact raise rfl
    · refine bind (perform trivial) fun loaded => ?_
      rcases loaded with _ | loaded
      · exact raise rfl
      · refine bind (flush fun row hrow => storable_merge ?_ hrow) fun _ => ret _
        exact (storable_congr rfl rfl).trans (hstorable loaded)

end Harmless

/-! ### The three layers -/

/-- The form check stands for the other two: it accepts what the domain accepts,
its values go through the domain unchanged and into the database, and neither
handler fails over them. -/
structure FormChecked (form : Form) : Prop where
  accepts : (taskForm form).errors = [] ↔ DomainAccepts form
  title : (taskForm form).errors = [] →
    normalizeTitle (taskForm form).values.title = .ok (taskForm form).values.title
  description : (taskForm form).errors = [] →
    normalizeDescription (some (taskForm form).values.description) =
      .ok (orNone (taskForm form).values.description)
  stored : (taskForm form).errors = [] → ∀ row : TaskModel,
    ({ row with
        title := (taskForm form).values.title
        description := orNone (taskForm form).values.description } : TaskModel).storable = true
  actions : (taskForm form).errors = [] → ∀ uni codec (request : WebRequest), request.form = form →
    Harmless (createTaskAction uni codec request) ∧
      ∀ publicId, Harmless (editTaskAction uni codec request publicId)

section Actions

variable {uni : Unicode} {codec : SqidsPublicIdCodec} {request : WebRequest}

theorem harmless_createTaskAction (haccepted : (taskForm request.form).errors = [])
    (hstorable : ∀ row : TaskModel,
      ({ row with
          title := (taskForm request.form).values.title
          description := orNone (taskForm request.form).values.description } :
        TaskModel).storable = true) :
    Harmless (createTaskAction uni codec request) := by
  unfold createTaskAction
  dsimp only
  rw [if_neg (by simp [haccepted])]
  refine Harmless.bind (Harmless.runTaskPage fun user => Harmless.bind
    (Harmless.createTask (normalizeTitle_taskForm haccepted)
      (normalizeDescription_orNone haccepted) hstorable) fun _ => Harmless.ret _) fun result => ?_
  rcases result with _ | ⟨user, created⟩
  · exact Harmless.ret _
  · dsimp only
    split
    · exact Harmless.ret _
    · exact Harmless.bind (Harmless.liftExcept (Harmless.taskView_error codec created))
        fun _ => Harmless.ret _

theorem harmless_editTaskAction (haccepted : (taskForm request.form).errors = [])
    (hstorable : ∀ row : TaskModel,
      ({ row with
          title := (taskForm request.form).values.title
          description := orNone (taskForm request.form).values.description } :
        TaskModel).storable = true) (publicId : String) :
    Harmless (editTaskAction uni codec request publicId) := by
  unfold editTaskAction
  refine Harmless.bind (Harmless.liftExcept fun e he => ?_) fun taskId => ?_
  · obtain ⟨message, rfl⟩ := SqidsPublicIdCodec.decode_error he
    rfl
  · dsimp only
    have hchecked : ¬(taskForm request.form).errors ≠ [] := by simp [haccepted]
    refine Harmless.bind (Harmless.runTaskPage fun user => Harmless.onTask fun id => ?_)
      fun result => ?_
    · rw [if_neg hchecked]
      exact Harmless.updateTask (normalizeTitle_taskForm haccepted)
        (normalizeDescription_orNone haccepted) hstorable
    · rcases result with _ | ⟨user, _ | result⟩
      · exact Harmless.ret _
      · exact Harmless.ret _
      · refine Harmless.bind (Harmless.liftExcept (Harmless.taskView_error codec result))
          fun task => ?_
        rw [if_neg hchecked]
        split
        · exact Harmless.ret _
        · exact Harmless.ret _

end Actions

/-- **When the three layers agree.**  The form check covers the domain and the
database exactly when its texts, where the domain accepts them, are free of
U+0000: white space and the lengths are the same everywhere, and only PostgreSQL
knows the character it cannot store. -/
theorem formChecked_iff (form : Form) :
    FormChecked form ↔ (DomainAccepts form → NulFree form) := by
  constructor
  · intro h haccepted
    have herrors := taskForm_accepts_iff.mpr haccepted
    exact (storable_taskForm_iff herrors ⟨0, "", none, false, none, 0, 0⟩).mp (h.stored herrors _)
  · intro h
    have hstored : (taskForm form).errors = [] → ∀ row : TaskModel,
        ({ row with
            title := (taskForm form).values.title
            description := orNone (taskForm form).values.description } :
          TaskModel).storable = true := fun herrors row =>
      (storable_taskForm_iff herrors row).mpr (h (taskForm_accepts_iff.mp herrors))
    refine ⟨taskForm_accepts_iff, normalizeTitle_taskForm, normalizeDescription_taskForm, hstored,
      ?_⟩
    rintro herrors uni codec request rfl
    exact ⟨harmless_createTaskAction herrors (hstored herrors),
      harmless_editTaskAction herrors (hstored herrors)⟩

/-- The form check lets a title of U+0000 pass, and no row can hold it. -/
theorem formChecked_violated :
    ¬FormChecked fun key => if key = "title" then some (.text "a\x00b") else none := by
  rw [formChecked_iff]
  intro h
  refine (h ⟨⟨"a\x00b", by decide⟩, none, by decide⟩).1 ?_
  decide

end Lsstack
