/-
The page in the browser against the page of the server.

A visit loads `/tasks`, acts on the page, polls every row still pending, and asks for
`/tasks` again.

* `TaskVisit` — such a visit, beside the worker;
* **`TaskVisit.rows_agree`** — the rows in the page are those of the list;
* **`TaskVisit.agrees_iff`** — and the placeholder is, unless the last task was deleted from
  the page: nothing puts the placeholder back.
-/
import Lsstack.PageVisits

namespace Lsstack

open Concurrency

/-! ### Visits -/

/-- A visit.  At its start the session has no transaction open, and the others have only those
of the worker.  That the list is asked for at one moment means that the worker marks no task
from the polls on; the ids are those of a `bigint` column. -/
structure TaskVisit (isHash : String → String → Bool) (uni : Unicode) (codec : SqidsPublicIdCodec)
    (claims : SessionClaims) (i : ℕ) where
  (start loaded acted polled finish : Db)
  (t₀ t₁ t₂ t₃ t₄ : Instant)
  (page₁ page₂ page₃ page₄ : TaskPage)
  (response₁ response₂ : WebResponse)
  (steps polls : List (PageAction × Bool))
  idle : start.FreeOf i
  marks : ∀ k, MarksOnly i k (start.cell k)
  stored : Stored t₀ (seen i start)
  load : Requests isHash i (taskList codec (pageRequest claims)) t₀ t₁ start (.ok response₁) loaded
  loads : TaskPage.load response₁ = some page₁
  browse : Browses isHash uni codec claims i page₁ t₁ loaded steps page₂ t₂ acted
  poll : Browses isHash uni codec claims i page₂ t₂ acted polls page₃ t₃ polled
  polls_only : ∀ step ∈ polls, ∃ publicId, step.1 = .poll publicId
  polls_pending : ∀ row ∈ page₂.rows, row.processed = false → (.poll row.publicId, true) ∈ polls
  render : Requests isHash i (taskList codec (pageRequest claims)) t₃ t₄ polled (.ok response₂)
    finish
  renders : TaskPage.load response₂ = some page₄
  quiet : ∀ id, finish.row (.task id) = acted.row (.task id)
  bigint : finish.seq .tasks ≤ 2 ^ 63

namespace TaskVisit

variable {isHash : String → String → Bool} {uni : Unicode} {codec : SqidsPublicIdCodec}
  {claims : SessionClaims} {i : ℕ}

/-- The user's tasks when the page is loaded. -/
def owned (visit : TaskVisit isHash uni codec claims i) : Set ℕ :=
  {id | ∃ row, visit.start.row (.task id) = some row ∧ row.userId = claims.userId}

/-- The tasks there have been. -/
noncomputable def everOwned (visit : TaskVisit isHash uni codec claims i) : ℕ :=
  visit.owned.ncard + createdTasks visit.steps

section Loads

variable {lo hi : Instant} {w w' : Db} {response : WebResponse} {page : TaskPage}

/-- A page that is loaded shows the list. -/
theorem loads_list (hw : Between i w)
    (request : Requests isHash i (taskList codec (pageRequest claims)) lo hi w (.ok response) w')
    (hload : TaskPage.load response = some page) :
    Between i w' ∧ Marked (seen i w) (seen i w') ∧ ¬ Rejects claims lo (seen i w) ∧ ∃ views ids,
      page = .render views ∧ Listed (seen i w').rows claims.userId ids ∧
      List.Forall₂ (fun id view => ∃ row', (seen i w').rows (.task id) = some row' ∧
        row'.ShownBy codec id view ∧ ∀ row, (seen i w).rows (.task id) = some row →
          row.backgroundProcessedAt.isSome → view.backgroundProcessedAt.isSome) ids views := by
  have hsession : (pageRequest claims).session = some claims := rfl
  obtain ⟨hmarks, hrested, hmarked, hok⟩ := request.ensures hw.marks
    (ensures_taskList hsession hw.settled)
  obtain rfl | ⟨hvalid, user, views, ids, rfl, hlisted, hviews⟩ := hok response rfl
  · cases hload
  · obtain rfl := Option.some_inj.mp hload
    exact ⟨⟨hmarks, hrested.settled⟩, hmarked, hvalid, views, ids, rfl, hlisted, hviews⟩

end Loads

theorem between_start (visit : TaskVisit isHash uni codec claims i) : Between i visit.start where
  marks := visit.marks
  settled := funext fun k => World.view_eq_row (visit.idle k)

/-- What the rows of two pages have in common. -/
theorem rows_eq {R : ℕ → TaskRow → Prop} {S : ℕ → TaskView → Prop} {ids : List ℕ}
    {rows : List TaskRow} {views : List TaskView} (hrows : List.Forall₂ R ids rows)
    (hviews : List.Forall₂ S ids views)
    (h : ∀ row id view, R id row → S id view → row = view.taskRow) :
    rows = views.map TaskView.taskRow := by
  have hboth : List.Forall₂ (fun row view => row = view.taskRow) rows views :=
    forall₂_trans h hrows.flip hviews
  rw [← List.forall₂_eq_eq_eq, List.forall₂_map_right_iff]
  exact hboth

/-- What a visit comes to. -/
theorem outcome (visit : TaskVisit isHash uni codec claims i) : ∃ ids : List ℕ,
    visit.page₃.rows = visit.page₄.rows ∧
    (visit.page₃.emptyState = true ↔ visit.everOwned = 0) ∧
    (visit.page₄.emptyState = true ↔ ids.length = 0) ∧
    ids.length + deletedTasks visit.steps = visit.everOwned := by
  -- the page as it is loaded
  obtain ⟨hloaded, hmarked, -, views, ids₁, hpage₁, hlisted₁, hviews⟩ :=
    loads_list visit.between_start visit.load visit.loads
  have hinStep₁ : InStep codec claims i visit.t₁ visit.loaded ids₁ visit.page₁.rows := by
    refine ⟨hloaded, visit.stored.marked hmarked visit.load.1, hlisted₁, ?_⟩
    rw [hpage₁]
    refine List.forall₂_map_right_iff.mpr (hviews.imp ?_)
    exact fun id view ⟨row, hrow, hshown, _⟩ => ⟨row, hrow, hshown.onRow⟩
  have howned : visit.owned.ncard = ids₁.length := by
    have hstart := hlisted₁.congr fun id => (hmarked.places id).symm
    have heq : visit.owned = ids₁.toFinset := by
      ext id
      rw [Finset.mem_coe, List.mem_toFinset, hstart.mem]
      show (∃ row, visit.start.row (.task id) = some row ∧ row.userId = claims.userId) ↔ _
      rw [← World.view_eq_row (visit.idle (.task id))]
      rfl
    rw [heq, Set.ncard_coe_finset, List.toFinset_card_of_nodup hlisted₁.nodup]
  have hempty₁ : visit.page₁.emptyState = true ↔ ids₁.length = 0 := by
    rw [hpage₁, hviews.length_eq]
    show views.isEmpty = true ↔ _
    rw [List.isEmpty_iff, List.length_eq_zero_iff]
  -- the page asked for at the end, to which the session is valid
  obtain ⟨hacted, hrested₁, -⟩ := visit.browse.rested hloaded
  obtain ⟨hpolled, hrested₂, ht₃⟩ := visit.poll.rested hacted
  obtain ⟨hfinish, hmarked₄, hvalid₃, views₄, ids₄, hpage₄, hlisted₄, hviews₄⟩ :=
    loads_list hpolled visit.render visit.renders
  have hbigint₃ : (seen i visit.polled).seq .tasks ≤ 2 ^ 63 :=
    (hmarked₄.seq .tasks).trans visit.bigint
  -- the actions
  obtain ⟨ids, hinStep₂, hlength, hempty₂⟩ := visit.browse.inStep hinStep₁
    (fun hrejects => hvalid₃ (hrested₂.rejects ht₃ hrejects)) ((hrested₂.seq .tasks).trans hbigint₃)
  -- the polls
  have hawaits : List.Forall₂ (Awaits (seen i visit.acted) visit.polls) ids visit.page₂.rows := by
    have hflip := (List.forall₂_and_left _ _).mpr
      ⟨fun row hrow => visit.polls_pending row hrow, hinStep₂.displays.shown.flip⟩
    exact (hflip.imp fun row id h hpending => .inl (h.1 hpending)).flip
  obtain ⟨hinStep₃, hempty₃, hsince, hdone⟩ := visit.poll.polled visit.polls_only hinStep₂ hvalid₃
    hbigint₃ (.refl _) hawaits
  have hdisplays := hinStep₃.displays.marked hmarked₄
  have hids : ids₄ = ids := hlisted₄.unique hdisplays.listed
  subst hids
  refine ⟨ids₄, ?_, ?_, ?_, ?_⟩
  · rw [hpage₄]
    have hboth := List.Forall₂.mp (fun id row => And.intro) hinStep₃.displays.shown hdone
    refine rows_eq hboth hviews₄ ?_
    rintro row id view ⟨⟨model, hmodel, honRow⟩, hwaits⟩ ⟨row', hrow', hshown, hmark⟩
    obtain ⟨model', hmodel', hkeeps⟩ := hmarked₄.task hmodel
    obtain rfl := Option.some_inj.mp (hmodel'.symm.trans hrow')
    refine (honRow.keeps hkeeps).eq hshown.onRow ?_
    show row.processed = view.backgroundProcessedAt.isSome
    cases hrow : row.processed with
    | true => exact (hmark model hmodel (honRow.marked hrow)).symm
    | false =>
      -- a mark in the list was there when the polls began
      refine (Bool.eq_false_iff.mpr fun hview => ?_).symm
      have hsame : (seen i visit.acted).rows (.task id) = some model' := by
        rw [hacted.settled, ← hmodel', hfinish.settled]
        exact (visit.quiet id).symm
      have hunmarked := (hwaits hrow).resolve_left (List.not_mem_nil) model' hsame
      have hmarked' := hshown.marked hview
      rw [hunmarked] at hmarked'
      cases hmarked'
  · rw [hempty₃, hempty₂, hempty₁, everOwned, howned, Nat.add_eq_zero_iff]
  · rw [hpage₄, hviews₄.length_eq]
    show views₄.isEmpty = true ↔ _
    rw [List.isEmpty_iff, List.length_eq_zero_iff]
  · rw [everOwned, howned, hlength]

/-- **The rows of the page are those of the list.** -/
theorem rows_agree (visit : TaskVisit isHash uni codec claims i) :
    visit.page₃.rows = visit.page₄.rows := by
  obtain ⟨-, hrows, -⟩ := visit.outcome
  exact hrows

/-- **And so is the placeholder**, unless all the tasks there have been were deleted. -/
theorem agrees_iff (visit : TaskVisit isHash uni codec claims i) :
    visit.page₃ = visit.page₄ ↔
      visit.everOwned = 0 ∨ visit.everOwned ≠ deletedTasks visit.steps := by
  obtain ⟨ids, hrows, hempty₃, hempty₄, hlength⟩ := visit.outcome
  have hpages : visit.page₃ = visit.page₄ ↔
      (visit.page₃.emptyState = true ↔ visit.page₄.emptyState = true) := by
    generalize visit.page₃ = page₃ at hrows ⊢
    generalize visit.page₄ = page₄ at hrows ⊢
    obtain ⟨rows₃, empty₃⟩ := page₃
    obtain ⟨rows₄, empty₄⟩ := page₄
    rw [TaskPage.mk.injEq, ← Bool.eq_iff_iff]
    exact and_iff_right hrows
  rw [hpages, hempty₃, hempty₄]
  omega

end TaskVisit

/-! ### The last task is deleted -/

instance ClockWithin.decidable (lo hi : Instant) :
    (x : Outside) → (v : x.Reply) → Decidable (ClockWithin lo hi x v)
  | .now, t => inferInstanceAs (Decidable (lo ≤ t ∧ t ≤ hi))
  | .uuid4, _ => inferInstanceAs (Decidable True)
  | .serverNow, _ => inferInstanceAs (Decidable True)
  | .hash _, _ => inferInstanceAs (Decidable True)
  | .verify _ _, _ => inferInstanceAs (Decidable True)
  | .verifyUnknown _, _ => inferInstanceAs (Decidable True)
  | .enqueue _, _ => inferInstanceAs (Decidable True)

/-- A handler answers at time 0, with nobody beside it. -/
def answersAlone (handler : Tx WebResponse) (w : Db) : Option (WebResponse × Db) :=
  match Program.replay (attempt Fault.exn (outside saltedHash) (ClockWithin 0 0) 0)
      [.ext (.time 0), .ok, .ok, .ok] handler w with
  | some (.ok response, w') => some (response, w')
  | _ => none

theorem tries_of_attempt {w w' : Db} {c : Command} {x : Choice Fault Decision}
    {r : Except Exn c.Reply}
    (h : attempt Fault.exn (outside saltedHash) (ClockWithin 0 0) 0 w c x = some (r, w')) :
    Tries Fault.exn (outside saltedHash) (ClockWithin 0 0) 0 w c r w' :=
  (does_of_attempt h).tries

theorem requests_of_answered {handler : Tx WebResponse} {w : Db} {x : WebResponse × Db}
    (h : answersAlone handler w = some x) : Requests saltedHash 0 handler 0 0 w (.ok x.1) x.2 := by
  unfold answersAlone at h
  split at h
  · rename_i response w' hreplay
    obtain rfl := Option.some_inj.mp h
    have hruns : handler.Performs (Tries Fault.exn (outside saltedHash) (ClockWithin 0 0) 0) w
        (.ok response) w' := Program.performs_of_replay tries_of_attempt hreplay
    exact ⟨le_rfl, hruns.runs fun _ => .refl⟩
  · cases h

/-- A task the worker has marked. -/
def lastTask : TaskModel where
  userId := 1
  title := "Buy milk"
  description := none
  isCompleted := false
  backgroundProcessedAt := some 0
  createdAt := 0
  updatedAt := 0

/-- A user with this task only. -/
def lastTaskDb : Db := storedDb (⟨.task 1, lastTask⟩ :: adaRows) fun _ => 2

/-- The only task. -/
theorem lastTaskDb_task {id : ℕ} {row : TaskModel}
    (h : (seen 0 lastTaskDb).rows (.task id) = some row) : id = 1 ∧ row = lastTask := by
  have hrow : lastTaskDb.row (.task id) = some row :=
    (Cell.view_of_owner_ne (by rw [lastTaskDb, storedDb_unlocked]; exact nofun)).symm.trans h
  simpa [adaRows] using storedDb_row hrow

/-- The public ids of three letters. -/
def plainCodec : SqidsPublicIdCodec := ⟨Plain.sqids "abc".toList (by decide) (by decide)⟩

/-- A session of the user. -/
def lastClaims : SessionClaims := ⟨1, 0, 0, 1⟩

/-- The user of that session. -/
def lastUser : CurrentUser := ⟨1, "ada@example.org", 0⟩

/-- The page is loaded, the task is deleted, and the list is asked for. -/
def lastLoaded : Db := lastTaskDb.commit 0 (.visited lastUser)

def lastDeleted : Db := (lastLoaded.write 0 (.task 1) none).commit 0 (.visited lastUser)

def lastRendered : Db := lastDeleted.commit 0 (.visited lastUser)

theorem answered_load : answersAlone (taskList plainCodec (pageRequest lastClaims)) lastTaskDb =
    some (listPage "tasks/list.html" lastUser [⟨"aa", "Buy milk", none, false, some 0, 0⟩] [] none
      none, lastLoaded) := rfl

theorem answered_delete :
    answersAlone ((PageAction.delete "aa").handler plainText plainCodec lastClaims) lastLoaded =
      some (.response "" "text/html" 200, lastDeleted) := by
  have hdecode : plainCodec.decode "aa" = .ok (some 1) := by
    have hmax : 1 ≤ maxsize := by decide
    obtain ⟨publicId, hencode, hdecode⟩ := plainCodec.decode_encode (le_refl 1) hmax
    have haa : plainCodec.encode 1 = .ok "aa" := rfl
    obtain rfl := Except.ok.inj (hencode.symm.trans haa)
    exact hdecode
  show answersAlone (deleteTaskAction plainText plainCodec _ "aa") lastLoaded = _
  unfold deleteTaskAction
  rw [hdecode]
  rfl

theorem answered_render : answersAlone (taskList plainCodec (pageRequest lastClaims)) lastDeleted =
    some (listPage "tasks/list.html" lastUser [] [] none none, lastRendered) := rfl

/-- The only task is deleted from the page. -/
def lastVisit : TaskVisit saltedHash plainText plainCodec lastClaims 0 where
  start := lastTaskDb
  loaded := lastLoaded
  acted := lastDeleted
  polled := lastDeleted
  finish := lastRendered
  t₀ := 0
  t₁ := 0
  t₂ := 0
  t₃ := 0
  t₄ := 0
  page₁ := ⟨[⟨"aa", "Buy milk", none, false, true⟩], false⟩
  page₂ := ⟨[], false⟩
  page₃ := ⟨[], false⟩
  page₄ := ⟨[], true⟩
  response₁ := listPage "tasks/list.html" lastUser [⟨"aa", "Buy milk", none, false, some 0, 0⟩] []
    none none
  response₂ := listPage "tasks/list.html" lastUser [] [] none none
  steps := [(.delete "aa", true)]
  polls := []
  idle := fun k h => by
    rw [lastTaskDb, storedDb_free] at h
    cases h
  marks := fun k j v h => by
    rw [lastTaskDb, storedDb_free] at h
    cases h
  stored := by
    refine ⟨by decide, fun id row hrow => ?_⟩
    obtain ⟨rfl, rfl⟩ := lastTaskDb_task hrow
    decide
  load := requests_of_answered answered_load
  loads := rfl
  browse := by
    have offered :
        TaskPage.Offers ⟨[⟨"aa", "Buy milk", none, false, true⟩], false⟩ (.delete "aa") :=
      ⟨_, List.mem_cons_self, rfl⟩
    exact .cons offered (requests_of_answered answered_delete) rfl (.nil _ _ _)
  poll := .nil _ _ _
  polls_only := by simp
  polls_pending := by simp
  render := requests_of_answered answered_render
  renders := rfl
  quiet := by
    intro id
    rw [lastRendered, World.commit_row]
    exact World.view_eq_row (Cell.publish_owner_ne _ _)
  bigint := by decide

/-- **The placeholder does not come back.** -/
theorem agrees_violated :
    ¬ ∀ visit : TaskVisit saltedHash plainText plainCodec lastClaims 0,
      visit.page₃ = visit.page₄ :=
  fun h => absurd (h lastVisit) (by decide)

/-- And it need not: one task there was, and one was deleted. -/
theorem agrees_iff_last :
    ¬ (lastVisit.everOwned = 0 ∨ lastVisit.everOwned ≠ deletedTasks lastVisit.steps) :=
  fun h => absurd (lastVisit.agrees_iff.mpr h) (by decide)

end Lsstack
