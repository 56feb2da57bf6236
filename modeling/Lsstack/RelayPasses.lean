/-
A relay pass, statement by statement, amid any other sessions.

Between two statements of the pass the others may do whatever they like to rows the pass
has not locked, except to unpublish a message (`Others`); every statement may fail, and a
commit may be lost.

* `TaskSystemRun.others` — that is what the other processes of the system do;
* `ClaimsAt` — what the claim does, from its reading of the clock and its SELECT on;
* `ClaimsAt.first` — it claims the first candidates, as far as nobody changes them meanwhile;
* `Handled` — what the pass does to one message;
* `relayMessage_cases`, `relayMessages_cases` — the handling of a batch, message by message;
* **`relay_once_exact`** — the whole pass.
-/
import Lsstack.OutboxCommits
import Lsstack.RelayClaims

namespace Lsstack

open Concurrency

/-! ### Runs of the relay -/

/-- One statement of a pass. -/
abbrev RelayEvent := StoreEvent Key Row Sequence Outcome Queue Outside Outside.Reply Exn

/-- The message is published. -/
def Published (id : Uuid) (w : Db) : Prop :=
  ∃ row, w.row (.message id) = some row ∧ row.publishedAt ≠ none

/-- What the other sessions may do. -/
structure Others (i : ℕ) (w w' : Db) : Prop where
  locks : Interferes i w w'
  published : ∀ id, Published id w → Published id w'

/-- A published message stays published. -/
theorem MessageStep.published {clock : Option Instant} {out : Outcome} {id : Uuid}
    {row : OutboxMessageModel} {row' : Option OutboxMessageModel}
    (h : MessageStep clock out id (some row) row') (hrow : row.publishedAt ≠ none) :
    ∃ row'', row' = some row'' ∧ row''.publishedAt ≠ none := by
  cases h with
  | same => exact ⟨row, rfl, hrow⟩
  | claimed => exact ⟨_, rfl, hrow⟩
  | acknowledged => exact ⟨_, rfl, nofun⟩
  | failed => exact ⟨_, rfl, hrow⟩

/-- The steps of the system in which a process has no part are such. -/
theorem TaskSystemRun.others {allowed : Request → Prop} (run : TaskSystemRun allowed) (n : ℕ)
    {i : ℕ} (hi : (run.state (n + 1)).procs i = (run.state n).procs i) :
    Others i (run.state n).world (run.state (n + 1)).world where
  locks := by
    -- what another process does moves no cell that `i` holds
    have hmoves : ∀ {j : ℕ} {w w' : Db}, j ≠ i → (∀ k, (w.cell k).Moves j (w'.cell k)) →
        Interferes i w w' := by
      intro j w w' hj hm k hk
      have howner : (w.cell k).hold.owner = some i := by
        obtain hk | hk := hk
        · exact hk
        · exact (hm k).owner hk hj.symm
      exact (hm k).foreign howner hj.symm
    obtain hn | hn := run.next n
    · rw [hn]
      exact fun _ _ => rfl
    obtain ⟨j, q, -, heq⟩ | ⟨j, q, calls, c, k, x, r, w, hp, he, heq⟩ |
      ⟨j, q, calls, c, k, hp, heq⟩ := hn.cases
    · rw [heq]
      exact fun _ _ => rfl
    · rw [heq] at hi ⊢
      refine hmoves ?_ (exec_moves he)
      rintro rfl
      rw [Config.set_procs_self, hp] at hi
      have hcalls := congrArg Process.calls (Option.some_inj.mp hi)
      exact absurd hcalls (List.cons_ne_self _ _)
    · rw [heq] at hi ⊢
      refine hmoves ?_ release_moves
      rintro rfl
      rw [Config.set_procs_self, hp] at hi
      cases hi
  published := by
    rintro id ⟨row, hrow, hpublished⟩
    obtain ⟨hrows, -⟩ | ⟨j, p, out, hcommit⟩ := run.step n
    · exact ⟨row, (hrows _).trans hrow, hpublished⟩
    · have hstep := hcommit.message id
      rw [hrow] at hstep
      exact hstep.published hpublished

/-- Code of session `i`, run amid others. -/
abbrev RelayRun (i : ℕ) {α : Type} (p : Tx α) (w : Db) (events : List RelayEvent)
    (a : Except Exn α) (w' : Db) : Prop :=
  p.Runs (Others i) (Acts Fault.exn (outside fun _ _ => false) i) w events a w'

/-- The enqueue calls of a stretch, in order. -/
def enqueues (events : List RelayEvent) : List EnqueueCall :=
  events.filterMap fun event =>
    match event.command with
    | .ext (.enqueue call) => some call
    | _ => none

theorem enqueues_append (e₁ e₂ : List RelayEvent) :
    enqueues (e₁ ++ e₂) = enqueues e₁ ++ enqueues e₂ := List.filterMap_append

/-- The messages whose acknowledgement has returned `True`, in order. -/
def counted (events : List RelayEvent) : List Uuid :=
  events.filterMap fun event =>
    match event with
    | ⟨_, .commit (.acknowledged id _ true), .ok _, _⟩ => some id
    | _ => none

theorem counted_append (e₁ e₂ : List RelayEvent) :
    counted (e₁ ++ e₂) = counted e₁ ++ counted e₂ :=
  List.filterMap_append

/-- The message a commit acknowledges. -/
def Outcome.acknowledges : Outcome → List Uuid
  | .acknowledged id _ true => [id]
  | _ => []

theorem counted_commit (w w' : Db) (out : Outcome) (u : Unit) :
    counted [⟨w, .commit out, .ok u, w'⟩] = out.acknowledges := by
  cases out with
  | acknowledged id owner result => cases result <;> rfl
  | _ => rfl

/-- At some statement of the stretch the message was not the owner's to mark: another has
taken it over, or it is published. -/
def Taken (owner : String) (id : Uuid) (events : List RelayEvent) : Prop :=
  ∃ event ∈ events, ∀ row, event.before.row (.message id) = some row →
    OutboxRepository.ownedUnpublished owner row = false

section Transactions

variable {i : ℕ} {w w' : Db} {events : List RelayEvent}

theorem Published.of_row {id : Uuid} (h : ∀ k, w'.row k = w.row k) (hw : Published id w) :
    Published id w' := by
  obtain ⟨row, hrow, hpublished⟩ := hw
  exact ⟨row, (h _).trans hrow, hpublished⟩

/-- A transaction has committed, its commit has failed, or its operation has. -/
theorem transactionRunner_cases {α : Type} {outcome : α → Outcome} {operation : Tx α}
    {a : Except Exn α} (h : RelayRun i (transactionRunner outcome operation) w events a w') :
    (∃ v e₁ w₁ w₂, a = .ok v ∧ events = e₁ ++ [⟨w₂, .commit (outcome v), .ok (), w'⟩] ∧
      RelayRun i operation w e₁ (.ok v) w₁ ∧ Others i w₁ w₂ ∧
      Acts Fault.exn (outside fun _ _ => false) i w₂ (.commit (outcome v)) (.ok ()) w') ∨
    (∃ v e e₁ w₁ w₂ w₃ w₄, a = .error e ∧
      events = e₁ ++ [⟨w₂, .commit (outcome v), .error e, w₃⟩, ⟨w₄, .rollback, .ok (), w'⟩] ∧
      RelayRun i operation w e₁ (.ok v) w₁ ∧ Others i w₁ w₂ ∧
      Acts Fault.exn (outside fun _ _ => false) i w₂ (.commit (outcome v)) (.error e) w₃ ∧
      Others i w₃ w₄ ∧ Acts Fault.exn (outside fun _ _ => false) i w₄ .rollback (.ok ()) w') ∨
    ∃ e e₁ w₁ w₂, a = .error e ∧ events = e₁ ++ [⟨w₂, .rollback, .ok (), w'⟩] ∧
      RelayRun i operation w e₁ (.error e) w₁ ∧ Others i w₁ w₂ ∧
      Acts Fault.exn (outside fun _ _ => false) i w₂ .rollback (.ok ()) w' := by
  -- the handler rolls back and raises the exception again, since a rollback does not fail
  have hrollback : ∀ {e : Exn} {w₁ : Db} {e₂ : List RelayEvent} {a : Except Exn α},
      RelayRun i (rollback.bind fun _ => .raise e) w₁ e₂ a w' → ∃ w₂, a = .error e ∧
        e₂ = [⟨w₂, .rollback, .ok (), w'⟩] ∧ Others i w₁ w₂ ∧
        Acts Fault.exn (outside fun _ _ => false) i w₂ .rollback (.ok ()) w' := by
    intro e w₁ e₂ a h
    obtain ⟨u, e₃, e₄, w₃, rfl, hroll, hraise⟩ | ⟨e', rfl, hroll⟩ := h.bind_cases
    · obtain ⟨rfl, rfl, rfl⟩ := hraise.raise_cases
      obtain ⟨w₂, rfl, hothers, hacts⟩ := hroll.perform_cases
      obtain ⟨hr, -⟩ := hacts.rollback_cases
      exact ⟨w₂, rfl, rfl, hothers, hacts⟩
    · obtain ⟨w₂, -, -, hacts⟩ := hroll.perform_cases
      cases hacts.rollback_cases.1
  -- nothing raises, or the commit does, or the operation
  obtain ⟨v, rfl, hok⟩ | ⟨e, e₁, e₂, w₁, rfl, hraised, hhandled⟩ := h.handle_cases
  · obtain ⟨v', e₁, e₂, w₁, rfl, hop, hrest⟩ | ⟨e, he, -⟩ := hok.bind_cases
    · obtain ⟨u, e₃, e₄, w₂, rfl, hcommit, hret⟩ | ⟨e, he, -⟩ := hrest.bind_cases
      · obtain ⟨rfl, hv, rfl⟩ := hret.ret_cases
        cases hv
        obtain ⟨w₂, rfl, hothers, hacts⟩ := hcommit.perform_cases
        exact .inl ⟨v, e₁, w₁, w₂, rfl, rfl, hop, hothers, hacts⟩
      · cases he
    · cases he
  · obtain ⟨w₂, rfl, rfl, hothers, hacts⟩ := hrollback hhandled
    obtain ⟨v, e₃, e₄, w₃, rfl, hop, hrest⟩ | ⟨e', he, hop⟩ := hraised.bind_cases
    · obtain ⟨u, e₅, e₆, w₄, rfl, hcommit, hret⟩ | ⟨e', he, hcommit⟩ := hrest.bind_cases
      · obtain ⟨-, hv, -⟩ := hret.ret_cases
        cases hv
      · cases he
        obtain ⟨w₄, rfl, hothers', hacts'⟩ := hcommit.perform_cases
        exact .inr (.inl ⟨v, e, e₃, w₃, w₄, w₁, w₂, rfl, by simp, hop, hothers', hacts', hothers,
          hacts⟩)
    · cases he
      exact .inr (.inr ⟨e, e₁, w₁, w₂, rfl, rfl, hop, hothers, hacts⟩)

end Transactions

/-! ### Marking one message -/

/-- The operation of a transaction marks a message the owner still holds and that is not
published, or finds that it does not. -/
def Marks (i : ℕ) (operation : Tx Bool) (id : Uuid) (owner : String)
    (mark : OutboxMessageModel → OutboxMessageModel → Prop) : Prop :=
  ∀ {w events a w'}, RelayRun i operation w events a w' → w.FreeOf i →
    Quiet events ∧ enqueues events = [] ∧ counted events = [] ∧
    (w'.FreeOf i ∧ (Published id w → Published id w') ∧
        ((∃ e, a = .error e) ∨ a = .ok false ∧ Taken owner id events) ∨
      ∃ row row', a = .ok true ∧ OutboxRepository.ownedUnpublished owner row = true ∧
        mark row row' ∧ ¬ Published id w ∧ w'.row (.message id) = some row ∧
        w'.Holds i (.message id) row')

section Marking

variable {i : ℕ} {w w' : Db} {events : List RelayEvent} {id : Uuid} {owner : String}

theorem not_published_of_owned {row : OutboxMessageModel}
    (h : OutboxRepository.ownedUnpublished owner row = true)
    (hrow : w.row (.message id) = some row) : ¬ Published id w := by
  rintro ⟨row', hrow', hpublished⟩
  obtain rfl := Option.some_inj.mp (hrow.symm.trans hrow')
  simp only [OutboxRepository.ownedUnpublished, Bool.and_eq_true, Option.isNone_iff_eq_none] at h
  exact hpublished h.2

/-- One guarded UPDATE of the message marks it. -/
theorem marks_update {f : OutboxMessageModel → OutboxMessageModel} :
    Marks i ((update (.message id) (OutboxRepository.ownedUnpublished owner) f).bind fun marked =>
      .ret marked.isSome) id owner fun row row' => row' = f row := by
  intro w events a w' h hw
  have hone : ∀ {r : Except Exn (Option (Row (.message id)))} {e₁ : List RelayEvent} {w₁ : Db},
      RelayRun i (update (.message id) (OutboxRepository.ownedUnpublished owner) f) w e₁ r w₁ →
      ∃ w₀, e₁ = [⟨w₀, .update (.message id) (OutboxRepository.ownedUnpublished owner) f, r, w₁⟩] ∧
        Others i w w₀ ∧ Acts Fault.exn (outside fun _ _ => false) i w₀
          (.update (.message id) (OutboxRepository.ownedUnpublished owner) f) r w₁ :=
    fun hrun => hrun.perform_cases
  obtain ⟨v, e₁, e₂, w₁, rfl, hrun, hret⟩ | ⟨e, rfl, hrun⟩ := h.bind_cases
  · obtain ⟨rfl, rfl, rfl⟩ := hret.ret_cases
    obtain ⟨w₀, rfl, hothers, hacts⟩ := hone hrun
    obtain ⟨hfree, hrows, ⟨e, he⟩ | ⟨hr, htaken⟩⟩ | ⟨row, hr, hrow, howned, hrows, hholds⟩ :=
      hacts.update_cases (hothers.locks.freeOf hw)
    · cases he
    · cases hr
      refine ⟨.single hrows, rfl, rfl,
        .inl ⟨hfree, fun h => ?_, .inr ⟨rfl, _, List.mem_cons_self, htaken⟩⟩⟩
      exact (hothers.published id h).of_row hrows
    · cases hr
      refine ⟨.single hrows, rfl, rfl, .inr ⟨row, f row, rfl, howned, rfl, fun h => ?_, ?_, hholds⟩⟩
      · exact not_published_of_owned howned hrow (hothers.published id h)
      · exact (hrows _).trans hrow
  · obtain ⟨w₀, rfl, hothers, hacts⟩ := hone hrun
    obtain ⟨hfree, hrows, -⟩ | ⟨row, hr, -⟩ := hacts.update_cases (hothers.locks.freeOf hw)
    · refine ⟨.single hrows, rfl, rfl, .inl ⟨hfree, fun h => ?_, .inl ⟨e, rfl⟩⟩⟩
      exact (hothers.published id h).of_row hrows
    · cases hr

theorem marks_failMessage {error : String} :
    Marks i (failMessage id owner error) id owner
      fun row row' => row' = row.failing (safeError error) :=
  marks_update

/-- The clock is read first. -/
theorem marks_acknowledgeMessage :
    Marks i (acknowledgeMessage id owner) id owner
      fun row row' => ∃ t, row' = row.acknowledged t := by
  intro w events a w' h hw
  have hread : ∀ {w₀ w₁ : Db} {r : Except Exn Instant}, Others i w w₀ →
      Acts Fault.exn (outside fun _ _ => false) i w₀ (.ext .now) r w₁ →
      w₁.FreeOf i ∧ (Published id w → Published id w₁) ∧ ∀ k, w₁.row k = w₀.row k := by
    intro w₀ w₁ r hothers hacts
    have hcells := hacts.ext_cases
    have hrows : ∀ k, w₁.row k = w₀.row k := fun k => congrArg Cell.committed (hcells k)
    refine ⟨fun k => ?_, fun h => (hothers.published id h).of_row hrows, hrows⟩
    rw [hcells k]
    exact hothers.locks.freeOf hw k
  obtain ⟨t, e₁, e₂, w₁, rfl, hnow, hrest⟩ | ⟨e, rfl, hnow⟩ := h.bind_cases
  · obtain ⟨w₀, rfl, hothers, hacts⟩ := hnow.perform_cases
    obtain ⟨hfree, hpublished, hrows⟩ := hread hothers hacts
    obtain ⟨hquiet, hcalls, hacks, hcase⟩ := marks_update hrest hfree
    refine ⟨Quiet.append (.single hrows) hquiet, hcalls, hacks, ?_⟩
    obtain ⟨hfree', hkept, hr⟩ | ⟨row, row', rfl, howned, rfl, hnot, hrow, hholds⟩ := hcase
    · refine .inl ⟨hfree', fun h => hkept (hpublished h), ?_⟩
      obtain he | ⟨rfl, event, hmem, htaken⟩ := hr
      · exact .inl he
      · exact .inr ⟨rfl, event, List.mem_cons_of_mem _ hmem, htaken⟩
    · exact .inr ⟨row, _, rfl, howned, ⟨t, rfl⟩, fun h => hnot (hpublished h), hrow, hholds⟩
  · obtain ⟨w₀, rfl, hothers, hacts⟩ := hnow.perform_cases
    obtain ⟨hfree, hpublished, hrows⟩ := hread hothers hacts
    exact ⟨.single hrows, rfl, rfl, .inl ⟨hfree, hpublished, .inl ⟨e, rfl⟩⟩⟩

/-- **A marking transaction** marks the message and publishes that, or changes nothing. -/
theorem Marks.transaction {operation : Tx Bool} {outcome : Bool → Outcome}
    {mark : OutboxMessageModel → OutboxMessageModel → Prop} {a : Except Exn Bool}
    (hop : Marks i operation id owner mark) (hw : w.FreeOf i)
    (h : RelayRun i (transactionRunner outcome operation) w events a w') :
    w'.FreeOf i ∧ enqueues events = [] ∧
    (∀ b, a = .ok b → counted events = (outcome b).acknowledges) ∧
    ((∃ e, a = .error e) → counted events = []) ∧
    (Quiet events ∧ (Published id w → Published id w') ∧
        ((∃ e, a = .error e) ∨ a = .ok false ∧ Taken owner id events) ∨
      ∃ row row', OutboxRepository.ownedUnpublished owner row = true ∧ mark row row' ∧
        ¬ Published id w ∧ Writes (.message id) row row' events ∧
        (row'.publishedAt ≠ none → Published id w') ∧ (a = .ok true ∨ ∃ e, a = .error e)) := by
  obtain ⟨v, e₁, w₁, w₂, rfl, rfl, hrun, hothers, hcommit⟩ |
    ⟨v, e, e₁, w₁, w₂, w₃, w₄, rfl, rfl, hrun, hothers, hcommit, hothers', hrollback⟩ |
    ⟨e, e₁, w₁, w₂, rfl, rfl, hrun, hothers, hrollback⟩ := transactionRunner_cases h
  -- the commit has succeeded
  · obtain ⟨hquiet, hcalls, hacks, hcase⟩ := hop hrun hw
    refine ⟨?_, by rw [enqueues_append, hcalls]; rfl, ?_, nofun, ?_⟩
    · obtain ⟨hfree, -⟩ | ⟨row, row', -, -, -, -, -, hholds⟩ := hcase
      · exact (hcommit.commit_free (hothers.locks.freeOf hfree)).1
      · obtain ⟨e, he, -⟩ | ⟨hfree, -⟩ := hcommit.commit_cases (hothers.locks.holds hholds)
        · cases he
        · exact hfree
    · rintro b ⟨⟩
      rw [counted_append, hacks, counted_commit, List.nil_append]
    obtain ⟨hfree, hkept, hr⟩ | ⟨row, row', hv, howned, hmark, hnot, hrow, hholds⟩ := hcase
    · obtain ⟨-, hrows⟩ := hcommit.commit_free (hothers.locks.freeOf hfree)
      refine .inl ⟨hquiet.append (.single hrows),
        fun h => (hothers.published id (hkept h)).of_row hrows, ?_⟩
      obtain ⟨e, he⟩ | ⟨hv, event, hmem, htaken⟩ := hr
      · cases he
      · exact .inr ⟨hv, event, List.mem_append_left _ hmem, htaken⟩
    · obtain ⟨e, he, -⟩ | ⟨-, hrow', hrest⟩ := hcommit.commit_cases (hothers.locks.holds hholds)
      · cases he
      refine .inr ⟨row, row', howned, hmark, hnot, ?_, fun h => ⟨row', hrow', h⟩, .inl hv⟩
      exact ⟨e₁, _, [], rfl, hquiet, .nil, (hothers.locks.row hholds).trans hrow, hrow', hrest⟩
  -- the commit raises, whether it has taken effect or not
  · obtain ⟨hquiet, hcalls, hacks, hcase⟩ := hop hrun hw
    obtain ⟨-, hfree', hrows'⟩ := hrollback.rollback_cases
    refine ⟨hfree', by rw [enqueues_append, hcalls]; rfl, nofun, fun _ => ?_, ?_⟩
    · rw [counted_append, hacks, List.nil_append]
      unfold counted
      simp
    have hunchanged : (∀ k, w₃.row k = w₂.row k) → Quiet (e₁ ++
        [⟨w₂, .commit (outcome v), .error e, w₃⟩, (⟨w₄, .rollback, .ok (), w'⟩ : RelayEvent)]) :=
      fun hrows => hquiet.append (Quiet.append (.single hrows) (.single hrows'))
    obtain ⟨hfree, hkept, -⟩ | ⟨row, row', -, howned, hmark, hnot, hrow, hholds⟩ := hcase
    · obtain ⟨-, hrows⟩ := hcommit.commit_free (hothers.locks.freeOf hfree)
      refine .inl ⟨hunchanged hrows, fun h => ?_, .inl ⟨e, rfl⟩⟩
      have hcommitted := (hothers.published id (hkept h)).of_row hrows
      exact (hothers'.published id hcommitted).of_row hrows'
    · obtain ⟨e', -, rfl⟩ | ⟨-, hrow', hrest⟩ :=
        hcommit.commit_cases (hothers.locks.holds hholds)
      · exact .inl ⟨hunchanged fun _ => rfl, fun h => absurd h hnot, .inl ⟨e, rfl⟩⟩
      · -- the commit has taken effect and is reported as failed
        refine .inr ⟨row, row', howned, hmark, hnot, ?_, fun h => ?_, .inr ⟨e, rfl⟩⟩
        · exact ⟨e₁, _, _, rfl, hquiet, .single hrows', (hothers.locks.row hholds).trans hrow,
            hrow', hrest⟩
        · exact (hothers'.published id ⟨row', hrow', h⟩).of_row hrows'
  -- the operation raises, and nothing of it is committed
  · obtain ⟨hquiet, hcalls, hacks, hcase⟩ := hop hrun hw
    obtain ⟨-, hfree', hrows'⟩ := hrollback.rollback_cases
    refine ⟨hfree', by rw [enqueues_append, hcalls]; rfl, nofun, fun _ => ?_, ?_⟩
    · rw [counted_append, hacks, List.nil_append]
      unfold counted
      simp
    obtain ⟨hfree, hkept, -⟩ | ⟨row, row', hv, -⟩ := hcase
    · exact .inl ⟨hquiet.append (.single hrows'),
        fun h => (hothers.published id (hkept h)).of_row hrows', .inl ⟨e, rfl⟩⟩
    · cases hv

end Marking

/-! ### One message -/

/-- A recorded error is a text of at most 2000 characters, and never empty. -/
theorem safeError_text (error : String) :
    safeError error ≠ "" ∧ (safeError error).length ≤ 2000 := by
  simp only [safeError]
  split
  · decide
  · refine ⟨by assumption, ?_⟩
    rw [← String.length_toList, truncate, String.toList_ofList, List.length_take]
    omega

/-- What the row of a message becomes in the course of its handling. -/
inductive Ends (owner : String) (id : Uuid) (events : List RelayEvent) : Bool → Prop
  | published {b : Bool} {row : OutboxMessageModel} {t : Instant}
      (owned : OutboxRepository.ownedUnpublished owner row = true)
      (writes : Writes (.message id) row (row.acknowledged t) events) : Ends owner id events b
  | failed {row : OutboxMessageModel} {error : String}
      (owned : OutboxRepository.ownedUnpublished owner row = true)
      (nonempty : error ≠ "") (short : error.length ≤ 2000)
      (writes : Writes (.message id) row (row.failing error) events) : Ends owner id events false
  | untouched (quiet : Quiet events) (taken : Taken owner id events) : Ends owner id events false

/-- **What a pass does about one message**: `b` says that its acknowledgement returned
`True`. -/
structure Handled (i : ℕ) (owner : String) (message : ClaimedMessage) (events : List RelayEvent)
    (b : Bool) : Prop where
  runs : ∃ n w w', RelayRun i (relayMessage owner n message) w events (.ok (n + b.toNat)) w'
  enqueues : enqueues events = if message.topic = taskCreatedTopic then
    [enqueueCall taskCreatedJob message] else []
  counted : counted events = if b then [message.id] else []
  ends : Ends owner message.id events b

/-- The transaction that records a failure has itself raised `e`. -/
def Unrecorded (i : ℕ) (owner : String) (e : Exn) (events : List RelayEvent) : Prop :=
  ∃ id error pre post w w', events = pre ++ post ∧
    RelayRun i (transactionRunner (.failed id owner) (failMessage id owner error)) w post
      (.error e) w'

section Messages

variable {i : ℕ} {w w' : Db} {events : List RelayEvent} {owner : String} {message : ClaimedMessage}

/-- The queue is asked once if there is a job for the topic, and never otherwise. -/
theorem publishMessage_cases {a : Except Exn Unit}
    (h : RelayRun i (publishMessage message) w events a w') (hw : w.FreeOf i) :
    w'.FreeOf i ∧ Quiet events ∧ counted events = [] ∧
    enqueues events = if message.topic = taskCreatedTopic then
      [enqueueCall taskCreatedJob message] else [] := by
  by_cases htopic : message.topic = taskCreatedTopic
  · have hjob : jobName message.topic = .ok taskCreatedJob := by
      rw [htopic]
      rfl
    rw [if_pos htopic]
    -- an enqueue touches no row and releases no lock
    have hcall : ∀ {r : Except Exn Bool} {e₁ : List RelayEvent} {w₁ : Db},
        RelayRun i (call (.enqueue (enqueueCall taskCreatedJob message))) w e₁ r w₁ →
        w₁.FreeOf i ∧ Quiet e₁ ∧ counted e₁ = [] ∧
          enqueues e₁ = [enqueueCall taskCreatedJob message] := by
      intro r e₁ w₁ hrun
      obtain ⟨w₀, rfl, hothers, hacts⟩ := hrun.perform_cases
      have hcells := hacts.ext_cases
      refine ⟨fun k => ?_, .single fun k => congrArg Cell.committed (hcells k), rfl, rfl⟩
      rw [hcells k]
      exact hothers.locks.freeOf hw k
    rw [publishMessage, hjob] at h
    replace h : RelayRun i ((call (.enqueue (enqueueCall taskCreatedJob message))).bind fun _ =>
      .ret ()) w events a w' := h
    obtain ⟨b, e₁, e₂, w₁, rfl, hrun, hret⟩ | ⟨e, rfl, hrun⟩ := h.bind_cases
    · obtain ⟨rfl, rfl, rfl⟩ := hret.ret_cases
      rw [List.append_nil]
      exact hcall hrun
    · exact hcall hrun
  · have hjob : ∃ e, jobName message.topic = .error e := ⟨_, if_neg htopic⟩
    obtain ⟨e, hjob⟩ := hjob
    rw [publishMessage, hjob] at h
    replace h : RelayRun i (.raise e : Tx Unit) w events a w' := h
    obtain ⟨rfl, -, rfl⟩ := h.raise_cases
    rw [if_neg htopic]
    exact ⟨hw, .nil, rfl, rfl⟩

/-- **One message is handled**, unless the pass is cancelled or the failure cannot be
recorded. -/
theorem relayMessage_cases {n : ℕ} {a : Except Exn ℕ}
    (h : RelayRun i (relayMessage owner n message) w events a w') (hw : w.FreeOf i) :
    w'.FreeOf i ∧ ((∃ b : Bool, a = .ok (n + b.toNat) ∧ Handled i owner message events b) ∨
      ∃ e, a = .error e ∧ (e = .cancelledError ∨ Unrecorded i owner e events)) := by
  have hruns := h
  obtain ⟨v, rfl, hok⟩ | ⟨e, e₁, e₂, w₁, rfl, hraised, hhandled⟩ := h.handle_cases
  -- published, and the acknowledgement is not raised from
  · obtain ⟨u, e₁, e₂, w₁, rfl, hpublish, hrest⟩ | ⟨e, he, -⟩ := hok.bind_cases
    · obtain ⟨hfree, hquiet, hacks, hcalls⟩ := publishMessage_cases hpublish hw
      obtain ⟨b, e₃, e₄, w₂, rfl, htransaction, hret⟩ | ⟨e, he, -⟩ := hrest.bind_cases
      · obtain ⟨rfl, hv, rfl⟩ := hret.ret_cases
        cases hv
        rw [List.append_nil] at hruns ⊢
        obtain ⟨hfree', hcalls', hacks', -, hcase⟩ :=
          marks_acknowledgeMessage.transaction hfree htransaction
        refine ⟨hfree', .inl ⟨b, rfl, ⟨n, w, w', hruns⟩, ?_, ?_, ?_⟩⟩
        · rw [enqueues_append, hcalls', List.append_nil, hcalls]
        · rw [counted_append, hacks, hacks' b rfl]
          cases b <;> rfl
        · obtain ⟨hquiet', -, ⟨e, he⟩ | ⟨hb, event, hmem, htaken⟩⟩ |
            ⟨row, row', howned, ⟨t, rfl⟩, -, hwrites, -, -⟩ := hcase
          · cases he
          · cases hb
            exact .untouched (hquiet.append hquiet') ⟨event, List.mem_append_right _ hmem, htaken⟩
          · exact .published howned (hwrites.quiet_append hquiet)
      · cases he
    · cases he
  -- until the exception no row has changed, or the acknowledgement has been committed
  · have hfirst : w₁.FreeOf i ∧ counted e₁ = [] ∧
        (enqueues e₁ = if message.topic = taskCreatedTopic then
          [enqueueCall taskCreatedJob message] else []) ∧
        (Quiet e₁ ∨ ∃ row t, OutboxRepository.ownedUnpublished owner row = true ∧
          Writes (.message message.id) row (row.acknowledged t) e₁ ∧ Published message.id w₁) := by
      obtain ⟨u, e₃, e₄, w₂, rfl, hpublish, hrest⟩ | ⟨e', -, hpublish⟩ := hraised.bind_cases
      · obtain ⟨hfree, hquiet, hacks, hcalls⟩ := publishMessage_cases hpublish hw
        obtain ⟨b, e₅, e₆, w₃, -, -, hret⟩ | ⟨e', -, htransaction⟩ := hrest.bind_cases
        · obtain ⟨-, hv, -⟩ := hret.ret_cases
          cases hv
        obtain ⟨hfree', hcalls', -, hacks', hcase⟩ :=
          marks_acknowledgeMessage.transaction hfree htransaction
        refine ⟨hfree', ?_, ?_, ?_⟩
        · rw [counted_append, hacks, hacks' ⟨e', rfl⟩, List.append_nil]
        · rw [enqueues_append, hcalls', List.append_nil, hcalls]
        · obtain ⟨hquiet', -⟩ | ⟨row, row', howned, ⟨t, rfl⟩, -, hwrites, hpublished, -⟩ := hcase
          · exact .inl (hquiet.append hquiet')
          · exact .inr ⟨row, t, howned, hwrites.quiet_append hquiet, hpublished nofun⟩
      · obtain ⟨hfree, hquiet, hacks, hcalls⟩ := publishMessage_cases hpublish hw
        exact ⟨hfree, hacks, hcalls, .inl hquiet⟩
    obtain ⟨hfree, hacks, hcalls, hrows⟩ := hfirst
    -- `except Exception` does not catch a cancellation
    by_cases hcancelled : e = .cancelledError
    · subst hcancelled
      obtain ⟨rfl, rfl, rfl⟩ := hhandled.raise_cases
      exact ⟨hfree, .inr ⟨_, rfl, .inl rfl⟩⟩
    replace hhandled : RelayRun i ((transactionRunner (.failed message.id owner)
        (failMessage message.id owner e.describe)).bind fun _ => .ret n) w₁ e₂ a w' := by
      cases e
      case cancelledError => exact absurd rfl hcancelled
      all_goals exact hhandled
    obtain ⟨b, e₃, e₄, w₂, rfl, htransaction, hret⟩ | ⟨e', rfl, htransaction⟩ :=
      hhandled.bind_cases
    · obtain ⟨rfl, rfl, rfl⟩ := hret.ret_cases
      rw [List.append_nil] at hruns ⊢
      obtain ⟨hfree', hcalls', hacks', -, hcase⟩ := marks_failMessage.transaction hfree htransaction
      refine ⟨hfree', .inl ⟨false, rfl, ⟨n, w, w', hruns⟩, ?_, ?_, ?_⟩⟩
      · rw [enqueues_append, hcalls', List.append_nil, hcalls]
      · rw [counted_append, hacks, hacks' b rfl]
        rfl
      · obtain hquiet | ⟨row, t, howned, hwrites, hpublished⟩ := hrows
        · obtain ⟨hquiet', -, ⟨e', he⟩ | ⟨-, event, hmem, htaken⟩⟩ |
            ⟨row, row', howned, rfl, -, hwrites, -, -⟩ := hcase
          · cases he
          · exact .untouched (hquiet.append hquiet') ⟨event, List.mem_append_right _ hmem, htaken⟩
          · obtain ⟨hnonempty, hshort⟩ := safeError_text e.describe
            exact .failed howned hnonempty hshort (hwrites.quiet_append hquiet)
        -- the acknowledgement is committed, so the failure finds no unpublished row to mark
        · obtain ⟨hquiet', -⟩ | ⟨row, row', -, -, hnot, -⟩ := hcase
          · exact .published howned (hwrites.append_quiet hquiet')
          · exact absurd hpublished hnot
    · obtain ⟨hfree', -⟩ := marks_failMessage.transaction hfree htransaction
      exact ⟨hfree', .inr ⟨e', rfl, .inr ⟨_, _, e₁, e₂, w₁, w', rfl, htransaction⟩⟩⟩

/-- **The batch is handled message by message, in order**, each in a stretch of its own. -/
theorem relayMessages_cases {messages : List ClaimedMessage} {n : ℕ} {a : Except Exn ℕ}
    (h : RelayRun i (relayMessages owner n messages) w events a w') (hw : w.FreeOf i) :
    (∃ handled : List (ClaimedMessage × List RelayEvent × Bool),
      messages = handled.map (·.1) ∧ events = handled.flatMap (·.2.1) ∧
      (∀ x ∈ handled, Handled i owner x.1 x.2.1 x.2.2) ∧
      a = .ok (n + handled.countP (·.2.2))) ∨
    ∃ e, a = .error e ∧ (e = .cancelledError ∨ Unrecorded i owner e events) := by
  induction messages generalizing n w events with
  | nil =>
    obtain ⟨rfl, rfl, rfl⟩ := h.ret_cases
    exact .inl ⟨[], rfl, rfl, nofun, rfl⟩
  | cons message rest ih =>
    obtain ⟨n', e₁, e₂, w₁, rfl, hone, hrest⟩ | ⟨e, rfl, hone⟩ := h.bind_cases
    -- the first message is handled and counted, and the rest as if it were not there
    · obtain ⟨hfree, ⟨b, hb, hhandled⟩ | ⟨e, he, -⟩⟩ := relayMessage_cases hone hw
      · cases hb
        obtain ⟨handled, rfl, rfl, hall, rfl⟩ | ⟨e, rfl, he⟩ := ih hrest hfree
        · refine .inl ⟨(message, e₁, b) :: handled, rfl, rfl,
            List.forall_mem_cons.mpr ⟨hhandled, hall⟩, ?_⟩
          rw [List.countP_cons]
          cases b
          · simp
          · simp only [Bool.toNat_true, if_true]
            congr 1
            omega
        · refine .inr ⟨e, rfl, he.imp_right ?_⟩
          rintro ⟨id, error, pre, post, w₂, w₃, rfl, hrun⟩
          exact ⟨id, error, e₁ ++ pre, post, w₂, w₃, by simp, hrun⟩
      · cases he
    · obtain ⟨-, ⟨b, hb, -⟩ | ⟨e', he', hcase⟩⟩ := relayMessage_cases hone hw
      · cases hb
      · cases he'
        exact .inr ⟨e, rfl, hcase⟩

/-- The queue is asked once for each message with a known topic, in the order of the claim. -/
theorem enqueues_handled {handled : List (ClaimedMessage × List RelayEvent × Bool)}
    (h : ∀ x ∈ handled, Handled i owner x.1 x.2.1 x.2.2) :
    enqueues (handled.flatMap (·.2.1)) =
      ((handled.map (·.1)).filter fun message => message.topic = taskCreatedTopic).map
        (enqueueCall taskCreatedJob) := by
  induction handled with
  | nil => rfl
  | cons x rest ih =>
    obtain ⟨hx, hrest⟩ := List.forall_mem_cons.mp h
    rw [List.flatMap_cons, enqueues_append, hx.enqueues, ih hrest, List.map_cons, List.filter_cons]
    by_cases htopic : x.1.topic = taskCreatedTopic
    · simp [htopic]
    · simp [htopic]

/-- As many are counted as messages have returned `True`. -/
theorem length_counted {handled : List (ClaimedMessage × List RelayEvent × Bool)}
    (h : ∀ x ∈ handled, Handled i owner x.1 x.2.1 x.2.2) :
    (counted (handled.flatMap (·.2.1))).length = handled.countP (·.2.2) := by
  induction handled with
  | nil => rfl
  | cons x rest ih =>
    obtain ⟨hx, hrest⟩ := List.forall_mem_cons.mp h
    rw [List.flatMap_cons, counted_append, List.length_append, hx.counted,
      ih hrest, List.countP_cons]
    rcases x.2.2 with _ | _
    · simp
    · simp [Nat.add_comm]

end Messages

/-! ### The claim -/

/-- The database as a session finds it that has no lock yet. -/
def found (w : Db) : DbSession := ⟨w.row, w.row, w.seq, fun k => (w.cell k).hold.owner ≠ none⟩

/-- The first transaction of a pass. -/
def claimTransaction (owner : String) (leaseDuration : Duration) (batchSize : ℕ) :
    Tx (List ClaimedMessage) :=
  transactionRunner (.claimed owner) (claimMessages owner leaseDuration batchSize)

/-- The messages that are eligible by the time `now`, oldest first. -/
structure Candidates (now : Instant) (w : Db) (ids : List Uuid) : Prop where
  mem : ∀ id, id ∈ ids ↔
    ∃ row, w.row (.message id) = some row ∧ OutboxRepository.eligible now row = true
  sorted : ids.Pairwise fun a b => ∀ rowA rowB, w.row (.message a) = some rowA →
    w.row (.message b) = some rowB → rowA.age a < rowB.age b

/-- A candidate with the database as it is when its lock is tried. -/
abbrev Attempt := Uuid × Db

/-- The attempt finds the message still eligible, and locked by nobody. -/
def Attempt.succeeds (now : Instant) (x : Attempt) : Bool :=
  x.2.lockable (.message x.1) (OutboxRepository.eligible now)

/-- Candidates are tried in their order until as many are locked as the limit says; `models` are
the locked ones, as they are then. -/
structure TriesInOrder (now : Instant) (limit : ℕ) (ids : List Uuid) (tried : List Attempt)
    (events : List RelayEvent) (models : List (Uuid × OutboxMessageModel)) : Prop where
  attempts : ∀ x ∈ tried, ∃ r w₁, (⟨x.2, .tryLock (.message x.1) (OutboxRepository.eligible now),
    r, w₁⟩ : RelayEvent) ∈ events
  order : tried.map (·.1) <+: ids
  all : models.length < limit → tried.map (·.1) = ids
  limit : models.length ≤ limit
  locked : models.map (·.1) = (tried.filter (Attempt.succeeds now)).map (·.1)
  rows : ∀ x ∈ models, ∃ y ∈ tried, y.1 = x.1 ∧ y.2.row (.message x.1) = some x.2

/-- **What a claim does** that reads the time `now` and whose SELECT finds the database `w`. -/
structure ClaimsAt (owner : String) (leaseDuration : Duration) (batchSize : ℕ) (now : Instant)
    (w : Db) (tried : List Attempt) (models : List (Uuid × OutboxMessageModel))
    (events : List RelayEvent) (claimed : List ClaimedMessage) (w' : Db) : Prop where
  clock : ∃ w₀ w₁ rows rest, events = ⟨w₀, .ext .now, .ok now, w₁⟩ ::
    ⟨w, .scan (OutboxRepository.candidate now) OutboxRepository.oldestFirst, .ok rows, w⟩ :: rest
  tries : ∃ ids, Candidates now w ids ∧ TriesInOrder now batchSize ids tried events models
  messages : claimed = models.map fun x => x.2.claimedMessage x.1
  leased : ∀ x ∈ models,
    w'.row (.message x.1) = some (x.2.leased owner (now + leaseDuration))
  others : ∃ pre w₂, events = pre ++ [⟨w₂, .commit (.claimed owner claimed), .ok (), w'⟩] ∧
    Quiet pre ∧ ∀ k, (∀ x ∈ models, k ≠ .message x.1) → w'.row k = w₂.row k

/-- **The first candidates are claimed**, up to the limit, where each of them is still as the SELECT
has found it when its lock is tried; those that are locked then are left out. -/
theorem ClaimsAt.first {owner : String} {leaseDuration : Duration} {batchSize : ℕ} {now : Instant}
    {w w' : Db} {tried : List Attempt} {models : List (Uuid × OutboxMessageModel)}
    {events : List RelayEvent} {claimed : List ClaimedMessage}
    (h : ClaimsAt owner leaseDuration batchSize now w tried models events claimed w')
    (hsame : ∀ x ∈ tried, x.2.cell (.message x.1) = w.cell (.message x.1)) :
    ∃ ids, Lists now (found w) ids ∧ claimed.map (·.id) = ids.take batchSize := by
  obtain ⟨ids, hcandidates, htries⟩ := h.tries
  let free : Uuid → Bool := fun id => w.lockable (.message id) (OutboxRepository.eligible now)
  have hmodels : claimed.map (·.id) = models.map (·.1) := by
    rw [h.messages, List.map_map]
    rfl
  have hlocked : models.map (·.1) = (tried.map (·.1)).filter free := by
    rw [htries.locked, List.filter_map]
    refine congrArg _ (List.filter_congr fun x hx => ?_)
    rw [Function.comp_apply, Attempt.succeeds, World.lockable, World.row, hsame x hx]
    rfl
  refine ⟨ids.filter free, ⟨fun id => ?_, hcandidates.sorted.filter _⟩, ?_⟩
  · have hfree : free id = true ↔
        (∃ row, w.row (.message id) = some row ∧ OutboxRepository.eligible now row = true) ∧
          (w.cell (.message id)).hold.owner = none := by
      simp only [free, World.lockable, Bool.and_eq_true, Option.isSome_iff_exists,
        Option.filter_eq_some_iff, Option.isNone_iff_eq_none]
    rw [List.mem_filter, hcandidates.mem, hfree, Claimable, found]
    exact ⟨fun h => ⟨h.1, not_not.mpr h.2.2⟩, fun h => ⟨h.1, h.1, not_not.mp h.2⟩⟩
  · rw [hmodels]
    have hlength : models.length = (models.map (·.1)).length := (List.length_map _).symm
    -- the claim ends with the candidates, or with the limit
    by_cases hfull : models.length < batchSize
    · rw [htries.all hfull] at hlocked
      rw [hlocked] at hlength
      rw [hlocked, List.take_of_length_le (by omega)]
    · have hpre : models.map (·.1) <+: ids.filter free := by
        rw [hlocked]
        exact htries.order.filter free
      have hlimit := htries.limit
      rw [List.prefix_iff_eq_take.mp hpre, ← hlength]
      congr 1
      omega

/-- What a claim that returns has done. -/
structure HasClaimed (owner : String) (leaseDuration : Duration) (batchSize : ℕ)
    (events : List RelayEvent) (claimed : List ClaimedMessage) (w' : Db) : Prop where
  enqueues : enqueues events = []
  counted : counted events = []
  claims : ∃ now w tried models,
    ClaimsAt owner leaseDuration batchSize now w tried models events claimed w' ∧
    ((∀ x ∈ tried, x.2.cell (.message x.1) = w.cell (.message x.1)) →
      ∃ ids, Lists now (found w) ids ∧ claimed.map (·.id) = ids.take batchSize)

section Claim

variable {i : ℕ} {w w' : Db} {events : List RelayEvent} {owner : String}
  {leaseDuration : Duration} {batchSize : ℕ}

theorem silent_of_inClaim (h : ∀ event ∈ events, InClaim event.command) :
    enqueues events = [] ∧ counted events = [] := by
  constructor
  · refine List.filterMap_eq_nil_iff.mpr fun event hmem => ?_
    have hin := h event hmem
    split
    · rename_i call hcommand
      rw [hcommand] at hin
      cases hin
    · rfl
  · refine List.filterMap_eq_nil_iff.mpr fun event hmem => ?_
    have hin := h event hmem
    split
    · cases hin
    · rfl

/-- A claim with refused arguments raises, having looked at nothing. -/
theorem claim_refused {a : Except Exn (List ClaimedMessage)}
    (h : RelayRun i (claimTransaction owner leaseDuration batchSize) w events a w')
    (hrefused : Refused owner leaseDuration batchSize) :
    (∃ message, a = .error (.valueError message)) ∧ Quiet events ∧ enqueues events = [] := by
  obtain ⟨message, hraise⟩ := claimMessages_refused hrefused
  rw [claimTransaction, hraise] at h
  obtain ⟨v, e₁, w₁, w₂, -, -, hrun, -⟩ | ⟨v, e, e₁, w₁, w₂, w₃, w₄, -, -, hrun, -⟩ |
    ⟨e, e₁, w₁, w₂, rfl, rfl, hrun, -, hrollback⟩ := transactionRunner_cases h
  · obtain ⟨-, hv, -⟩ := hrun.raise_cases
    cases hv
  · obtain ⟨-, hv, -⟩ := hrun.raise_cases
    cases hv
  · obtain ⟨rfl, he, -⟩ := hrun.raise_cases
    cases he
    obtain ⟨-, -, hrows⟩ := hrollback.rollback_cases
    exact ⟨⟨message, rfl⟩, .single hrows, rfl⟩

/-! The statements of a claim, one after another. -/

/-- One statement. -/
theorem performed {c : Command} {r : Except Exn c.Reply}
    (h : RelayRun i (perform c) w events r w') :
    ∃ w₁, events = [⟨w₁, c, r, w'⟩] ∧ Others i w w₁ ∧
      Acts Fault.exn (outside fun _ _ => false) i w₁ c r w' :=
  h.perform_cases

/-- A row that the claim has locked. -/
def lockedCell (i : ℕ) (x : Uuid × OutboxMessageModel) : (k : Key) × Cell (Row k) :=
  ⟨.message x.1, ⟨some x.2, .locked i⟩⟩

/-- And leased. -/
def leasedCell (i : ℕ) (owner : String) (expiresAt : Instant) (x : Uuid × OutboxMessageModel) :
    (k : Key) × Cell (Row k) :=
  ⟨.message x.1, ⟨some x.2, .written i (some (x.2.leased owner expiresAt))⟩⟩

variable {now expiresAt : Instant} {cells : List ((k : Key) × Cell (Row k))}

theorem Candidates.nodup {ids : List Uuid} (h : Candidates now w ids) : ids.Nodup := by
  refine h.sorted.imp_of_mem fun {a b} ha _ hab heq => ?_
  subst heq
  obtain ⟨row, hrow, -⟩ := (h.mem a).mp ha
  exact lt_irrefl _ (hab row row hrow hrow)

/-- The SELECT finds the candidates. -/
theorem candidates_scan (hw : w.FreeOf i) : Candidates now w (OutboxRepository.ids
    (w.scan i (OutboxRepository.candidate now) OutboxRepository.oldestFirst)) := by
  obtain ⟨l, hl, hscan⟩ := (Alone.of_free hw).scan (OutboxRepository.candidate now)
    OutboxRepository.oldestFirst
  rw [hscan]
  exact ⟨mem_ids hl, pairwise_ids hl⟩

section Attempts

variable {limit : ℕ} {id : Uuid} {ids : List Uuid} {tried : List Attempt}
  {models : List (Uuid × OutboxMessageModel)} {w₁ : Db} {r : Except Exn (Option OutboxMessageModel)}

/-- A candidate is passed over. -/
theorem TriesInOrder.pass (h : TriesInOrder now limit ids tried events models)
    (hfails : w.lockable (.message id) (OutboxRepository.eligible now) = false) :
    TriesInOrder now limit (id :: ids) ((id, w) :: tried)
      (⟨w, .tryLock (.message id) (OutboxRepository.eligible now), r, w₁⟩ :: events) models where
  attempts := by
    refine List.forall_mem_cons.mpr ⟨⟨_, _, List.mem_cons_self⟩, fun x hx => ?_⟩
    obtain ⟨r, w₂, hmem⟩ := h.attempts x hx
    exact ⟨r, w₂, List.mem_cons_of_mem _ hmem⟩
  order := List.cons_prefix_cons.mpr ⟨rfl, h.order⟩
  all := fun hlimit => congrArg _ (h.all hlimit)
  limit := h.limit
  locked := by
    have hnot : ¬ Attempt.succeeds now (id, w) = true := by
      rw [Attempt.succeeds, hfails]
      exact Bool.false_ne_true
    rw [List.filter_cons_of_neg hnot, h.locked]
  rows := by
    intro x hx
    obtain ⟨y, hy, hyx⟩ := h.rows x hx
    exact ⟨y, List.mem_cons_of_mem _ hy, hyx⟩

/-- A candidate is locked. -/
theorem TriesInOrder.lock {row : OutboxMessageModel}
    (h : TriesInOrder now limit ids tried events models)
    (hfound : w.row (.message id) = some row)
    (hsucceeds : w.lockable (.message id) (OutboxRepository.eligible now) = true) :
    TriesInOrder now (limit + 1) (id :: ids) ((id, w) :: tried)
      (⟨w, .tryLock (.message id) (OutboxRepository.eligible now), r, w₁⟩ :: events)
      ((id, row) :: models) where
  attempts := by
    refine List.forall_mem_cons.mpr ⟨⟨_, _, List.mem_cons_self⟩, fun x hx => ?_⟩
    obtain ⟨r, w₂, hmem⟩ := h.attempts x hx
    exact ⟨r, w₂, List.mem_cons_of_mem _ hmem⟩
  order := List.cons_prefix_cons.mpr ⟨rfl, h.order⟩
  all := fun hlimit => congrArg _ (h.all (Nat.lt_of_succ_lt_succ hlimit))
  limit := Nat.succ_le_succ h.limit
  locked := by
    have hpass : Attempt.succeeds now (id, w) = true := hsucceeds
    rw [List.filter_cons_of_pos hpass, List.map_cons, List.map_cons, h.locked]
  rows := by
    refine List.forall_mem_cons.mpr ⟨⟨_, List.mem_cons_self, rfl, hfound⟩, fun x hx => ?_⟩
    obtain ⟨y, hy, hyx⟩ := h.rows x hx
    exact ⟨y, List.mem_cons_of_mem _ hy, hyx⟩

/-- What has happened before and after does not matter. -/
theorem TriesInOrder.amid (h : TriesInOrder now limit ids tried events models)
    (pre post : List RelayEvent) :
    TriesInOrder now limit ids tried (pre ++ (events ++ post)) models :=
  { h with
    attempts := fun x hx => by
      obtain ⟨r, w₂, hmem⟩ := h.attempts x hx
      exact ⟨r, w₂, List.mem_append_right _ (List.mem_append_left _ hmem)⟩ }

end Attempts

/-- The candidates are tried one after another, until as many are locked as the limit says. -/
theorem lockRows_cases {ids : List Uuid} {limit : ℕ} {models : List (Uuid × OutboxMessageModel)}
    (h : RelayRun i (OutboxRepository.lockRows now limit ids) w events (.ok models) w')
    (hw : w.Owns i cells) (hids : ids.Nodup)
    (hcells : ∀ id ∈ ids, ∀ x ∈ cells, Key.message id ≠ x.1) :
    Quiet events ∧ w'.Owns i (models.map (lockedCell i) ++ cells) ∧
      ∃ tried, TriesInOrder now limit ids tried events models := by
  induction ids generalizing limit w events models cells with
  | nil =>
    have hrun : RelayRun i (.ret [] : Tx (List (Uuid × OutboxMessageModel))) w events (.ok models)
        w' := by
      cases limit <;> exact h
    obtain ⟨rfl, hv, rfl⟩ := hrun.ret_cases
    cases hv
    exact ⟨.nil, hw, [], nofun, List.nil_prefix, fun _ => rfl, limit.zero_le, rfl, nofun⟩
  | cons id ids ih =>
    obtain ⟨hfresh, hids⟩ := List.nodup_cons.mp hids
    obtain ⟨hid, hrest⟩ := List.forall_mem_cons.mp hcells
    cases limit with
    | zero =>
      obtain ⟨rfl, hv, rfl⟩ := h.ret_cases
      cases hv
      exact ⟨.nil, hw, [], nofun, List.nil_prefix, fun h => absurd h (lt_irrefl 0), le_rfl, rfl,
        nofun⟩
    | succ limit =>
      obtain ⟨model, e₁, e₂, w₁, rfl, htry, hrun⟩ := h.bind_ok
      obtain ⟨w₀, rfl, hothers, hacts⟩ := performed htry
      obtain ⟨hquiet, ⟨e, he⟩ | ⟨hnone, rfl, hfails⟩ | ⟨row, hrow, hfound, hsucceeds, howns⟩⟩ :=
        hacts.tryLock_cases (hothers.locks.owns hw) hid
      · cases he
      · -- the candidate is passed over
        cases hnone
        obtain ⟨hquiet', howns, tried, htries⟩ := ih hrun (hothers.locks.owns hw) hids hrest
        exact ⟨.append (.single hquiet) hquiet', howns, _, htries.pass hfails⟩
      · -- it is locked, and one place less is left
        cases hrow
        obtain ⟨rest, e₃, e₄, w₂, rfl, hlocks, hret⟩ := Program.Runs.bind_ok hrun
        obtain ⟨rfl, hv, rfl⟩ := hret.ret_cases
        cases hv
        rw [List.append_nil]
        have hfree : ∀ id' ∈ ids, ∀ x ∈ (lockedCell i (id, row)) :: cells,
            Key.message id' ≠ x.1 := by
          intro id' hid'
          refine List.forall_mem_cons.mpr ⟨?_, hrest id' hid'⟩
          rintro heq
          obtain rfl : id' = id := Key.message.inj heq
          exact hfresh hid'
        obtain ⟨hquiet', howns, tried, htries⟩ := ih hlocks howns hids hfree
        exact ⟨.append (.single hquiet) hquiet', howns.perm List.perm_middle, _,
          htries.lock hfound hsucceeds⟩

/-- Each locked row is leased. -/
theorem flushLeases_cases {models : List (Uuid × OutboxMessageModel)}
    {messages : List OutboxMessage}
    (h : RelayRun i (OutboxRepository.flushLeases owner expiresAt models) w events (.ok messages)
      w')
    (hw : w.Owns i (models.map (lockedCell i) ++ cells)) (hmodels : (models.map (·.1)).Nodup)
    (hcells : ∀ x ∈ models, ∀ y ∈ cells, Key.message x.1 ≠ y.1) :
    Quiet events ∧ w'.Owns i (models.map (leasedCell i owner expiresAt) ++ cells) ∧
      messages = models.map fun x => (x.2.leased owner expiresAt).detach x.1 := by
  induction models generalizing w events messages cells with
  | nil =>
    obtain ⟨rfl, hv, rfl⟩ := h.ret_cases
    cases hv
    exact ⟨.nil, hw, rfl⟩
  | cons x models ih =>
    obtain ⟨id, row⟩ := x
    obtain ⟨hfresh, hmodels⟩ := List.nodup_cons.mp hmodels
    obtain ⟨hid, hrest⟩ := List.forall_mem_cons.mp hcells
    obtain ⟨updated, e₁, e₂, w₁, rfl, hupdate, hrun⟩ := h.bind_ok
    obtain ⟨w₀, rfl, hothers, hacts⟩ := performed hupdate
    -- the row leased now is none of those held so far
    have hne : ∀ x ∈ models.map (lockedCell i) ++ cells, Key.message id ≠ x.1 := by
      intro x hx
      rcases List.mem_append.mp hx with hx | hx
      · obtain ⟨y, hy, rfl⟩ := List.mem_map.mp hx
        intro heq
        obtain rfl : id = y.1 := Key.message.inj heq
        exact hfresh (List.mem_map.mpr ⟨y, hy, rfl⟩)
      · exact hid x hx
    obtain ⟨rfl, hquiet, howns⟩ := hacts.update_owned (hothers.locks.owns hw) hne
    obtain ⟨messages, e₃, e₄, w₂, rfl, hflush, hret⟩ := Program.Runs.bind_ok hrun
    obtain ⟨rfl, hv, rfl⟩ := hret.ret_cases
    cases hv
    have hfree : ∀ x ∈ models, ∀ y ∈ leasedCell i owner expiresAt (id, row) :: cells,
        Key.message x.1 ≠ y.1 := by
      intro x hx
      refine List.forall_mem_cons.mpr ⟨fun heq => ?_, hrest x hx⟩
      obtain rfl : x.1 = id := Key.message.inj heq
      exact hfresh (List.mem_map.mpr ⟨x, hx, rfl⟩)
    obtain ⟨hquiet', howns', rfl⟩ := ih hflush (howns.perm List.perm_middle.symm) hmodels hfree
    exact ⟨.append (.single hquiet) (.append hquiet' .nil), howns'.perm List.perm_middle, rfl⟩

/-- The batch: one SELECT, and the leases of what it has locked. -/
theorem claimBatch_cases {limit : ℕ} {messages : List OutboxMessage}
    (h : RelayRun i (OutboxRepository.claimBatch owner now expiresAt limit) w events (.ok messages)
      w') (hw : w.FreeOf i) :
    Quiet events ∧ ∃ w₁ rows rest ids tried models,
      events = ⟨w₁, .scan (OutboxRepository.candidate now) OutboxRepository.oldestFirst, .ok rows,
        w₁⟩ :: rest ∧
      Candidates now w₁ ids ∧ TriesInOrder now limit ids tried events models ∧
      w'.Owns i (models.map (leasedCell i owner expiresAt)) ∧
      messages = models.map fun x => (x.2.leased owner expiresAt).detach x.1 := by
  obtain ⟨rows, e₁, e₂, w₁, rfl, hscan, hrest⟩ := h.bind_ok
  obtain ⟨w₂, rfl, hothers, x, he⟩ := performed hscan
  obtain ⟨rfl, ⟨e, hr⟩ | hr⟩ := exec_scan he
  · cases hr
  have hfree := hothers.locks.freeOf hw
  have hcandidates : Candidates now w₁ (OutboxRepository.ids rows) := by
    rw [Except.ok.inj hr]
    exact candidates_scan hfree
  clear hscan he hr
  -- the candidates are locked one by one, and what is locked is leased
  obtain ⟨models, e₃, e₄, w₃, rfl, hlocks, hflush⟩ := Program.Runs.bind_ok hrest
  obtain ⟨hquiet, howns, tried, htries⟩ :=
    lockRows_cases hlocks hfree.owns hcandidates.nodup
      fun _ _ _ hx => absurd hx List.not_mem_nil
  have hmodels : (models.map (·.1)).Nodup := by
    rw [htries.locked]
    refine List.Nodup.sublist (List.Sublist.map _ List.filter_sublist) ?_
    exact hcandidates.nodup.sublist htries.order.sublist
  obtain ⟨hquiet', howns', rfl⟩ := flushLeases_cases hflush howns hmodels
    fun _ _ _ hx => absurd hx List.not_mem_nil
  rw [List.append_nil] at howns'
  exact ⟨.append (.single fun _ => rfl) (hquiet.append hquiet'), w₁, _, _, _, tried, models, rfl,
    hcandidates, htries.amid [_] _, howns', rfl⟩

/-- **A claim that returns.** -/
theorem claim_cases {claimed : List ClaimedMessage}
    (h : RelayRun i (claimTransaction owner leaseDuration batchSize) w events (.ok claimed) w')
    (hw : w.FreeOf i) (haccepted : ¬ Refused owner leaseDuration batchSize) :
    w'.FreeOf i ∧ HasClaimed owner leaseDuration batchSize events claimed w' := by
  obtain ⟨v, e₁, w₁, w₂, hv, rfl, hrun, hothers, hcommit⟩ | ⟨v, e, e₁, w₁, w₂, w₃, w₄, ha, -⟩ |
    ⟨e, e₁, w₁, w₂, ha, -⟩ := transactionRunner_cases h
  · obtain rfl := Except.ok.inj hv
    obtain ⟨hcalls, hacks⟩ :=
      silent_of_inClaim (hrun.kinds (strict_claimMessages owner leaseDuration batchSize))
    have hsilent : enqueues (e₁ ++ [⟨w₂, .commit (.claimed owner claimed), .ok (), w'⟩]) = [] ∧
        counted (e₁ ++ [⟨w₂, .commit (.claimed owner claimed), .ok (), w'⟩]) = [] := by
      rw [enqueues_append, counted_append, hcalls, hacks]
      exact ⟨rfl, rfl⟩
    rw [claimMessages_accepted haccepted] at hrun
    -- the clock is read first, and its reply is the time of the claim
    obtain ⟨now, e₂, e₃, w₃, rfl, hclock, hclaim⟩ := hrun.bind_ok
    obtain ⟨w₀, rfl, hothers₀, hacts₀⟩ := performed hclock
    have hcells := hacts₀.ext_cases
    have hrows : ∀ k, w₃.row k = w₀.row k := fun k => congrArg Cell.committed (hcells k)
    have hfree : w₃.FreeOf i := by
      intro k
      rw [hcells k]
      exact hothers₀.locks.freeOf hw k
    obtain ⟨messages, e₄, e₅, w₄, rfl, hbatch, hret⟩ := hclaim.bind_ok
    obtain ⟨rfl, hclaimed, rfl⟩ := hret.ret_cases
    obtain ⟨hquiet, ws, rows, rest, ids, tried, models, rfl, hcandidates, htries, howns, rfl⟩ :=
      claimBatch_cases hbatch hfree
    have hmodels : claimed = models.map fun x => x.2.claimedMessage x.1 := by
      rw [Except.ok.inj hclaimed, List.map_map]
      rfl
    -- with the commit the leased rows become the committed ones
    obtain ⟨hfree', hpublished, hkept⟩ := hcommit.commit_owned (hothers.locks.owns howns)
    have hclaims : ClaimsAt owner leaseDuration batchSize now ws tried models
        ([⟨w₀, .ext .now, .ok now, w₃⟩] ++ (⟨ws, .scan (OutboxRepository.candidate now)
          OutboxRepository.oldestFirst, .ok rows, ws⟩ :: rest ++ []) ++
          [⟨w₂, .commit (.claimed owner claimed), .ok (), w'⟩]) claimed w' := by
      refine ⟨⟨w₀, w₃, rows, _, rfl⟩, ⟨ids, hcandidates, ?_⟩, hmodels, fun x hx => ?_,
        ⟨_, w₂, rfl, ?_, fun k hk => ?_⟩⟩
      · rw [List.append_nil, List.append_assoc]
        exact htries.amid [_] _
      · have hleased := hpublished _ (List.mem_map_of_mem (f := leasedCell i owner _) hx)
        exact hleased.trans (if_pos rfl)
      · exact .append (.single hrows) (.append hquiet .nil)
      · refine hkept k fun x hx => ?_
        obtain ⟨y, hy, rfl⟩ := List.mem_map.mp hx
        exact hk y hy
    exact ⟨hfree', hsilent.1, hsilent.2, now, ws, tried, models, hclaims, hclaims.first⟩
  · cases ha
  · cases ha

end Claim

/-! ### The pass -/

/-- **A relay pass, exactly.**  With refused arguments it raises and looks at nothing.
Otherwise the claim raises, or it takes the oldest messages that may be claimed, up to the
batch size; the messages are handled in that order, each by itself, and the result is the
number of acknowledgements that have returned `True`; the pass raises only when it is cancelled
or a failure cannot be recorded. -/
theorem relay_once_exact {i : ℕ} {w w' : Db} {events : List RelayEvent} {owner : String}
    {leaseDuration : Duration} {batchSize : ℕ} {a : Except Exn ℕ} (hw : w.FreeOf i)
    (h : RelayRun i (relayOnce owner leaseDuration batchSize) w events a w') :
    (Refused owner leaseDuration batchSize ∧ (∃ message, a = .error (.valueError message)) ∧
      Quiet events ∧ enqueues events = []) ∨
    ¬ Refused owner leaseDuration batchSize ∧
    ((∃ e, a = .error e ∧
        RelayRun i (claimTransaction owner leaseDuration batchSize) w events (.error e) w') ∨
      ∃ claimed claim rest w₁, events = claim ++ rest ∧
        RelayRun i (claimTransaction owner leaseDuration batchSize) w claim (.ok claimed) w₁ ∧
        HasClaimed owner leaseDuration batchSize claim claimed w₁ ∧
        ((∃ handled : List (ClaimedMessage × List RelayEvent × Bool),
            claimed = handled.map (·.1) ∧ rest = handled.flatMap (·.2.1) ∧
            (∀ x ∈ handled, Handled i owner x.1 x.2.1 x.2.2) ∧
            enqueues events = (claimed.filter fun message => message.topic = taskCreatedTopic).map
              (enqueueCall taskCreatedJob) ∧
            a = .ok (counted events).length) ∨
          ∃ e, a = .error e ∧ (e = .cancelledError ∨ Unrecorded i owner e rest))) := by
  replace h : RelayRun i ((claimTransaction owner leaseDuration batchSize).bind fun claimed =>
    relayMessages owner 0 claimed) w events a w' := h
  by_cases hrefused : Refused owner leaseDuration batchSize
  -- settings that are refused end the pass before the clock is read
  · refine .inl ⟨hrefused, ?_⟩
    obtain ⟨claimed, e₁, e₂, w₁, -, hclaim, -⟩ | ⟨e, rfl, hclaim⟩ := h.bind_cases
    · obtain ⟨⟨message, hv⟩, -⟩ := claim_refused hclaim hrefused
      cases hv
    · obtain ⟨⟨message, he⟩, hrest⟩ := claim_refused hclaim hrefused
      cases he
      exact ⟨⟨message, rfl⟩, hrest⟩
  refine .inr ⟨hrefused, ?_⟩
  obtain ⟨claimed, claim, rest, w₁, rfl, hclaim, hrest⟩ | ⟨e, rfl, hclaim⟩ := h.bind_cases
  · obtain ⟨hfree, hclaimed⟩ := claim_cases hclaim hw hrefused
    refine .inr ⟨claimed, claim, rest, w₁, rfl, hclaim, hclaimed, ?_⟩
    obtain ⟨handled, rfl, rfl, hall, rfl⟩ | hraised := relayMessages_cases hrest hfree
    · refine .inl ⟨handled, rfl, rfl, hall, ?_, ?_⟩
      · rw [enqueues_append, hclaimed.enqueues, List.nil_append]
        exact enqueues_handled hall
      · rw [counted_append, hclaimed.counted, List.nil_append,
          length_counted hall, Nat.zero_add]
    · exact .inr hraised
  · exact .inl ⟨e, rfl, hclaim⟩

/-! ### A pass over one message -/

/-- The database with one message, number 7, that may be claimed. -/
def oneMessage : Db := storedDb [⟨.message 7, freshMessage 1 0⟩] fun _ => 2

theorem oneMessage_free : oneMessage.FreeOf 0 := by
  intro k
  rw [oneMessage, storedDb_unlocked]
  nofun

/-- What the environment decides leads to a run with nobody else there. -/
theorem relayRun_of_replay {α : Type} {p : Tx α} {w : Db} {a : Except Exn α}
    (choices : List (Choice Fault Decision))
    (h : (Program.replay (fun w => exec Fault.exn (outside fun _ _ => false) w 0) choices p w).map
      (·.1) = some a) : ∃ events w', RelayRun 0 p w events a w' := by
  obtain ⟨⟨r, w'⟩, hreplay, rfl⟩ := Option.map_eq_some_iff.mp h
  have hperforms : Program.Performs (Acts Fault.exn (outside fun _ _ => false) 0) p w r w' :=
    Program.performs_of_replay (fun he => ⟨_, he⟩) hreplay
  have hothers : ∀ w, Others 0 w w := fun _ => ⟨fun _ _ => rfl, fun _ h => h⟩
  obtain ⟨events, hrun⟩ := hperforms.runs hothers
  exact ⟨events, w', hrun⟩

/-- The message is claimed, published and acknowledged. -/
theorem relay_once_one : ∃ events w', RelayRun 0 (relayOnce "relay" 60 25) oneMessage events
    (.ok 1) w' ∧ (counted events).length = 1 := by
  obtain ⟨events, w', hrun⟩ : ∃ events w', RelayRun 0 (relayOnce "relay" 60 25) oneMessage events
      (.ok 1) w' := relayRun_of_replay [.ext (.time 1), .ok, .ok, .ok, .ok, .ext .accepted,
    .ext (.time 2), .ok, .ok] rfl
  refine ⟨events, w', hrun, ?_⟩
  obtain ⟨-, ⟨message, ha⟩, -⟩ | ⟨-, ⟨e, ha, -⟩ | ⟨claimed, claim, rest, w₁, -, -, -,
    ⟨handled, -, -, -, -, ha⟩ | ⟨e, ha, -⟩⟩⟩ := relay_once_exact oneMessage_free hrun
  · cases ha
  · cases ha
  · exact (Except.ok.inj ha).symm
  · cases ha

/-- **A batch size above 1000 is refused**, so that nothing is claimed though no statement
fails. -/
theorem relay_once_violated :
    ¬ ∀ owner leaseDuration batchSize events a w',
      RelayRun 0 (relayOnce owner leaseDuration batchSize) oneMessage events a w' →
      (∀ event ∈ events, ∃ v, event.reply = .ok v) →
      ∃ claimed claim rest w₁, events = claim ++ rest ∧
        RelayRun 0 (claimTransaction owner leaseDuration batchSize) oneMessage claim
          (.ok claimed) w₁ ∧
        HasClaimed owner leaseDuration batchSize claim claimed w₁ := by
  intro h
  have hrefused : Refused "relay" 60 1001 := .inr (.inr (.inr (by decide)))
  have hrun : RelayRun 0 (relayOnce "relay" 60 1001) oneMessage
      [⟨oneMessage, .rollback, .ok (), oneMessage.release 0⟩]
      (.error (.valueError "Outbox claim limit must be between 1 and 1000."))
      (oneMessage.release 0) :=
    .call ⟨fun _ _ => rfl, fun _ h => h⟩ ⟨.ok, rfl⟩ (.raise _ _)
  obtain ⟨claimed, claim, rest, w₁, -, hclaim, -⟩ :=
    h _ _ _ _ _ _ hrun (List.forall_mem_singleton.mpr ⟨(), rfl⟩)
  obtain ⟨⟨message, ha⟩, -⟩ := claim_refused hclaim hrefused
  cases ha

end Lsstack
