/-
Rules for code that runs while the other sessions stand still.

Under `sequential` every statement has one rule; nothing fails.

* `alone_select`, `alone_update`, `alone_scan`, … — one statement each;
* `IfOk` — what holds of the result, if there is one.
-/
import Lsstack.Database
import Lsstack.Sequential

namespace Lsstack

open Concurrency

/-- The database as one session sees it. -/
abbrev DbSession := Session Key Row Sequence

section Rules

variable {answers : (x : Outside) → x.Reply → Prop} {s : DbSession}

theorem alone_select {k : Key} {p : Row k → Bool}
    {Q : Except Exn (Option (Row k)) → DbSession → Prop} :
    (select k p).Meets (sequential answers) s Q ↔ Q (.ok ((s.rows k).filter p)) s := by
  rw [select, perform, meets_perform_sequential]
  exact ⟨fun h => h _ rfl, fun h v hv => by rw [hv]; exact h⟩

theorem alone_selectForUpdate {k : Key} {p : Row k → Bool}
    {Q : Except Exn (Option (Row k)) → DbSession → Prop} (h : Q (.ok ((s.rows k).filter p)) s) :
    (selectForUpdate k p).Meets (sequential answers) s Q := by
  rw [selectForUpdate, perform, meets_perform_sequential]
  rintro _ ⟨rfl, -⟩
  exact h

/-- A row that is there and satisfies the condition is written. -/
theorem alone_update {k : Key} {p : Row k → Bool} {f : Row k → Row k} {row : Row k}
    (hrow : s.rows k = some row) (hp : p row = true)
    {Q : Except Exn (Option (Row k)) → DbSession → Prop}
    (h : Q (.ok (some (f row))) (s.put k (some (f row)))) :
    (update k p f).Meets (sequential answers) s Q := by
  have hfilter : (s.rows k).filter p = some row := by rw [hrow, Option.filter_some, if_pos hp]
  rw [update, perform, meets_perform_sequential]
  rintro _ ⟨rfl, -⟩
  rw [Session.next, hfilter]
  exact h

/-- A row is inserted where there is none. -/
theorem alone_insert {k : Key} {row : Row k} {Q : Except Exn Bool → DbSession → Prop}
    (hfree : s.rows k = none → Q (.ok true) (s.put k (some row)))
    (htaken : ∀ old, s.rows k = some old → Q (.ok false) s) :
    (insert k row).Meets (sequential answers) s Q := by
  rw [insert, perform, meets_perform_sequential]
  rintro _ ⟨rfl, -⟩
  rcases hrow : s.rows k with _ | old
  · rw [Session.next, hrow]
    exact hfree hrow
  · rw [Session.next, hrow]
    exact htaken old hrow

/-- A scan lists the rows that satisfy the condition, each once. -/
theorem alone_scan {p : (k : Key) × Row k → Bool}
    {le : (k : Key) × Row k → (k : Key) × Row k → Bool}
    {Q : Except Exn (List ((k : Key) × Row k)) → DbSession → Prop}
    (h : ∀ l, s.Enumerates p l → Q (.ok (l.insertionSort fun a b => le a b = true)) s) :
    (scan p le).Meets (sequential answers) s Q := by
  rw [scan, perform, meets_perform_sequential]
  rintro _ ⟨l, hl, rfl⟩
  exact h l hl

theorem alone_nextval {q : Sequence} {Q : Except Exn ℕ → DbSession → Prop} :
    (nextval q).Meets (sequential answers) s Q ↔
      Q (.ok (s.seq q)) { s with seq := Function.update s.seq q (s.seq q + 1) } := by
  rw [nextval, perform, meets_perform_sequential]
  exact ⟨fun h => h _ rfl, fun h v hv => by rw [hv]; exact h⟩

theorem alone_call {x : Outside} {Q : Except Exn x.Reply → DbSession → Prop} :
    (call x).Meets (sequential answers) s Q ↔ ∀ v, answers x v → Q (.ok v) s := by
  rw [call, perform, meets_perform_sequential]
  rfl

end Rules

/-- Inside a transaction the committed rows stay as they are. -/
theorem next_committed (s : DbSession) (c : Command) (hc : c.frees = false) :
    (s.next c).committed = s.committed := by
  cases c with
  | commit out => cases hc
  | rollback => cases hc
  | update key p f =>
    rw [Session.next]
    split <;> rfl
  | delete key p =>
    rw [Session.next]
    split <;> rfl
  | insert key v =>
    rw [Session.next]
    split <;> rfl
  | _ => rfl

/-- What holds of the result, if there is one. -/
def IfOk {α : Type} (K : α → DbSession → Prop) : Except Exn α → DbSession → Prop
  | .ok a, s => K a s
  | .error _, _ => True

end Lsstack
