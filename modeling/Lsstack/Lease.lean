/-
A unit of work that is leased until it is done.

It starts fresh; an owner takes it under a lease that ends at some time, and it
may be taken again, by anyone, under a lease that ends later; its current owner
may finish it, once, or touch it.  Nothing here fixes who may take it when.

A `Path` follows the events of one unit, newest first:

* `Path.attempts`, `Path.finishes` — it counts how often the unit has been taken
  and whether it is done;
* `Path.until_le` — leases follow one another in time;
* `Path.unclaimed` — until it is taken again a unit keeps its lease or is done;
* `Path.fenced` — whoever has lost the unit neither finishes nor touches it
  before taking it again.
-/
import Mathlib

namespace Concurrency

/-- How far a unit of work has come; `earlier` counts the leases before the
current one. -/
inductive Lease (O T : Type) where
  | fresh
  | held (owner : O) (expires : T) (earlier : ℕ)
  | done (earlier : ℕ)

/-- What happens to it. -/
inductive Lease.Event (O : Type) where
  | claim (owner : O)
  | finish (owner : O)
  | touch (owner : O)
  deriving DecidableEq

namespace Lease

variable {O T : Type}

/-- Who does it. -/
def Event.owner : Event O → O
  | .claim owner => owner
  | .finish owner => owner
  | .touch owner => owner

/-- The unit is taken. -/
def Event.isClaim : Event O → Bool
  | .claim _ => true
  | _ => false

/-- The unit is finished. -/
def Event.isFinish : Event O → Bool
  | .finish _ => true
  | _ => false

/-- How often it has been taken. -/
def attempts : Lease O T → ℕ
  | .fresh => 0
  | .held _ _ earlier => earlier + 1
  | .done earlier => earlier + 1

/-- It is done. -/
def isDone : Lease O T → Bool
  | .done _ => true
  | _ => false

variable [Preorder T]

/-- One event. -/
inductive Step : Event O → Lease O T → Lease O T → Prop
  | take (owner : O) (expires : T) : Step (.claim owner) .fresh (.held owner expires 0)
  | retake (owner owner' : O) (expires expires' : T) (earlier : ℕ) (h : expires < expires') :
      Step (.claim owner') (.held owner expires earlier) (.held owner' expires' (earlier + 1))
  | finish (owner : O) (expires : T) (earlier : ℕ) :
      Step (.finish owner) (.held owner expires earlier) (.done earlier)
  | touch (owner : O) (expires : T) (earlier : ℕ) :
      Step (.touch owner) (.held owner expires earlier) (.held owner expires earlier)

/-- The events that lead from one state to another, newest first. -/
inductive Path (l : Lease O T) : List (Event O) → Lease O T → Prop
  | nil : Path l [] l
  | cons {e : Event O} {es : List (Event O)} {l₁ l₂ : Lease O T} (h : Path l es l₁)
      (s : Step e l₁ l₂) : Path l (e :: es) l₂

theorem Path.append {l l₁ l₂ : Lease O T} {es es' : List (Event O)} (h : Path l es l₁)
    (h' : Path l₁ es' l₂) : Path l (es' ++ es) l₂ := by
  induction h' with
  | nil => exact h
  | cons _ s ih => exact .cons ih s

/-! ### Counting -/

theorem Step.attempts {e : Event O} {l l' : Lease O T} (s : Step e l l') :
    l'.attempts = l.attempts + e.isClaim.toNat := by
  cases s <;> rfl

/-- The attempts are the claims. -/
theorem Path.attempts {l l' : Lease O T} {es : List (Event O)} (h : Path l es l') :
    l'.attempts = l.attempts + es.countP Event.isClaim := by
  induction h with
  | nil => rfl
  | @cons e es l₁ l₂ _ s ih =>
    rw [s.attempts, ih, List.countP_cons]
    cases e <;> simp [Event.isClaim, Nat.add_assoc]

theorem Step.not_done {e : Event O} {l l' : Lease O T} (s : Step e l l') :
    l.isDone = false := by
  cases s <;> rfl

theorem Step.isDone {e : Event O} {l l' : Lease O T} (s : Step e l l') :
    l'.isDone = e.isFinish := by
  cases s <;> rfl

/-- Nothing happens to a unit that is done. -/
theorem Path.of_done {l l' : Lease O T} {es : List (Event O)} (h : Path l es l')
    (hl : l.isDone = true) : es = [] ∧ l' = l := by
  induction h with
  | nil => exact ⟨rfl, rfl⟩
  | cons _ s ih =>
    obtain ⟨-, rfl⟩ := ih
    rw [s.not_done] at hl
    cases hl

/-- **It is finished at most once**, and then it is done. -/
theorem Path.finishes {l l' : Lease O T} {es : List (Event O)} (h : Path l es l')
    (hl : l.isDone = false) : es.countP Event.isFinish = l'.isDone.toNat := by
  induction h with
  | nil => simp [hl]
  | @cons e es l₁ l₂ _ s ih =>
    have hbefore := s.not_done
    rw [hbefore] at ih
    rw [List.countP_cons, ih, s.isDone]
    cases e <;> rfl

/-! ### Leases one after another -/

/-- **A later lease ends later.** -/
theorem Path.until_le {es : List (Event O)} {owner owner' : O} {expires expires' : T}
    {earlier earlier' : ℕ}
    (h : Path (.held owner expires earlier) es (.held owner' expires' earlier')) :
    expires ≤ expires' := by
  generalize hl : held owner' expires' earlier' = l' at h
  induction h generalizing owner' expires' earlier' with
  | nil =>
    cases hl
    exact le_refl _
  | cons hp s ih =>
    cases s with
    | take owner expires =>
      -- a held unit never becomes fresh again
      exact absurd hp.attempts (by simp [Lease.attempts]; omega)
    | retake owner₁ owner₂ expires₁ expires₂ earlier₁ hlt =>
      cases hl
      exact (ih rfl).trans hlt.le
    | finish owner expires earlier => cases hl
    | touch owner expires earlier =>
      cases hl
      exact ih rfl

/-- **Until it is taken again a unit keeps its lease**, or it is done. -/
theorem Path.unclaimed {l l' : Lease O T} {es : List (Event O)} (h : Path l es l')
    (hes : es.countP Event.isClaim = 0) : l' = l ∨ l'.isDone = true := by
  induction h with
  | nil => exact .inl rfl
  | @cons e es l₁ l₂ _ s ih =>
    rw [List.countP_cons] at hes
    have hold := ih (by omega)
    cases s with
    | take owner expires => simp [Event.isClaim] at hes
    | retake owner₁ owner₂ expires₁ expires₂ earlier₁ hlt => simp [Event.isClaim] at hes
    | finish owner expires earlier => exact .inr rfl
    | touch owner expires earlier =>
      obtain hold | hdone := hold
      · exact .inl hold
      · cases hdone

/-- It is not the owner's. -/
def Lost (owner : O) : Lease O T → Prop
  | .held owner' _ _ => owner' ≠ owner
  | _ => True

/-- **Whoever has lost the unit does not get at it before taking it again.** -/
theorem Path.fenced {l l' : Lease O T} {es : List (Event O)} {owner : O} (h : Path l es l')
    (hl : l.Lost owner) (hes : .claim owner ∉ es) :
    l'.Lost owner ∧ ∀ e ∈ es, e.owner ≠ owner := by
  induction h with
  | nil => exact ⟨hl, by simp⟩
  | @cons e es l₁ l₂ _ s ih =>
    rw [List.mem_cons, not_or] at hes
    obtain ⟨hlost, hold⟩ := ih hes.2
    have hstep : l₂.Lost owner ∧ e.owner ≠ owner := by
      cases s with
      | take owner' expires =>
        have hne : owner' ≠ owner := fun he => hes.1 (by rw [he])
        exact ⟨hne, hne⟩
      | retake owner₁ owner₂ expires₁ expires₂ earlier₁ hlt =>
        have hne : owner₂ ≠ owner := fun he => hes.1 (by rw [he])
        exact ⟨hne, hne⟩
      | finish owner' expires earlier => exact ⟨trivial, hlost⟩
      | touch owner' expires earlier => exact ⟨hlost, hlost⟩
    refine ⟨hstep.1, fun e' he' => ?_⟩
    obtain rfl | he' := List.mem_cons.mp he'
    · exact hstep.2
    · exact hold e' he'

end Lease

end Concurrency
