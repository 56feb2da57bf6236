/-
What a session ensures amid others.

`Program.Ensures` is the demonic counterpart of `Program.Meets`: whatever the environment
does at each command, the program ends as promised.  For a session of the row store the
environment first moves the rows the session sees as `rely` allows; then the statement is
replied, or fails without effect (`amid`).

* `ensures_bind`, `ensures_handle`, `ensures_perform` — the rules of sequencing, of
  exception handling and of one command;
* `Ensures.and`, `Issues.ensures` — two promises at once, and what no command breaks;
* **`Runs.ensures`** — every run keeps the promise;
* **`Alone.tries`** — one statement of a session that fails, if it fails, without effect;
* `Cell.Moves.beside` — and what a session sees of the statements of another.
-/
import Lsstack.SessionRuns

namespace Concurrency

namespace Program

variable {W S C : Type} {R : C → Type} {ε α β : Type}
  {next : S → (c : C) → Except ε (R c) → S → Prop}

/-- Whatever `next` does at its commands, the program ends with `Q`. -/
def Ensures (next : S → (c : C) → Except ε (R c) → S → Prop) :
    Program C R ε α → S → (Except ε α → S → Prop) → Prop
  | .ret a, s, Q => Q (.ok a) s
  | .raise e, s, Q => Q (.error e) s
  | .call c k, s, Q => ∀ r s', next s c r s' → (k r).Ensures next s' Q

@[simp] theorem ensures_ret {a : α} {s : S} {Q : Except ε α → S → Prop} :
    (ret a : Program C R ε α).Ensures next s Q ↔ Q (.ok a) s := Iff.rfl

@[simp] theorem ensures_raise {e : ε} {s : S} {Q : Except ε α → S → Prop} :
    (raise e : Program C R ε α).Ensures next s Q ↔ Q (.error e) s := Iff.rfl

theorem ensures_call {c : C} {k : Except ε (R c) → Program C R ε α} {s : S}
    {Q : Except ε α → S → Prop} :
    (call c k).Ensures next s Q ↔ ∀ r s', next s c r s' → (k r).Ensures next s' Q := Iff.rfl

theorem Ensures.mono {p : Program C R ε α} {s : S} {Q Q' : Except ε α → S → Prop}
    (h : p.Ensures next s Q) (hQ : ∀ r s', Q r s' → Q' r s') : p.Ensures next s Q' := by
  induction p generalizing s with
  | ret a => exact hQ _ _ h
  | raise e => exact hQ _ _ h
  | call c k ih => exact fun r s' hnext => ih r (h r s' hnext)

theorem Ensures.and {p : Program C R ε α} {s : S} {Q Q' : Except ε α → S → Prop}
    (h : p.Ensures next s Q) (h' : p.Ensures next s Q') :
    p.Ensures next s fun r s' => Q r s' ∧ Q' r s' := by
  induction p generalizing s with
  | ret a => exact ⟨h, h'⟩
  | raise e => exact ⟨h, h'⟩
  | call c k ih => exact fun r s' hnext => ih r (h r s' hnext) (h' r s' hnext)

/-- The rule of sequencing. -/
theorem ensures_bind {p : Program C R ε α} {f : α → Program C R ε β} {s : S}
    {Q : Except ε β → S → Prop} :
    (p.bind f).Ensures next s Q ↔
      p.Ensures next s (onOk (fun a s' => (f a).Ensures next s' Q) Q) := by
  induction p generalizing s with
  | ret a => rfl
  | raise e => rfl
  | call c k ih => simp only [bind, ensures_call, ih]

/-- The rule of exception handling. -/
theorem ensures_handle {p : Program C R ε α} {h : ε → Program C R ε α} {s : S}
    {Q : Except ε α → S → Prop} :
    (p.handle h).Ensures next s Q ↔
      p.Ensures next s (onError Q fun e s' => (h e).Ensures next s' Q) := by
  induction p generalizing s with
  | ret a => rfl
  | raise e => rfl
  | call c k ih => simp only [handle, ensures_call, ih]

/-- The rule of one command. -/
theorem ensures_perform {c : C} {s : S} {Q : Except ε (R c) → S → Prop} :
    (perform c : Program C R ε (R c)).Ensures next s Q ↔ ∀ r s', next s c r s' → Q r s' := by
  simp only [perform, ensures_call]
  refine forall_congr' fun r => forall_congr' fun s' => imp_congr_right fun _ => ?_
  cases r <;> rfl

/-- The program issues commands of a kind only. -/
def Issues (kind : C → Prop) (p : Program C R ε α) : Prop :=
  p.Meets (only kind) () fun _ _ => True

namespace Issues

variable {kind : C → Prop}

theorem ret (a : α) : Issues kind (.ret a : Program C R ε α) := trivial

theorem raise (e : ε) : Issues kind (.raise e : Program C R ε α) := trivial

theorem perform {c : C} (h : kind c) : Issues kind (perform c : Program C R ε (R c)) :=
  (strict_perform h).meets_only

theorem bind {p : Program C R ε α} {f : α → Program C R ε β} (hp : Issues kind p)
    (hf : ∀ a, Issues kind (f a)) : Issues kind (p.bind f) := by
  refine meets_bind.mpr (hp.mono fun r _ _ => ?_)
  cases r with
  | ok a => exact hf a
  | error e => trivial

theorem handle {p : Program C R ε α} {h : ε → Program C R ε α} (hp : Issues kind p)
    (hh : ∀ e, Issues kind (h e)) : Issues kind (p.handle h) := by
  refine meets_handle.mpr (hp.mono fun r _ _ => ?_)
  cases r with
  | ok a => trivial
  | error e => exact hh e

/-- What no such command breaks, the program keeps. -/
theorem ensures {p : Program C R ε α} {I : S → Prop} {s : S} (h : Issues kind p)
    (hnext : ∀ s c r s', kind c → I s → next s c r s' → I s') (hs : I s) :
    p.Ensures next s fun _ s' => I s' := by
  induction p generalizing s with
  | ret a => exact hs
  | raise e => exact hs
  | call c k ih =>
    obtain ⟨hc, hk⟩ := h
    intro r s' hstep
    obtain ⟨_, -, hmeets⟩ := hk r trivial
    exact ih r hmeets (hnext s c r s' hc hs hstep)

end Issues

/-- **Every run ends as the program ensures**, as far as `next` follows the steps. -/
theorem Runs.ensures {between : W → W → Prop} {step : W → (c : C) → Except ε (R c) → W → Prop}
    {p : Program C R ε α} {w w' : W} {events : List (Event W C R ε)} {a : Except ε α}
    {sees : W → S → Prop} {s : S} {Q : Except ε α → S → Prop}
    (h : Runs between step p w events a w')
    (hstep : ∀ {w s w₁ c r w₂}, sees w s → between w w₁ → step w₁ c r w₂ →
      ∃ s', next s c r s' ∧ sees w₂ s')
    (hsees : sees w s) (hp : p.Ensures next s Q) : ∃ s', sees w' s' ∧ Q a s' := by
  induction h generalizing s with
  | ret a w => exact ⟨s, hsees, hp⟩
  | raise e w => exact ⟨s, hsees, hp⟩
  | call waits does rest ih =>
    obtain ⟨s', hnext, hsees'⟩ := hstep hsees waits does
    exact ih hsees' (hp _ _ hnext)

/-- The postcondition of code whose exceptions are all of one kind. -/
def Ends (raised : ε → Prop) (K : α → S → Prop) : Except ε α → S → Prop
  | .ok a, s => K a s
  | .error e, _ => raised e

@[simp] theorem ends_ok {raised : ε → Prop} {K : α → S → Prop} {a : α} {s : S} :
    Ends raised K (.ok a) s ↔ K a s := Iff.rfl

@[simp] theorem ends_error {raised : ε → Prop} {K : α → S → Prop} {e : ε} {s : S} :
    Ends raised K (.error e) s ↔ raised e := Iff.rfl

theorem Ends.mono {raised : ε → Prop} {K K' : α → S → Prop} {r : Except ε α} {s : S}
    (h : Ends raised K r s) (hK : ∀ a, K a s → K' a s) : Ends raised K' r s := by
  cases r with
  | ok a => exact hK a h
  | error e => exact h

/-- Sequencing where both parts raise the same kind. -/
theorem Ensures.bind {raised : ε → Prop} {p : Program C R ε α} {f : α → Program C R ε β} {s : S}
    {K : β → S → Prop}
    (h : p.Ensures next s (Ends raised fun a s' => (f a).Ensures next s' (Ends raised K))) :
    (p.bind f).Ensures next s (Ends raised K) := by
  refine ensures_bind.mpr (h.mono fun r s' hr => ?_)
  cases r with
  | ok a => exact hr
  | error e => exact hr

end Program

/-! ### Sessions -/

variable {κ : Type} {ρ : κ → Type} {σ O E X Y F ε : Type} {XR : X → Type} [DecidableEq κ]
  [DecidableEq σ]

omit [DecidableEq κ] [DecidableEq σ] in
/-- What the session would see after a rollback. -/
def Session.base (s : Session κ ρ σ) : Session κ ρ σ := { s with rows := s.committed }

omit [DecidableEq κ] [DecidableEq σ] in
theorem Session.base_eq {s : Session κ ρ σ} (h : s.rows = s.committed) : s.base = s := by
  cases s
  cases h
  rfl

/-- The others move the rows as `rely` allows; then the statement is replied, or it fails
and leaves what it met. -/
def amid (rely : Session κ ρ σ → Session κ ρ σ → Prop) (answers : (x : X) → XR x → Prop)
    (fails : Statement κ ρ σ O X → ε → Prop) (s : Session κ ρ σ) (c : Statement κ ρ σ O X)
    (r : Except ε (c.Reply XR)) (s' : Session κ ρ σ) : Prop :=
  ∃ s₁, rely s s₁ ∧ ((∃ v, r = .ok v ∧ s₁.Replies answers c v ∧ s' = s₁.next c) ∨
    ∃ e, r = .error e ∧ fails c e ∧ s' = s₁)

/-- A statement of session `i`; if it fails, it has no effect. -/
def Tries (fault : F → ε) (ext : E → (x : X) → Y → Option (Except ε (XR x) × E))
    (answers : (x : X) → XR x → Prop) (i : ℕ) (w : World κ ρ σ O E) (c : Statement κ ρ σ O X)
    (r : Except ε (c.Reply XR)) (w' : World κ ρ σ O E) : Prop :=
  ∃ x : Choice F Y, (∀ e, x ≠ .lost e) ∧ exec fault ext w i c x = some (r, w') ∧
    ∀ v, r = .ok v → Answered answers c v

/-- How a statement may fail: by a fault, or by what the call it makes raises. -/
def Fails (fault : F → ε) (ext : E → (x : X) → Y → Option (Except ε (XR x) × E)) :
    Statement κ ρ σ O X → ε → Prop
  | .rollback, _ => False
  | .ext x, e => (∃ f, e = fault f) ∨ ∃ env y env', ext env x y = some (.error e, env')
  | _, e => ∃ f, e = fault f

omit [DecidableEq κ] [DecidableEq σ] in
/-- A statement of session `j` leaves what the others see of a cell, or publishes what `j`
has written. -/
theorem Cell.Moves.beside {γ : Type} {c c' : Cell γ} {i j : ℕ} (h : c.Moves j c') (hij : j ≠ i) :
    (c'.view i = c.view i ∧ c'.committed = c.committed) ∨
    ∃ v, c.hold = .written j v ∧ c' = ⟨v, .free⟩ := by
  -- session `j` is not `i`, so what it has locked `i` sees as committed
  have hne : ∀ {c : Cell γ}, c.hold.owner = some j → c.view i = c.committed := by
    intro c ho
    refine Cell.view_of_owner_ne fun hi => hij ?_
    exact Option.some_inj.mp (ho.symm.trans hi)
  cases h with
  | stay => exact .inl ⟨rfl, rfl⟩
  | lock o => exact .inl ⟨Cell.lock_view _ _ _, Cell.lock_committed _ _⟩
  | write o v =>
    have hview : c.view i = c.committed := by
      rcases o with ho | ho
      · exact Cell.view_of_owner_ne (by rw [ho]; exact nofun)
      · exact hne ho
    refine .inl ⟨?_, rfl⟩
    rw [hview, hne (by rw [Cell.write_hold, Hold.owner_written]), Cell.write_committed]
  -- at the commit a row written by `j` becomes the committed one
  | publish =>
    by_cases ho : c.hold.owner = some j
    · rw [Cell.publish_of_owner ho]
      cases hhold : c.hold with
      | free =>
        rw [hhold] at ho
        cases ho
      | locked j' =>
        have hcommitted : c.view j = c.committed := by rw [Cell.view, hhold]
        refine .inl ⟨?_, hcommitted⟩
        rw [hne ho, hcommitted]
        rfl
      | written j' v =>
        rw [hhold] at ho
        obtain rfl : j' = j := Option.some_inj.mp ho
        refine .inr ⟨v, rfl, ?_⟩
        rw [Cell.view, hhold]
        dsimp only
        rw [if_pos rfl]
    · rw [Cell.publish_of_ne ho]
      exact .inl ⟨rfl, rfl⟩
  | release =>
    by_cases ho : c.hold.owner = some j
    · refine .inl ⟨?_, Cell.release_committed _ _⟩
      rw [hne ho, Cell.release, if_pos ho]
      rfl
    · rw [Cell.release_of_ne ho]
      exact .inl ⟨rfl, rfl⟩

section

variable {fault : F → ε} {ext : E → (x : X) → Y → Option (Except ε (XR x) × E)}
  {answers : (x : X) → XR x → Prop} {i : ℕ} {w w' : World κ ρ σ O E} {s : Session κ ρ σ}

/-- What does not fail only tries. -/
theorem Does.tries {c : Statement κ ρ σ O X} {r : Except ε (c.Reply XR)}
    (h : Does fault ext answers i w c r w') : Tries fault ext answers i w c r w' := by
  obtain ⟨x, v, rfl, he, hv⟩ := h
  refine ⟨x, ?_, he, ?_⟩
  · rintro e rfl
    cases c <;> cases he
  · rintro _ ⟨⟩
    exact hv

/-- What is not made to fail does not fail. -/
theorem exec_ok_error {c : Statement κ ρ σ O X} {e : ε}
    (he : exec fault ext w i c .ok = some (.error e, w')) : False := by
  cases c
  all_goals simp only [exec] at he
  all_goals first
    | cases he
    | (split at he <;> cases he)
    | (split at he <;> first | cases he | (split at he <;> cases he))

/-- A statement that fails without effect leaves the store. -/
theorem exec_fails {c : Statement κ ρ σ O X} {x : Choice F Y} {e : ε}
    (hx : ∀ f, x ≠ .lost f) (he : exec fault ext w i c x = some (.error e, w')) :
    Fails fault ext c e ∧ ∃ env, w' = { w with env := env } := by
  rcases x with _ | f | f | y
  · exact (exec_ok_error he).elim
  · cases c
    case ext x =>
      cases he
      exact ⟨.inl ⟨f, rfl⟩, w.env, rfl⟩
    all_goals cases he
    all_goals exact ⟨⟨f, rfl⟩, w.env, rfl⟩
  · exact absurd rfl (hx f)
  · cases c
    case ext x =>
      obtain ⟨⟨r, env⟩, hext, heq⟩ := Option.map_eq_some_iff.mp he
      cases heq
      exact ⟨.inr ⟨w.env, y, env, hext⟩, env, rfl⟩
    all_goals cases he

/-- **What a statement does to what the session sees.** -/
theorem Alone.tries (h : Alone i w s) {c : Statement κ ρ σ O X} {r : Except ε (c.Reply XR)}
    (ht : Tries fault ext answers i w c r w') :
    (∃ v, r = .ok v ∧ s.Replies answers c v ∧ Alone i w' (s.next c)) ∨
    ∃ e, r = .error e ∧ Fails fault ext c e ∧ Alone i w' s := by
  obtain ⟨x, hx, he, hv⟩ := ht
  cases r with
  | ok v => exact .inl ⟨v, rfl, h.exec he (hv v rfl)⟩
  | error e =>
    obtain ⟨hfails, env, rfl⟩ := exec_fails hx he
    exact .inr ⟨e, rfl, hfails, h.setEnv env⟩

end

end Concurrency
