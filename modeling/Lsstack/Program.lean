/-
Programs that talk to an environment, and the protocols they keep to.

`Program C R ε α` is a computation that issues commands `c : C`, resumes with
the environment's reply `R c` (or the exception the environment raised), and
ends by returning an `α` or raising an `ε`.  Nothing here fixes what a command
does: that is the business of the machine that runs the program.

A `Protocol` is a ghost automaton beside such a program.  `Program.Meets` says
that, whatever the environment replies, every command the program issues is
allowed by the guard at the ghost state reached so far, and that the ghost
state at the end satisfies a postcondition.  The rules:

* `meets_bind`, `meets_handle` — sequencing and exception handling;
* `meets_perform`, `meets_perform_automaton` — one command;
* `Meets.mono` — weakening of the postcondition;
* `Meets.transfer` — from one protocol to another that simulates it.
-/
import Mathlib

namespace Concurrency

/-- A computation that issues commands `c : C` and resumes with the reply. -/
inductive Program (C : Type) (R : C → Type) (ε α : Type) : Type where
  | ret (a : α)
  | raise (e : ε)
  | call (c : C) (k : Except ε (R c) → Program C R ε α)

namespace Program

variable {C : Type} {R : C → Type} {ε α β γ : Type}

/-- Sequencing: exceptions of the first part skip the second. -/
def bind : Program C R ε α → (α → Program C R ε β) → Program C R ε β
  | ret a, f => f a
  | raise e, _ => raise e
  | call c k, f => call c fun r => (k r).bind f

/-- Exception handling, `try p except e: h e`. -/
def handle : Program C R ε α → (ε → Program C R ε α) → Program C R ε α
  | ret a, _ => ret a
  | raise e, h => h e
  | call c k, h => call c fun r => (k r).handle h

/-- Issue one command; an exception of the environment is raised here. -/
def perform (c : C) : Program C R ε (R c) :=
  call c fun
    | .ok r => ret r
    | .error e => raise e

instance : Monad (Program C R ε) where
  pure := ret
  bind := bind

instance : MonadExceptOf ε (Program C R ε) where
  throw := raise
  tryCatch := handle

@[simp] theorem pure_eq (a : α) : (pure a : Program C R ε α) = ret a := rfl

@[simp] theorem throw_eq (e : ε) : (throw e : Program C R ε α) = raise e := rfl

@[simp] theorem tryCatch_eq (p : Program C R ε α) (h : ε → Program C R ε α) :
    (tryCatch p h) = p.handle h := rfl

@[simp] theorem bind_eq (p : Program C R ε α) (f : α → Program C R ε β) :
    (p >>= f) = p.bind f := rfl

@[simp] theorem ret_bind (a : α) (f : α → Program C R ε β) : (ret a).bind f = f a := rfl

@[simp] theorem raise_bind (e : ε) (f : α → Program C R ε β) :
    (raise e : Program C R ε α).bind f = raise e := rfl

theorem bind_ret (p : Program C R ε α) : p.bind ret = p := by
  induction p with
  | ret a => rfl
  | raise e => rfl
  | call c k ih =>
    rw [bind]
    congr 1
    funext r
    exact ih r

theorem bind_assoc (p : Program C R ε α) (f : α → Program C R ε β)
    (g : β → Program C R ε γ) :
    (p.bind f).bind g = p.bind fun a => (f a).bind g := by
  induction p with
  | ret a => rfl
  | raise e => rfl
  | call c k ih =>
    rw [bind, bind, bind]
    congr 1
    funext r
    exact ih r

end Program

/-- A ghost automaton that watches a program's commands: `guard` says which
commands it allows, `reply` which replies it expects, and `step` how the ghost
state may move at a reply. -/
structure Protocol (C : Type) (R : C → Type) (ε Γ : Type) where
  guard : Γ → C → Prop
  reply : Γ → (c : C) → Except ε (R c) → Prop
  step : Γ → (c : C) → Except ε (R c) → Γ → Prop

namespace Program

variable {C : Type} {R : C → Type} {ε Γ α β : Type} {P : Protocol C R ε Γ}

/-- Every command of the program is allowed by the guard, for every expected
reply, and the result and final ghost state satisfy `Q`. -/
def Meets (P : Protocol C R ε Γ) : Program C R ε α → Γ → (Except ε α → Γ → Prop) → Prop
  | ret a, g, Q => Q (.ok a) g
  | raise e, g, Q => Q (.error e) g
  | call c k, g, Q =>
    P.guard g c ∧ ∀ r, P.reply g c r → ∃ g', P.step g c r g' ∧ (k r).Meets P g' Q

@[simp] theorem meets_ret {a : α} {g : Γ} {Q : Except ε α → Γ → Prop} :
    (ret a : Program C R ε α).Meets P g Q ↔ Q (.ok a) g := Iff.rfl

@[simp] theorem meets_raise {e : ε} {g : Γ} {Q : Except ε α → Γ → Prop} :
    (raise e : Program C R ε α).Meets P g Q ↔ Q (.error e) g := Iff.rfl

theorem meets_call {c : C} {k : Except ε (R c) → Program C R ε α} {g : Γ}
    {Q : Except ε α → Γ → Prop} :
    (call c k).Meets P g Q ↔
      P.guard g c ∧ ∀ r, P.reply g c r → ∃ g', P.step g c r g' ∧ (k r).Meets P g' Q :=
  Iff.rfl

theorem Meets.mono {p : Program C R ε α} {g : Γ} {Q Q' : Except ε α → Γ → Prop}
    (h : p.Meets P g Q) (hQ : ∀ r g', Q r g' → Q' r g') : p.Meets P g Q' := by
  induction p generalizing g with
  | ret a => exact hQ _ _ h
  | raise e => exact hQ _ _ h
  | call c k ih =>
    obtain ⟨hg, hk⟩ := h
    refine ⟨hg, fun r hr => ?_⟩
    obtain ⟨g', hs, hm⟩ := hk r hr
    exact ⟨g', hs, ih r hm⟩

theorem meets_congr {p : Program C R ε α} {g : Γ} {Q Q' : Except ε α → Γ → Prop}
    (h : ∀ r g', Q r g' ↔ Q' r g') : p.Meets P g Q ↔ p.Meets P g Q' :=
  ⟨fun hp => hp.mono fun r g' => (h r g').mp, fun hp => hp.mono fun r g' => (h r g').mpr⟩

/-- The postcondition of a first part: `K` after a value, `Q` after an exception. -/
def onOk (K : α → Γ → Prop) (Q : Except ε β → Γ → Prop) : Except ε α → Γ → Prop
  | .ok a, g => K a g
  | .error e, g => Q (.error e) g

/-- The postcondition of a guarded part: `Q` after a value, `H` after an exception. -/
def onError (Q : Except ε α → Γ → Prop) (H : ε → Γ → Prop) : Except ε α → Γ → Prop
  | .ok a, g => Q (.ok a) g
  | .error e, g => H e g

@[simp] theorem onOk_ok {K : α → Γ → Prop} {Q : Except ε β → Γ → Prop} {a : α} {g : Γ} :
    onOk K Q (.ok a) g ↔ K a g := Iff.rfl

@[simp] theorem onOk_error {K : α → Γ → Prop} {Q : Except ε β → Γ → Prop} {e : ε} {g : Γ} :
    onOk K Q (.error e) g ↔ Q (.error e) g := Iff.rfl

@[simp] theorem onError_ok {Q : Except ε α → Γ → Prop} {H : ε → Γ → Prop} {a : α} {g : Γ} :
    onError Q H (.ok a) g ↔ Q (.ok a) g := Iff.rfl

@[simp] theorem onError_error {Q : Except ε α → Γ → Prop} {H : ε → Γ → Prop} {e : ε} {g : Γ} :
    onError Q H (.error e) g ↔ H e g := Iff.rfl

/-- The rule of sequencing. -/
@[simp] theorem meets_bind {p : Program C R ε α} {f : α → Program C R ε β} {g : Γ}
    {Q : Except ε β → Γ → Prop} :
    (p.bind f).Meets P g Q ↔ p.Meets P g (onOk (fun a g' => (f a).Meets P g' Q) Q) := by
  induction p generalizing g with
  | ret a => rfl
  | raise e => rfl
  | call c k ih => simp only [bind, meets_call, ih]

/-- The rule of exception handling. -/
@[simp] theorem meets_handle {p : Program C R ε α} {h : ε → Program C R ε α} {g : Γ}
    {Q : Except ε α → Γ → Prop} :
    (p.handle h).Meets P g Q ↔
      p.Meets P g (onError Q fun e g' => (h e).Meets P g' Q) := by
  induction p generalizing g with
  | ret a => rfl
  | raise e => rfl
  | call c k ih => simp only [handle, meets_call, ih]

/-- The rule of one command. -/
theorem meets_perform {c : C} {g : Γ} {Q : Except ε (R c) → Γ → Prop} :
    (perform c : Program C R ε (R c)).Meets P g Q ↔
      P.guard g c ∧ ∀ r, P.reply g c r → ∃ g', P.step g c r g' ∧ Q r g' := by
  simp only [perform, meets_call]
  refine and_congr_right fun _ => forall_congr' fun r => imp_congr_right fun _ => ?_
  cases r <;> rfl

end Program

/-- `P'` allows whatever `P` allows and follows it through `rel`. -/
def Protocol.Simulates {C : Type} {R : C → Type} {ε Γ Γ' : Type} (P : Protocol C R ε Γ)
    (P' : Protocol C R ε Γ') (rel : Γ → Γ' → Prop) : Prop :=
  ∀ g g' c, rel g g' → P.guard g c → P'.guard g' c ∧ ∀ r, P'.reply g' c r →
    P.reply g c r ∧ ∀ g₁, P.step g c r g₁ → ∃ g₁', P'.step g' c r g₁' ∧ rel g₁ g₁'

/-- A program that meets a protocol meets every protocol that simulates it. -/
theorem Program.Meets.transfer {C : Type} {R : C → Type} {ε Γ Γ' α : Type}
    {P : Protocol C R ε Γ} {P' : Protocol C R ε Γ'} {rel : Γ → Γ' → Prop}
    (hsim : P.Simulates P' rel) {p : Program C R ε α} {g : Γ} {g' : Γ'}
    {Q : Except ε α → Γ → Prop} (h : p.Meets P g Q) (hrel : rel g g') :
    p.Meets P' g' fun r g₁' => ∃ g₁, rel g₁ g₁' ∧ Q r g₁ := by
  induction p generalizing g g' with
  | ret a => exact ⟨g, hrel, h⟩
  | raise e => exact ⟨g, hrel, h⟩
  | call c k ih =>
    obtain ⟨hguard, hk⟩ := h
    obtain ⟨hguard', hk'⟩ := hsim g g' c hrel hguard
    refine ⟨hguard', fun r hr => ?_⟩
    obtain ⟨hr', hstep⟩ := hk' r hr
    obtain ⟨g₁, hg₁, hm⟩ := hk r hr'
    obtain ⟨g₁', hg₁', hrel'⟩ := hstep g₁ hg₁
    exact ⟨g₁', hg₁', ih r hm hrel'⟩

/-! ### Replays -/

namespace Program

variable {C : Type} {R : C → Type} {ε α β : Type}

/-- The program issues the commands of the list (oldest first), is given their
replies, and has come to what follows. -/
inductive Reaches : Program C R ε α → List ((c : C) × Except ε (R c)) → Program C R ε α → Prop
  | nil (p : Program C R ε α) : Reaches p [] p
  | call {c : C} {k : Except ε (R c) → Program C R ε α} {r : Except ε (R c)}
      {calls : List ((c : C) × Except ε (R c))} {p : Program C R ε α}
      (h : Reaches (k r) calls p) : Reaches (.call c k) (⟨c, r⟩ :: calls) p

theorem Reaches.ret_inv {a : α} {calls : List ((c : C) × Except ε (R c))}
    {p : Program C R ε α} (h : (ret a : Program C R ε α).Reaches calls p) :
    calls = [] ∧ p = ret a := by
  cases h
  exact ⟨rfl, rfl⟩

/-- A sequence is still in its first part, or that part has returned. -/
theorem Reaches.bind_cases {p : Program C R ε α} {f : α → Program C R ε β}
    {calls : List ((c : C) × Except ε (R c))} {q : Program C R ε β}
    (h : (p.bind f).Reaches calls q) :
    (∃ p', p.Reaches calls p' ∧ q = p'.bind f) ∨
    ∃ a first rest, calls = first ++ rest ∧ p.Reaches first (ret a) ∧ (f a).Reaches rest q := by
  induction p generalizing calls with
  | ret a => exact .inr ⟨a, [], calls, rfl, .nil _, h⟩
  | raise e =>
    cases h
    exact .inl ⟨raise e, .nil _, rfl⟩
  | call c k ih =>
    generalize hq : (Program.call c k).bind f = whole at h
    cases h with
    | nil => exact .inl ⟨Program.call c k, .nil _, hq.symm⟩
    | call h =>
      cases hq
      obtain ⟨p', hp', rfl⟩ | ⟨a, first, rest, rfl, hfirst, hrest⟩ := ih _ h
      · exact .inl ⟨p', .call hp', rfl⟩
      · exact .inr ⟨a, _, rest, rfl, .call hfirst, hrest⟩

/-- One command has been issued or not. -/
theorem Reaches.perform_cases {c : C} {calls : List ((c : C) × Except ε (R c))}
    {p : Program C R ε (R c)} (h : (perform c).Reaches calls p) :
    calls = [] ∨ ∃ r, calls = [⟨c, r⟩] ∧ ∀ a, p = ret a → r = .ok a := by
  cases h with
  | nil => exact .inl rfl
  | @call _ _ r _ _ h =>
    rcases r with e | a
    · cases h
      exact .inr ⟨_, rfl, fun a ha => by cases ha⟩
    · cases h
      exact .inr ⟨_, rfl, fun a ha => by cases ha; rfl⟩

end Program

/-! ### Automata

A protocol whose ghost state is a function of the commands and replies so far,
and that expects any reply. -/

/-- The protocol of a guarded automaton. -/
def Protocol.automaton {C : Type} {R : C → Type} {ε Γ : Type} (guard : Γ → C → Prop)
    (next : Γ → (c : C) → Except ε (R c) → Γ) : Protocol C R ε Γ where
  guard := guard
  reply := fun _ _ _ => True
  step := fun g c r g' => g' = next g c r

namespace Program

variable {C : Type} {R : C → Type} {ε Γ α : Type} {guard : Γ → C → Prop}
  {next : Γ → (c : C) → Except ε (R c) → Γ}

theorem meets_perform_automaton {c : C} {g : Γ} {Q : Except ε (R c) → Γ → Prop} :
    (perform c : Program C R ε (R c)).Meets (.automaton guard next) g Q ↔
      guard g c ∧ ∀ r, Q r (next g c r) := by
  simp [meets_perform, Protocol.automaton]

/-- A run of a program that issues guarded commands only. -/
theorem Reaches.guarded {kind : C → Prop} {p q : Program C R ε α}
    {calls : List ((c : C) × Except ε (R c))} {Q : Except ε α → Unit → Prop}
    (h : p.Reaches calls q)
    (hp : p.Meets (.automaton (fun _ c => kind c) fun g _ _ => g) () Q) :
    ∀ call ∈ calls, kind call.1 := by
  induction h with
  | nil p => intro call hcall; cases hcall
  | call h ih =>
    obtain ⟨hc, hk⟩ := hp
    obtain ⟨_, -, hmeets⟩ := hk _ trivial
    intro call hcall
    rcases List.mem_cons.mp hcall with rfl | hcall
    · exact hc
    · exact ih hmeets call hcall

end Program

end Concurrency
