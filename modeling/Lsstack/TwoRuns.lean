/-
Two runs of one program under the same decisions.

`Program.Twins` relates two runs: whatever the environment decides, the same in both, the
program is replied the same and ends in states that are related.

* `twins_bind`, `twins_handle`, `Twins.bind` — the rules of sequencing and of exceptions;
* **`Twins.replay`** — what one world replays the other does, with the same result;
* `Session.Takes` — one statement of a session under one decision;
* `twins_store`, `twins_ext` — the rules of one statement;
* **`Alone.takes`**, **`Alone.enabled`** — a session that need not wait takes such steps, and
  whether it can does not depend on the rows.
-/
import Lsstack.SessionAmid

namespace Concurrency

namespace Program

variable {W S C Y : Type} {R : C → Type} {ε α β : Type}
  {step : S → (c : C) → Y → Except ε (R c) → S → Prop}

/-- Under the same decisions the program takes the same course from `s` and from `t`. -/
def Twins (step : S → (c : C) → Y → Except ε (R c) → S → Prop) :
    Program C R ε α → S → S → (Except ε α → S → S → Prop) → Prop
  | .ret a, s, t, Q => Q (.ok a) s t
  | .raise e, s, t, Q => Q (.error e) s t
  | .call c k, s, t, Q => ∀ y r s' r' t', step s c y r s' → step t c y r' t' →
      r = r' ∧ (k r).Twins step s' t' Q

@[simp] theorem twins_ret {a : α} {s t : S} {Q : Except ε α → S → S → Prop} :
    (ret a : Program C R ε α).Twins step s t Q ↔ Q (.ok a) s t := Iff.rfl

@[simp] theorem twins_raise {e : ε} {s t : S} {Q : Except ε α → S → S → Prop} :
    (raise e : Program C R ε α).Twins step s t Q ↔ Q (.error e) s t := Iff.rfl

theorem Twins.mono {p : Program C R ε α} {s t : S} {Q Q' : Except ε α → S → S → Prop}
    (h : p.Twins step s t Q) (hQ : ∀ r s' t', Q r s' t' → Q' r s' t') : p.Twins step s t Q' := by
  induction p generalizing s t with
  | ret a => exact hQ _ _ _ h
  | raise e => exact hQ _ _ _ h
  | call c k ih =>
    intro y r s' r' t' hs ht
    obtain ⟨hsame, hrest⟩ := h y r s' r' t' hs ht
    exact ⟨hsame, ih r hrest⟩

/-- The rule of sequencing. -/
theorem twins_bind {p : Program C R ε α} {f : α → Program C R ε β} {s t : S}
    {Q : Except ε β → S → S → Prop}
    (h : p.Twins step s t fun r s' t' =>
      match r with
      | .ok a => (f a).Twins step s' t' Q
      | .error e => Q (.error e) s' t') : (p.bind f).Twins step s t Q := by
  induction p generalizing s t with
  | ret a => exact h
  | raise e => exact h
  | call c k ih =>
    intro y r s' r' t' hs ht
    obtain ⟨hsame, hrest⟩ := h y r s' r' t' hs ht
    exact ⟨hsame, ih r hrest⟩

/-- The rule of exception handling. -/
theorem twins_handle {p : Program C R ε α} {f : ε → Program C R ε α} {s t : S}
    {Q : Except ε α → S → S → Prop}
    (h : p.Twins step s t fun r s' t' =>
      match r with
      | .ok a => Q (.ok a) s' t'
      | .error e => (f e).Twins step s' t' Q) : (p.handle f).Twins step s t Q := by
  induction p generalizing s t with
  | ret a => exact h
  | raise e => exact h
  | call c k ih =>
    intro y r s' r' t' hs ht
    obtain ⟨hsame, hrest⟩ := h y r s' r' t' hs ht
    exact ⟨hsame, ih r hrest⟩

/-- The rule of one command. -/
theorem twins_perform {c : C} {s t : S} {Q : Except ε (R c) → S → S → Prop}
    (h : ∀ y r s' r' t', step s c y r s' → step t c y r' t' → r = r' ∧ Q r s' t') :
    (perform c : Program C R ε (R c)).Twins step s t Q := by
  intro y r s' r' t' hs ht
  obtain ⟨hsame, hQ⟩ := h y r s' r' t' hs ht
  refine ⟨hsame, ?_⟩
  cases r with
  | ok v => exact hQ
  | error e => exact hQ

/-- The postcondition of code that keeps the relation `I` where it raises. -/
def Keeps (I : S → S → Prop) (K : α → S → S → Prop) : Except ε α → S → S → Prop
  | .ok a, s, t => K a s t
  | .error _, s, t => I s t

/-- Sequencing where both parts keep it. -/
theorem Twins.bind {p : Program C R ε α} {f : α → Program C R ε β} {s t : S} {I : S → S → Prop}
    {K : β → S → S → Prop}
    (h : p.Twins step s t (Keeps I fun a s' t' => (f a).Twins step s' t' (Keeps I K))) :
    (p.bind f).Twins step s t (Keeps I K) := by
  refine twins_bind (h.mono fun r s' t' hr => ?_)
  cases r with
  | ok a => exact hr
  | error e => exact hr

/-- **What one world replays, the other does**, with the same result. -/
theorem Twins.replay {step? : W → (c : C) → Y → Option (Except ε (R c) × W)}
    {sees : W → S → Prop} {inputs : Y → Prop} {p : Program C R ε α} {ys : List Y} {s t : S}
    {w v w' : W} {r : Except ε α} {Q : Except ε α → S → S → Prop}
    (hstep : ∀ {w s c y r w'}, inputs y → sees w s → step? w c y = some (r, w') →
      ∃ s', step s c y r s' ∧ sees w' s')
    (henabled : ∀ {w s v t c y r w'}, sees w s → sees v t → step? w c y = some (r, w') →
      ∃ r' v', step? v c y = some (r', v'))
    (hp : p.Twins step s t Q) (hys : ∀ y ∈ ys, inputs y) (hw : sees w s) (hv : sees v t)
    (h : replay step? ys p w = some (r, w')) :
    ∃ v' s' t', replay step? ys p v = some (r, v') ∧ sees w' s' ∧ sees v' t' ∧ Q r s' t' := by
  induction p generalizing ys s t w v with
  | ret a =>
    simp only [Program.replay, Option.some.injEq, Prod.mk.injEq] at h
    obtain ⟨rfl, rfl⟩ := h
    exact ⟨v, s, t, by simp only [Program.replay], hw, hv, hp⟩
  | raise e =>
    simp only [Program.replay, Option.some.injEq, Prod.mk.injEq] at h
    obtain ⟨rfl, rfl⟩ := h
    exact ⟨v, s, t, by simp only [Program.replay], hw, hv, hp⟩
  | call c k ih =>
    cases ys with
    | nil => cases h
    -- the step is possible in both worlds, with one reply, and the rest goes on from there
    | cons y ys =>
      obtain ⟨hy, hys⟩ := List.forall_mem_cons.mp hys
      rw [Program.replay] at h ⊢
      rcases hfirst : step? w c y with _ | ⟨r₁, w₁⟩
      · rw [hfirst] at h
        cases h
      rw [hfirst] at h
      obtain ⟨r₂, v₁, hsecond⟩ := henabled hw hv hfirst
      obtain ⟨s₁, hs₁, hw₁⟩ := hstep hy hw hfirst
      obtain ⟨t₁, ht₁, hv₁⟩ := hstep hy hv hsecond
      obtain ⟨rfl, hrest⟩ := hp y r₁ s₁ r₂ t₁ hs₁ ht₁
      rw [hsecond]
      exact ih r₁ hrest hys hw₁ hv₁ h

end Program

/-! ### Sessions -/

variable {κ : Type} {ρ : κ → Type} {σ O E X Y F ε : Type} {XR : X → Type} [DecidableEq κ]
  [DecidableEq σ]

/-- One statement of a session under a decision: it is replied, it fails, its commit is done
though it fails, or a call is answered by one of the `given`. -/
def Session.Takes (given : Y → Prop) (fault : F → ε)
    (ext : E → (x : X) → Y → Option (Except ε (XR x) × E)) (s : Session κ ρ σ)
    (c : Statement κ ρ σ O X) :
    Choice F Y → Except ε (c.Reply XR) → Session κ ρ σ → Prop
  | .ok, r, s' => ∃ v, r = .ok v ∧ s.Replies (fun _ _ => False) c v ∧ s' = s.next c
  | .fail f, r, s' => c ≠ .rollback ∧ r = .error (fault f) ∧ s' = s
  | .lost f, r, s' => (∃ out, c = .commit out) ∧ r = .error (fault f) ∧ s' = s.next c
  | .ext d, r, s' => s' = s ∧ given d ∧
    match c, r with
    | .ext x, r => ∃ env env', ext env x d = some (r, env')
    | _, _ => False

section

variable {given : Y → Prop} {fault : F → ε} {ext : E → (x : X) → Y → Option (Except ε (XR x) × E)}
  {i : ℕ} {w w' v : World κ ρ σ O E} {s t : Session κ ρ σ} {c : Statement κ ρ σ O X}
  {x : Choice F Y} {r : Except ε (c.Reply XR)}

/-- The rule of a statement of the store. -/
theorem twins_store {I : Session κ ρ σ → Session κ ρ σ → Prop}
    {K : c.Reply XR → Session κ ρ σ → Session κ ρ σ → Prop} (hc : ∀ x, c ≠ .ext x)
    (hI : I s t) (hcommit : ∀ out, c = .commit out → I (s.next c) (t.next c))
    (h : ∀ v v', s.Replies (fun _ _ => False) c v → t.Replies (fun _ _ => False) c v' →
      v = v' ∧ K v (s.next c) (t.next c)) :
    (Program.perform c : Program _ _ ε _).Twins (Session.Takes given fault ext) s t
      (Program.Keeps I K) := by
  refine Program.twins_perform ?_
  rintro (_ | f | f | d) r s' r' t' hs ht
  · obtain ⟨v, rfl, hv, rfl⟩ := hs
    obtain ⟨v', rfl, hv', rfl⟩ := ht
    obtain ⟨rfl, hK⟩ := h v v' hv hv'
    exact ⟨rfl, hK⟩
  · obtain ⟨-, rfl, rfl⟩ := hs
    obtain ⟨-, rfl, rfl⟩ := ht
    exact ⟨rfl, hI⟩
  · obtain ⟨⟨out, hout⟩, rfl, rfl⟩ := hs
    obtain ⟨-, rfl, rfl⟩ := ht
    exact ⟨rfl, hcommit out hout⟩
  · obtain ⟨-, -, hext⟩ := hs
    cases c with
    | ext x => exact absurd rfl (hc x)
    | _ => exact hext.elim

/-- The rule of a call, which is answered the same whatever its surroundings. -/
theorem twins_ext {y : X} {I : Session κ ρ σ → Session κ ρ σ → Prop}
    {K : XR y → Session κ ρ σ → Session κ ρ σ → Prop}
    (hsame : ∀ env₁ env₂ d r env, ext env₁ y d = some (r, env) →
      ∃ env', ext env₂ y d = some (r, env'))
    (hI : I s t) (h : ∀ v, (∃ env d env', given d ∧ ext env y d = some (.ok v, env')) → K v s t) :
    (Program.perform (.ext y : Statement κ ρ σ O X) : Program _ _ ε _).Twins
      (Session.Takes given fault ext) s t (Program.Keeps I K) := by
  refine Program.twins_perform ?_
  rintro (_ | f | f | d) r s' r' t' hs ht
  · obtain ⟨v, -, hv, -⟩ := hs
    exact hv.elim
  · obtain ⟨-, rfl, rfl⟩ := hs
    obtain ⟨-, rfl, rfl⟩ := ht
    exact ⟨rfl, hI⟩
  · obtain ⟨⟨out, hout⟩, -⟩ := hs
    cases hout
  · obtain ⟨rfl, hgiven, env₁, env₁', h₁⟩ := hs
    obtain ⟨rfl, -, env₂, env₂', h₂⟩ := ht
    obtain ⟨env, h₃⟩ := hsame env₁ env₂ d r env₁' h₁
    have heq : r = r' := congrArg Prod.fst (Option.some_inj.mp (h₃.symm.trans h₂))
    subst heq
    refine ⟨rfl, ?_⟩
    cases r with
    | ok v => exact h v ⟨env₁, d, env₁', hgiven, h₁⟩
    | error e => exact hI

/-- **A statement of a session alone** is one that the session takes. -/
theorem Alone.takes (h : Alone i w s) (hgiven : ∀ d, x = .ext d → given d)
    (he : Concurrency.exec fault ext w i c x = some (r, w')) :
    ∃ s', s.Takes given fault ext c x r s' ∧ Alone i w' s' := by
  rcases x with _ | f | f | d
  · cases r with
    | ok v =>
      have hanswered : Answered (fun _ _ => False) c v := by
        cases c with
        | ext x => cases he
        | _ => trivial
      obtain ⟨hreplies, halone⟩ := h.exec he hanswered
      exact ⟨_, ⟨v, rfl, hreplies, rfl⟩, halone⟩
    | error e => exact (exec_ok_error he).elim
  · cases c with
    | rollback => cases he
    | _ =>
      cases he
      exact ⟨s, ⟨by simp, rfl, rfl⟩, h⟩
  · cases c with
    | commit out =>
      cases he
      exact ⟨_, ⟨⟨out, rfl⟩, rfl, rfl⟩, h.commit out⟩
    | _ => cases he
  · cases c with
    | ext y =>
      obtain ⟨⟨r', env⟩, hext, heq⟩ := Option.map_eq_some_iff.mp he
      cases heq
      exact ⟨s, ⟨rfl, hgiven d rfl, w.env, env, hext⟩, h.setEnv env⟩
    | _ => cases he

theorem Session.Takes.blocked {s' : Session κ ρ σ} (h : s.Takes given fault ext c x r s') :
    s'.blocked = s.blocked := by
  rcases x with _ | f | f | d
  · obtain ⟨v, -, -, rfl⟩ := h
    exact Session.next_blocked s c
  · obtain ⟨-, -, rfl⟩ := h
    rfl
  · obtain ⟨-, -, rfl⟩ := h
    exact Session.next_blocked s c
  · obtain ⟨rfl, -⟩ := h
    rfl

/-- **What a session may do** does not depend on the rows, unless it must wait for the locks of
others. -/
theorem Alone.enabled (ht : Alone i v t) (hfree : ∀ k, ¬ t.blocked k)
    (hsame : ∀ env₁ env₂ y d r env, ext env₁ y d = some (r, env) →
      ∃ env', ext env₂ y d = some (r, env'))
    (he : Concurrency.exec fault ext w i c x = some (r, w')) :
    ∃ r' v', Concurrency.exec fault ext v i c x = some (r', v') := by
  -- nobody else has a lock, so nothing waits
  have hacquire : ∀ k p, v.acquire i k p = .absent ∨ ∃ a, v.acquire i k p = .row a := by
    intro k p
    obtain ⟨ha, -⟩ | ⟨-, hk⟩ | ⟨a, ha, -⟩ := ht.acquire k p
    · exact .inl ha
    · exact absurd hk (hfree k)
    · exact .inr ⟨a, ha⟩
  rcases x with _ | f | f | d
  · cases c with
    | select k p => exact ⟨_, _, rfl⟩
    | scan p le => exact ⟨_, _, rfl⟩
    | lock k p =>
      obtain ha | ⟨a, ha⟩ := hacquire k p <;> simp only [Concurrency.exec, ha] <;> exact ⟨_, _, rfl⟩
    | tryLock k p =>
      obtain ha | ⟨a, ha⟩ := hacquire k p <;> simp only [Concurrency.exec, ha] <;> exact ⟨_, _, rfl⟩
    | update k p f =>
      obtain ha | ⟨a, ha⟩ := hacquire k p <;> simp only [Concurrency.exec, ha] <;> exact ⟨_, _, rfl⟩
    | insert k row =>
      simp only [Concurrency.exec, if_pos ((ht.unlocked k).mpr (hfree k))]
      cases (v.cell k).view i <;> exact ⟨_, _, rfl⟩
    | delete k p =>
      obtain ha | ⟨a, ha⟩ := hacquire k p <;> simp only [Concurrency.exec, ha] <;> exact ⟨_, _, rfl⟩
    | nextval q => exact ⟨_, _, rfl⟩
    | commit out => exact ⟨_, _, rfl⟩
    | rollback => exact ⟨_, _, rfl⟩
    | ext y => cases he
  · cases c with
    | rollback => cases he
    | _ => exact ⟨_, _, rfl⟩
  · cases c with
    | commit out => exact ⟨_, _, rfl⟩
    | _ => cases he
  · cases c with
    | ext y =>
      obtain ⟨⟨r', env⟩, hext, -⟩ := Option.map_eq_some_iff.mp he
      obtain ⟨env', hext'⟩ := hsame w.env v.env y d r' env hext
      exact ⟨r', { v with env := env' }, by simp only [Concurrency.exec, hext', Option.map_some]⟩
    | _ => cases he

/-- **A program in two databases**, each with one session: what is replied in one is replied in
the other. -/
theorem Program.Twins.alone {α : Type} {p : Program (Statement κ ρ σ O X) (Statement.Reply XR) ε α}
    {w w' v : World κ ρ σ O E} {r : Except ε α}
    {Q : Except ε α → Session κ ρ σ → Session κ ρ σ → Prop} {xs : List (Choice F Y)}
    (hsame : ∀ env₁ env₂ y d r env, ext env₁ y d = some (r, env) →
      ∃ env', ext env₂ y d = some (r, env'))
    (hp : p.Twins (Session.Takes given fault ext) s t Q) (hgiven : ∀ d, .ext d ∈ xs → given d)
    (hw : Alone i w s) (hv : Alone i v t) (hs : ∀ k, ¬ s.blocked k) (ht : ∀ k, ¬ t.blocked k)
    (h : Program.replay (fun w => Concurrency.exec fault ext w i) xs p w = some (r, w')) :
    ∃ v' s' t', Program.replay (fun w => Concurrency.exec fault ext w i) xs p v = some (r, v') ∧
      Alone i w' s' ∧ Alone i v' t' ∧ Q r s' t' := by
  have hstep : ∀ {w : World κ ρ σ O E} {s : Session κ ρ σ} {c : Statement κ ρ σ O X}
      {x : Choice F Y} {r : Except ε (c.Reply XR)} {w' : World κ ρ σ O E},
      (∀ d, x = .ext d → given d) → (Alone i w s ∧ ∀ k, ¬ s.blocked k) →
      Concurrency.exec fault ext w i c x = some (r, w') →
      ∃ s', s.Takes given fault ext c x r s' ∧ Alone i w' s' ∧ ∀ k, ¬ s'.blocked k := by
    rintro w s c x r w' hx ⟨hw, hs⟩ he
    obtain ⟨s', htakes, hw'⟩ := hw.takes hx he
    exact ⟨s', htakes, hw', htakes.blocked ▸ hs⟩
  have hxs : ∀ x ∈ xs, ∀ d, x = .ext d → given d := by
    rintro x hx d rfl
    exact hgiven d hx
  obtain ⟨v', s', t', hreplay, ⟨hw', -⟩, ⟨hv', -⟩, hQ⟩ := hp.replay hstep
    (fun _ hsees he => hsees.1.enabled hsees.2 hsame he) hxs ⟨hw, hs⟩ ⟨hv, ht⟩ h
  exact ⟨v', s', t', hreplay, hw', hv', hQ⟩

end

end Concurrency
