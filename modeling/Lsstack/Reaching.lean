/-
Where a program may come to.

`Program.Reaches` follows a program along the replies it is given.  What it takes for a program to
return, or to come to a command of another kind than those of its first part:

* `reaches_perform_ret`, `reaches_bind_ret` — returning, from one command and from a sequence;
* **`Issues.reaches_bind_call`** — a command that the first part cannot issue comes after it.
-/
import Lsstack.SessionAmid

namespace Concurrency

namespace Program

variable {C : Type} {R : C → Type} {ε α β : Type}

theorem reaches_ret_ret {a b : α} {calls : List ((c : C) × Except ε (R c))} :
    (ret a : Program C R ε α).Reaches calls (ret b) ↔ calls = [] ∧ a = b := by
  constructor
  · intro h
    obtain ⟨rfl, hb⟩ := h.ret_inv
    exact ⟨rfl, (Program.ret.inj hb).symm⟩
  · rintro ⟨rfl, rfl⟩
    exact .nil _

theorem not_raise_reaches_ret {e : ε} {b : α} {calls : List ((c : C) × Except ε (R c))} :
    ¬ (raise e : Program C R ε α).Reaches calls (ret b) := by
  intro h
  cases h

theorem not_ret_reaches_call {a : α} {c : C} {k : Except ε (R c) → Program C R ε α}
    {calls : List ((c : C) × Except ε (R c))} :
    ¬ (ret a : Program C R ε α).Reaches calls (call c k) := by
  intro h
  cases h

theorem reaches_perform_ret {c : C} {a : R c} {calls : List ((c : C) × Except ε (R c))} :
    (perform c : Program C R ε (R c)).Reaches calls (ret a) ↔ calls = [⟨c, .ok a⟩] := by
  constructor
  · intro h
    rcases h with _ | @⟨_, _, r, _, _, h⟩
    cases r with
    | error e => exact absurd h not_raise_reaches_ret
    | ok b =>
      obtain ⟨rfl, rfl⟩ := reaches_ret_ret.mp h
      rfl
  · rintro rfl
    exact .call (.nil _)

/-- A first part that has come somewhere is still followed by the second. -/
theorem Reaches.bind_context {p q : Program C R ε α} {f : α → Program C R ε β}
    {calls : List ((c : C) × Except ε (R c))} (h : p.Reaches calls q) :
    (p.bind f).Reaches calls (q.bind f) := by
  induction h with
  | nil p => exact .nil _
  | call _ ih => exact .call ih

/-- What the first part returns, the second goes on with. -/
theorem Reaches.bind_append {p : Program C R ε α} {f : α → Program C R ε β} {a : α}
    {first rest : List ((c : C) × Except ε (R c))} {q : Program C R ε β}
    (h : p.Reaches first (ret a)) (hf : (f a).Reaches rest q) :
    (p.bind f).Reaches (first ++ rest) q := by
  generalize hp : ret a = reached at h
  induction h with
  | nil p =>
    subst hp
    exact hf
  | call _ ih => exact .call (ih hp)

theorem reaches_bind_ret {p : Program C R ε α} {f : α → Program C R ε β} {b : β}
    {calls : List ((c : C) × Except ε (R c))} :
    (p.bind f).Reaches calls (ret b) ↔ ∃ a first rest, calls = first ++ rest ∧
      p.Reaches first (ret a) ∧ (f a).Reaches rest (ret b) := by
  constructor
  · intro h
    rcases h.bind_cases with ⟨p', hp', hb⟩ | h
    · cases p' with
      | ret a => exact ⟨a, calls, [], (List.append_nil calls).symm, hp', hb ▸ .nil _⟩
      | raise e => cases hb
      | call c k => cases hb
    · exact h
  · rintro ⟨a, first, rest, rfl, hp, hf⟩
    exact hp.bind_append hf

/-- What is left of a program issues no other commands than the whole. -/
theorem Issues.reached {kind : C → Prop} {p q : Program C R ε α}
    {calls : List ((c : C) × Except ε (R c))} (hp : Issues kind p) (h : p.Reaches calls q) :
    Issues kind q := by
  induction h with
  | nil p => exact hp
  | call _ ih =>
    obtain ⟨-, hk⟩ := hp
    obtain ⟨_, -, hmeets⟩ := hk _ trivial
    exact ih hmeets

/-- **A command of another kind** comes after the first part. -/
theorem Issues.reaches_bind_call {kind : C → Prop} {p : Program C R ε α}
    {f : α → Program C R ε β} {c : C} {k : Except ε (R c) → Program C R ε β}
    {calls : List ((c : C) × Except ε (R c))} (hp : Issues kind p) (hc : ¬ kind c) :
    (p.bind f).Reaches calls (call c k) ↔ ∃ a first rest, calls = first ++ rest ∧
      p.Reaches first (.ret a) ∧ (f a).Reaches rest (call c k) := by
  constructor
  · intro h
    rcases h.bind_cases with ⟨p', hp', hb⟩ | h
    · cases p' with
      | ret a => exact ⟨a, calls, [], (List.append_nil calls).symm, hp', hb ▸ .nil _⟩
      | raise e => cases hb
      | call c' k' =>
        -- the first part would issue `c` itself
        cases hb
        exact absurd (hp.reached hp').1 hc
    · exact h
  · rintro ⟨a, first, rest, rfl, hp, hf⟩
    exact hp.bind_append hf

end Program

end Concurrency
