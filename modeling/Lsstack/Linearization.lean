/-
Operations that take effect at one point.

Where each step of a run lets at most one operation take effect, that of the process which
moves, the operations have an order in which they could have been run one after another.

* `Serial` — operations one after another, each with its result;
* `Run.RealTime` — no operation that ends before another arrives is put behind it;
* **`Run.linearizes`** — from one step to the order of a whole run.
-/
import Lsstack.Interleaving

namespace Concurrency

/-- Operations of processes, one after another, take the state from `s` to the last. -/
inductive Serial {Op Res S : Type} (does : Op → S → Res → S → Prop) (s : S) :
    List (ℕ × Op × Res) → S → Prop
  | nil : Serial does s [] s
  | snoc {order : List (ℕ × Op × Res)} {t t' : S} {i : ℕ} {op : Op} {r : Res}
      (before : Serial does s order t) (last : does op t r t') :
      Serial does s (order ++ [(i, op, r)]) t'

variable {C : Type} {R : C → Type} {ε Q A W X Op Res : Type} {M : Machine C R ε Q A W X}
  {allowed : Config C R ε Q A W → Q → Prop}

/-- Its program has a command left. -/
def Process.Running (p : Process C R ε Q A) : Prop := ∃ c k, p.rest = some (.call c k)

/-- A process whose program has ended stays as it is. -/
theorem Machine.Step.ended {cfg cfg' : Config C R ε Q A W} (hs : M.Step allowed cfg cfg') {j : ℕ}
    {p : Process C R ε Q A} (hp : cfg.procs j = some p) (hended : ¬ p.Running) :
    cfg'.procs j = some p := by
  have hother : ∀ {i p' w}, (∀ q, cfg.procs i = some q → q.Running) →
      (cfg.set i p' w).procs j = some p := by
    intro i p' w hi
    have hj : j ≠ i := by
      rintro rfl
      exact hended (hi p hp)
    exact (Config.set_procs_of_ne _ hj _ _).trans hp
  have hruns : ∀ {i q calls c k}, cfg.procs i = some ⟨q, calls, some (.call c k)⟩ →
      ∀ q', cfg.procs i = some q' → q'.Running := by
    intro i q calls c k hi q' hq'
    obtain rfl := Option.some_inj.mp (hi.symm.trans hq')
    exact ⟨c, k, rfl⟩
  cases hs with
  | start free may =>
    refine hother fun q hq => ?_
    cases free.symm.trans hq
  | act runs does => exact hother (hruns runs)
  | crash runs => exact hother (hruns runs)

namespace Run

variable (run : Run M allowed)

/-- The process has arrived. -/
def Arrived (i n : ℕ) : Prop := (run.state n).procs i ≠ none

/-- The program of the process has ended. -/
def Ended (i n : ℕ) : Prop := ∃ p, (run.state n).procs i = some p ∧ ¬ p.Running

/-- Whenever `j` has ended, `i` has arrived: `j` has not ended before `i` arrived. -/
def RealTime (i j : ℕ) : Prop := ∀ n, run.Ended j n → run.Arrived i n

variable {run}

theorem Arrived.mono {i m n : ℕ} (h : run.Arrived i m) (hmn : m ≤ n) : run.Arrived i n := by
  obtain ⟨p, hp⟩ := Option.ne_none_iff_exists'.mp h
  obtain ⟨p', hp', -⟩ := run.proc hmn hp
  rw [Arrived, hp']
  exact Option.some_ne_none p'

theorem Ended.mono {i m n : ℕ} (h : run.Ended i m) (hmn : m ≤ n) : run.Ended i n := by
  obtain ⟨p, hp, hended⟩ := h
  refine ⟨p, ?_, hended⟩
  induction n, hmn using Nat.le_induction with
  | base => exact hp
  | succ n _ ih =>
    rcases run.next n with hn | hn
    · rw [hn]
      exact ih
    · exact hn.ended ih hended

/-- A process that runs has not ended before. -/
theorem not_ended {i n : ℕ} {p : Process C R ε Q A} (hp : (run.state n).procs i = some p)
    (hruns : p.Running) {m : ℕ} (hmn : m ≤ n) : ¬ run.Ended i m := by
  intro hended
  obtain ⟨p', hp', hended'⟩ := hended.mono hmn
  obtain rfl := Option.some_inj.mp (hp.symm.trans hp')
  exact hended' hruns

/-- **One order for a whole run.**  `J` ties a configuration to the operations that have taken
effect so far; each step adds at most one, of a process that runs. -/
theorem linearizes {J : Config C R ε Q A W → List (ℕ × Op × Res) → Prop}
    (init : J (run.state 0) [])
    (arrived : ∀ cfg order, J cfg order → ∀ entry ∈ order, cfg.procs entry.1 ≠ none)
    (step : ∀ n order, M.Step allowed (run.state n) (run.state (n + 1)) → J (run.state n) order →
      J (run.state (n + 1)) order ∨ ∃ i op r p, (run.state n).procs i = some p ∧ p.Running ∧
        J (run.state (n + 1)) (order ++ [(i, op, r)]))
    (n : ℕ) :
    ∃ order, J (run.state n) order ∧ order.Pairwise fun a b => run.RealTime a.1 b.1 := by
  induction n with
  | zero => exact ⟨[], init, List.Pairwise.nil⟩
  | succ n ih =>
    obtain ⟨order, hJ, hpairwise⟩ := ih
    rcases run.next n with hn | hn
    · exact ⟨order, hn ▸ hJ, hpairwise⟩
    obtain hsame | ⟨i, op, r, p, hp, hruns, hnew⟩ := step n order hn hJ
    · exact ⟨order, hsame, hpairwise⟩
    refine ⟨_, hnew, List.pairwise_append.mpr ⟨hpairwise, List.pairwise_singleton _ _, ?_⟩⟩
    intro entry hentry last hlast
    obtain rfl := List.mem_singleton.mp hlast
    intro m hended
    -- the new operation has not ended yet, and the others have arrived
    have hlt : n < m := not_le.mp fun hmn => not_ended hp hruns hmn hended
    exact Arrived.mono (m := n) (arrived _ _ hJ entry hentry) hlt.le

end Run

end Concurrency
