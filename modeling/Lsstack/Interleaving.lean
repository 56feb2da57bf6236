/-
Interleaved runs of programs over a shared world.

A `Machine` gives each request a program and says what a command of process `i`
does to the shared world under an environment choice.  A configuration holds
the world and every process, with the calls it has made so far; a `Run` is an
infinite sequence of configurations, each reached from the one before by one
step of one process, the arrival of a request, the crash of a process, or
nothing at all (so finite runs are runs).

* `Run.induction` — what one step preserves holds all along a run;
* `Run.monotone` — a step-wise relation that is reflexive and transitive relates
  any two states of a run;
* `Sound.run` — programs that meet a protocol keep an invariant of the world
  and the ghost states, when each allowed command keeps it;
* `RelyGuarantee.run` — the same for an invariant of the world and one stable
  assertion about each process;
* `Machine.trace` — the run that follows a list of labels.
-/
import Lsstack.Program

namespace Concurrency

/-- A process: its request, the calls it has made (newest first) and the rest
of its program, `none` once it has crashed. -/
structure Process (C : Type) (R : C → Type) (ε Q A : Type) where
  request : Q
  calls : List ((c : C) × Except ε (R c))
  rest : Option (Program C R ε A)

/-- The shared world and the processes that have arrived. -/
structure Config (C : Type) (R : C → Type) (ε Q A W : Type) where
  world : W
  procs : ℕ → Option (Process C R ε Q A)

/-- One step of the scheduler: a request arrives, a process performs its next
command under an environment choice, or a process dies. -/
inductive Label (Q X : Type) where
  | start (i : ℕ) (q : Q)
  | act (i : ℕ) (x : X)
  | crash (i : ℕ)

/-- The request of an arrival. -/
def Label.arrival {Q X : Type} : Label Q X → Option Q
  | .start _ q => some q
  | _ => none

/-- What the processes run (`code`), what a command does (`exec`, undefined
while it must wait) and what the death of a process does (`abort`). -/
structure Machine (C : Type) (R : C → Type) (ε Q A W X : Type) where
  code : Q → Program C R ε A
  exec : W → ℕ → (c : C) → X → Option (Except ε (R c) × W)
  abort : W → ℕ → W

variable {C : Type} {R : C → Type} {ε Q A W X Γ : Type}

namespace Config

/-- The process `i` becomes `p`, the world becomes `w`. -/
def set (cfg : Config C R ε Q A W) (i : ℕ) (p : Process C R ε Q A) (w : W) :
    Config C R ε Q A W :=
  { world := w, procs := Function.update cfg.procs i (some p) }

@[simp] theorem set_world (cfg : Config C R ε Q A W) (i : ℕ) (p : Process C R ε Q A) (w : W) :
    (cfg.set i p w).world = w := rfl

@[simp] theorem set_procs_self (cfg : Config C R ε Q A W) (i : ℕ)
    (p : Process C R ε Q A) (w : W) : (cfg.set i p w).procs i = some p := by
  simp [set]

theorem set_procs_of_ne (cfg : Config C R ε Q A W) {i j : ℕ} (h : j ≠ i)
    (p : Process C R ε Q A) (w : W) : (cfg.set i p w).procs j = cfg.procs j := by
  simp [set, h]

end Config

namespace Machine

variable (M : Machine C R ε Q A W X)

/-- The configuration after a label, if the label is possible. -/
def step (cfg : Config C R ε Q A W) : Label Q X → Option (Config C R ε Q A W)
  | .start i q =>
    match cfg.procs i with
    | none => some (cfg.set i ⟨q, [], some (M.code q)⟩ cfg.world)
    | some _ => none
  | .act i x =>
    match cfg.procs i with
    | some ⟨q, calls, some (.call c k)⟩ =>
      (M.exec cfg.world i c x).map fun rw =>
        cfg.set i ⟨q, ⟨c, rw.1⟩ :: calls, some (k rw.1)⟩ rw.2
    | _ => none
  | .crash i =>
    match cfg.procs i with
    | some ⟨q, calls, some (.call _ _)⟩ =>
      some (cfg.set i ⟨q, calls, none⟩ (M.abort cfg.world i))
    | _ => none

/-- One step, seen as a relation.  `allowed` says which requests may arrive in
which configuration. -/
inductive Step (allowed : Config C R ε Q A W → Q → Prop) :
    Config C R ε Q A W → Config C R ε Q A W → Prop
  | start {cfg : Config C R ε Q A W} {i : ℕ} {q : Q} (free : cfg.procs i = none)
      (may : allowed cfg q) :
      Step allowed cfg (cfg.set i ⟨q, [], some (M.code q)⟩ cfg.world)
  | act {cfg : Config C R ε Q A W} {i : ℕ} {q : Q}
      {calls : List ((c : C) × Except ε (R c))} {c : C}
      {k : Except ε (R c) → Program C R ε A} {x : X} {r : Except ε (R c)} {w : W}
      (runs : cfg.procs i = some ⟨q, calls, some (.call c k)⟩)
      (does : M.exec cfg.world i c x = some (r, w)) :
      Step allowed cfg (cfg.set i ⟨q, ⟨c, r⟩ :: calls, some (k r)⟩ w)
  | crash {cfg : Config C R ε Q A W} {i : ℕ} {q : Q}
      {calls : List ((c : C) × Except ε (R c))} {c : C}
      {k : Except ε (R c) → Program C R ε A}
      (runs : cfg.procs i = some ⟨q, calls, some (.call c k)⟩) :
      Step allowed cfg (cfg.set i ⟨q, calls, none⟩ (M.abort cfg.world i))

/-- The requests a label lets arrive are allowed. -/
def Admits (allowed : Config C R ε Q A W → Q → Prop) (cfg : Config C R ε Q A W) :
    Label Q X → Prop
  | .start _ q => allowed cfg q
  | _ => True

theorem step_sound {allowed : Config C R ε Q A W → Q → Prop}
    {cfg cfg' : Config C R ε Q A W} {l : Label Q X} (hl : Admits allowed cfg l)
    (h : M.step cfg l = some cfg') : M.Step allowed cfg cfg' := by
  cases l with
  | start i q =>
    simp only [step] at h
    split at h
    · cases h
      exact .start ‹_› hl
    · cases h
  | act i x =>
    simp only [step] at h
    split at h
    · obtain ⟨⟨r, w⟩, he, rfl⟩ := Option.map_eq_some_iff.mp h
      exact .act ‹_› he
    · cases h
  | crash i =>
    simp only [step] at h
    split at h
    · cases h
      exact .crash ‹_›
    · cases h

/-- What a step is: an arrival, a call or a death. -/
theorem Step.cases {M : Machine C R ε Q A W X} {allowed : Config C R ε Q A W → Q → Prop}
    {cfg cfg' : Config C R ε Q A W} (hs : M.Step allowed cfg cfg') :
    (∃ i q, cfg.procs i = none ∧ cfg' = cfg.set i ⟨q, [], some (M.code q)⟩ cfg.world) ∨
    (∃ i q calls c k x r w, cfg.procs i = some ⟨q, calls, some (.call c k)⟩ ∧
      M.exec cfg.world i c x = some (r, w) ∧
      cfg' = cfg.set i ⟨q, ⟨c, r⟩ :: calls, some (k r)⟩ w) ∨
    ∃ i q calls c k, cfg.procs i = some ⟨q, calls, some (.call c k)⟩ ∧
      cfg' = cfg.set i ⟨q, calls, none⟩ (M.abort cfg.world i) := by
  cases hs with
  | start free may => exact .inl ⟨_, _, free, rfl⟩
  | act runs does => exact .inr (.inl ⟨_, _, _, _, _, _, _, _, runs, does, rfl⟩)
  | crash runs => exact .inr (.inr ⟨_, _, _, _, _, runs, rfl⟩)

/-- A process keeps its request and the calls it has made. -/
theorem Step.proc {M : Machine C R ε Q A W X} {allowed : Config C R ε Q A W → Q → Prop}
    {cfg cfg' : Config C R ε Q A W} (hs : M.Step allowed cfg cfg') {j : ℕ}
    {p : Process C R ε Q A} (hp : cfg.procs j = some p) :
    ∃ p', cfg'.procs j = some p' ∧ p'.request = p.request ∧ p.calls ⊆ p'.calls := by
  have hset : ∀ {i p' w}, (cfg.procs i = none ∨ ∃ q, cfg.procs i = some q ∧
      p'.request = q.request ∧ q.calls ⊆ p'.calls) →
      ∃ p'', (cfg.set i p' w).procs j = some p'' ∧ p''.request = p.request ∧
        p.calls ⊆ p''.calls := by
    intro i p' w hi
    by_cases hj : j = i
    · subst hj
      obtain hi | ⟨q, hq, hkeeps⟩ := hi
      · rw [hi] at hp
        cases hp
      · obtain rfl := Option.some_inj.mp (hp.symm.trans hq)
        exact ⟨p', Config.set_procs_self _ _ _ _, hkeeps⟩
    · exact ⟨p, (Config.set_procs_of_ne _ hj _ _).trans hp, rfl, List.Subset.refl _⟩
  cases hs with
  | start free may => exact hset (.inl free)
  | act runs does => exact hset (.inr ⟨_, runs, rfl, List.subset_cons_self _ _⟩)
  | crash runs => exact hset (.inr ⟨_, runs, rfl, List.Subset.refl _⟩)

/-- A process has just arrived, or was there before and has made at most one call. -/
theorem Step.calls {M : Machine C R ε Q A W X} {allowed : Config C R ε Q A W → Q → Prop}
    {cfg cfg' : Config C R ε Q A W} (hs : M.Step allowed cfg cfg') {j : ℕ}
    {p' : Process C R ε Q A} (hp' : cfg'.procs j = some p') :
    p'.calls = [] ∨ ∃ p, cfg.procs j = some p ∧ p'.request = p.request ∧
      (p'.calls = p.calls ∨ ∃ c r, p'.calls = ⟨c, r⟩ :: p.calls) := by
  have hset : ∀ {i q w}, (cfg.set i q w).procs j = some p' →
      (q.calls = [] ∨ ∃ p, cfg.procs i = some p ∧ q.request = p.request ∧
        (q.calls = p.calls ∨ ∃ c r, q.calls = ⟨c, r⟩ :: p.calls)) →
      p'.calls = [] ∨ ∃ p, cfg.procs j = some p ∧ p'.request = p.request ∧
        (p'.calls = p.calls ∨ ∃ c r, p'.calls = ⟨c, r⟩ :: p.calls) := by
    intro i q w hq hi
    by_cases hj : j = i
    · subst hj
      obtain rfl := Option.some_inj.mp ((Config.set_procs_self _ _ _ _).symm.trans hq)
      exact hi
    · rw [Config.set_procs_of_ne _ hj] at hq
      exact .inr ⟨p', hq, rfl, .inl rfl⟩
  cases hs with
  | start free may => exact hset hp' (.inl rfl)
  | act runs does => exact hset hp' (.inr ⟨_, runs, rfl, .inr ⟨_, _, rfl⟩⟩)
  | crash runs => exact hset hp' (.inr ⟨_, runs, rfl, .inl rfl⟩)

/-- A process that has just arrived runs a request that was allowed. -/
theorem Step.arrived {M : Machine C R ε Q A W X} {allowed : Config C R ε Q A W → Q → Prop}
    {cfg cfg' : Config C R ε Q A W} (hs : M.Step allowed cfg cfg') {j : ℕ}
    {p : Process C R ε Q A} (hfree : cfg.procs j = none) (hp : cfg'.procs j = some p) :
    allowed cfg p.request := by
  have hother : ∀ {i q p' w}, cfg.procs i = some q → (cfg.set i p' w).procs j = some p → False := by
    intro i q p' w hi hj
    have hne : j ≠ i := by
      rintro rfl
      cases hfree.symm.trans hi
    rw [Config.set_procs_of_ne _ hne, hfree] at hj
    cases hj
  cases hs with
  | @start i q free may =>
    by_cases hj : j = i
    · subst hj
      obtain rfl := Option.some_inj.mp ((Config.set_procs_self _ _ _ _).symm.trans hp)
      exact may
    · rw [Config.set_procs_of_ne _ hj, hfree] at hp
      cases hp
  | act runs does => exact (hother runs hp).elim
  | crash runs => exact (hother runs hp).elim

/-- A process that has returned stays as it is. -/
theorem Step.finished {M : Machine C R ε Q A W X} {allowed : Config C R ε Q A W → Q → Prop}
    {cfg cfg' : Config C R ε Q A W} (hs : M.Step allowed cfg cfg') {j : ℕ}
    {p : Process C R ε Q A} {a : A} (hp : cfg.procs j = some p) (ha : p.rest = some (.ret a)) :
    cfg'.procs j = some p := by
  have hother : ∀ {i p' w}, (cfg.procs i = none ∨ ∃ q calls c k, cfg.procs i =
      some ⟨q, calls, some (.call c k)⟩) → (cfg.set i p' w).procs j = some p := by
    intro i p' w hi
    have hj : j ≠ i := by
      rintro rfl
      obtain hi | ⟨q, calls, c, k, hi⟩ := hi
      · cases hi.symm.trans hp
      · obtain rfl := Option.some_inj.mp (hi.symm.trans hp)
        cases ha
    exact (Config.set_procs_of_ne _ hj _ _).trans hp
  cases hs with
  | start free may => exact hother (.inl free)
  | act runs does => exact hother (.inr ⟨_, _, _, _, runs⟩)
  | crash runs => exact hother (.inr ⟨_, _, _, _, runs⟩)

/-- A call that has been added was the next of the process. -/
theorem Step.called {M : Machine C R ε Q A W X} {allowed : Config C R ε Q A W → Q → Prop}
    {cfg cfg' : Config C R ε Q A W} (hs : M.Step allowed cfg cfg') {i : ℕ}
    {p p' : Process C R ε Q A} {c : C} {r : Except ε (R c)} (hp : cfg.procs i = some p)
    (hp' : cfg'.procs i = some p') (hcalls : p'.calls = ⟨c, r⟩ :: p.calls) :
    ∃ k x, p.rest = some (.call c k) ∧ M.exec cfg.world i c x = some (r, cfg'.world) := by
  -- a step of another process leaves the calls of `i` as they were
  have hset : ∀ {j q w}, (cfg.set j q w).procs i = some p' →
      (j = i → q.calls ≠ ⟨c, r⟩ :: p.calls) → False := by
    intro j q w hq hne
    by_cases hj : i = j
    · subst hj
      obtain rfl := Option.some_inj.mp ((Config.set_procs_self _ _ _ _).symm.trans hq)
      exact hne rfl hcalls
    · rw [Config.set_procs_of_ne _ hj] at hq
      obtain rfl := Option.some_inj.mp (hp.symm.trans hq)
      exact List.cons_ne_self _ _ hcalls.symm
  cases hs with
  | start free may => exact (hset hp' fun _ => nofun).elim
  -- process `i` has taken the step, so the call is its own
  | @act j q calls c' k x r' w runs does =>
    by_cases hj : j = i
    · subst hj
      obtain rfl := Option.some_inj.mp (hp.symm.trans runs)
      obtain rfl := Option.some_inj.mp ((Config.set_procs_self _ _ _ _).symm.trans hp')
      cases hcalls
      exact ⟨k, x, rfl, does⟩
    · exact (hset hp' fun h => absurd h hj).elim
  | @crash j q calls c' k runs =>
    refine (hset hp' fun hj hcalls' => ?_).elim
    subst hj
    obtain rfl := Option.some_inj.mp (hp.symm.trans runs)
    exact List.cons_ne_self _ _ hcalls'.symm

end Machine

/-- An infinite run; a state may repeat, so every finite run extends to one. -/
structure Run (M : Machine C R ε Q A W X) (allowed : Config C R ε Q A W → Q → Prop) where
  state : ℕ → Config C R ε Q A W
  empty : ∀ i, (state 0).procs i = none
  next : ∀ n, state (n + 1) = state n ∨ M.Step allowed (state n) (state (n + 1))

namespace Run

variable {M : Machine C R ε Q A W X} {allowed : Config C R ε Q A W → Q → Prop}

/-- What every step of the run preserves holds all along it. -/
theorem induction (run : Run M allowed) {P : Config C R ε Q A W → Prop}
    (init : P (run.state 0))
    (step : ∀ n, M.Step allowed (run.state n) (run.state (n + 1)) →
      P (run.state n) → P (run.state (n + 1))) (n : ℕ) : P (run.state n) := by
  induction n with
  | zero => exact init
  | succ n ih =>
    rcases run.next n with h | h
    · rwa [h]
    · exact step n h ih

/-- A reflexive and transitive relation kept by each step relates any two
states of the run. -/
theorem monotone (run : Run M allowed)
    (rel : Config C R ε Q A W → Config C R ε Q A W → Prop) (refl : ∀ cfg, rel cfg cfg)
    (trans : ∀ {a b c}, rel a b → rel b c → rel a c)
    (step : ∀ n, M.Step allowed (run.state n) (run.state (n + 1)) →
      rel (run.state n) (run.state (n + 1))) {m n : ℕ} (hmn : m ≤ n) :
    rel (run.state m) (run.state n) := by
  induction n, hmn using Nat.le_induction with
  | base => exact refl _
  | succ n _ ih =>
    refine trans ih ?_
    rcases run.next n with h | h
    · rw [h]
      exact refl _
    · exact step n h

/-- Processes stay, with their requests and calls. -/
theorem proc (run : Run M allowed) {m n : ℕ} (hmn : m ≤ n) {i : ℕ} {p : Process C R ε Q A}
    (hp : (run.state m).procs i = some p) :
    ∃ p', (run.state n).procs i = some p' ∧ p'.request = p.request ∧ p.calls ⊆ p'.calls := by
  induction n, hmn using Nat.le_induction with
  | base => exact ⟨p, hp, rfl, List.Subset.refl _⟩
  | succ n _ ih =>
    obtain ⟨p₁, hp₁, hreq₁, hcalls₁⟩ := ih
    rcases run.next n with hn | hn
    · rw [hn]
      exact ⟨p₁, hp₁, hreq₁, hcalls₁⟩
    · obtain ⟨p₂, hp₂, hreq₂, hcalls₂⟩ := hn.proc hp₁
      exact ⟨p₂, hp₂, hreq₂.trans hreq₁, List.Subset.trans hcalls₁ hcalls₂⟩

/-- Every process runs an allowed request. -/
theorem admitted {allowed : Q → Prop} (run : Run M fun _ q => allowed q) (n : ℕ) {i : ℕ}
    {p : Process C R ε Q A} (hp : (run.state n).procs i = some p) : allowed p.request := by
  induction n generalizing i p with
  | zero =>
    rw [run.empty] at hp
    cases hp
  | succ n ih =>
    have hset : ∀ {j p' w}, run.state (n + 1) = (run.state n).set j p' w →
        allowed p'.request → allowed p.request := by
      intro j p' w hn hp'
      rw [hn] at hp
      by_cases hi : i = j
      · subst hi
        rw [Config.set_procs_self, Option.some_inj] at hp
        rwa [← hp]
      · rw [Config.set_procs_of_ne _ hi] at hp
        exact ih hp
    rcases run.next n with hn | hn
    · rw [hn] at hp
      exact ih hp
    · generalize hcfg : run.state (n + 1) = cfg' at hn
      cases hn with
      | start free may => exact hset hcfg may
      | @act i q calls c k x r w runs does =>
        have hq : allowed q := ih runs
        exact hset hcfg hq
      | @crash i q calls c k runs =>
        have hq : allowed q := ih runs
        exact hset hcfg hq

/-- Every call a process has made was made in some step. -/
theorem called (run : Run M allowed) (n : ℕ) {i : ℕ} {p : Process C R ε Q A} {c : C}
    {r : Except ε (R c)} (hp : (run.state n).procs i = some p)
    (hmem : (⟨c, r⟩ : (c : C) × Except ε (R c)) ∈ p.calls) :
    ∃ m p₁ p₂, m < n ∧ (run.state m).procs i = some p₁ ∧ (run.state (m + 1)).procs i = some p₂ ∧
      p₂.calls = ⟨c, r⟩ :: p₁.calls ∧ p₁.request = p.request := by
  induction n generalizing p with
  | zero =>
    rw [run.empty] at hp
    cases hp
  | succ n ih =>
    have hold : ∀ p₀, (run.state n).procs i = some p₀ → p.request = p₀.request →
        (⟨c, r⟩ : (c : C) × Except ε (R c)) ∈ p₀.calls →
        ∃ m p₁ p₂, m < n + 1 ∧ (run.state m).procs i = some p₁ ∧
          (run.state (m + 1)).procs i = some p₂ ∧ p₂.calls = ⟨c, r⟩ :: p₁.calls ∧
          p₁.request = p.request := by
      intro p₀ hp₀ hreq hmem₀
      obtain ⟨m, p₁, p₂, hm, hp₁, hp₂, hcalls, hreq₁⟩ := ih hp₀ hmem₀
      exact ⟨m, p₁, p₂, Nat.lt_succ_of_lt hm, hp₁, hp₂, hcalls, hreq₁.trans hreq.symm⟩
    rcases run.next n with hn | hn
    · rw [hn] at hp
      exact hold p hp rfl hmem
    obtain hnil | ⟨p₀, hp₀, hreq, hcalls | ⟨c', r', hcalls⟩⟩ := hn.calls hp
    · rw [hnil] at hmem
      cases hmem
    · exact hold p₀ hp₀ hreq (hcalls ▸ hmem)
    · rw [hcalls] at hmem
      obtain heq | hmem := List.mem_cons.mp hmem
      · exact ⟨n, p₀, p, n.lt_succ_self, hp₀, hp, heq ▸ hcalls, hreq.symm⟩
      · exact hold p₀ hp₀ hreq hmem

end Run

namespace Machine

variable (M : Machine C R ε Q A W X)

/-- Follow one label, staying put where it is not possible. -/
def follow (cfg : Config C R ε Q A W) (l : Label Q X) : Config C R ε Q A W :=
  (M.step cfg l).getD cfg

/-- The state after the first `n` labels of a list. -/
def trace (cfg : Config C R ε Q A W) (ls : List (Label Q X)) (n : ℕ) :
    Config C R ε Q A W :=
  (ls.take n).foldl M.follow cfg

theorem trace_still (cfg : Config C R ε Q A W) {ls : List (Label Q X)} {n : ℕ}
    (h : ls.length ≤ n) : M.trace cfg ls (n + 1) = M.trace cfg ls n := by
  simp [trace, List.take_of_length_le h, List.take_of_length_le (Nat.le_succ_of_le h)]

theorem trace_end (cfg : Config C R ε Q A W) {ls : List (Label Q X)} {n : ℕ}
    (h : ls.length ≤ n) : M.trace cfg ls n = M.trace cfg ls ls.length := by
  rw [trace, trace, List.take_of_length_le h, List.take_length]

/-- What each label of a list preserves holds along its trace. -/
theorem trace_induction {P : Config C R ε Q A W → Prop} {cfg : Config C R ε Q A W}
    {ls : List (Label Q X)} (init : P cfg)
    (step : ∀ l ∈ ls, ∀ cfg cfg', M.step cfg l = some cfg' → P cfg → P cfg') (n : ℕ) :
    P (M.trace cfg ls n) := by
  induction n with
  | zero => exact init
  | succ n ih =>
    rcases hn : ls[n]? with _ | l
    · rw [M.trace_still cfg (List.getElem?_eq_none_iff.mp hn)]
      exact ih
    · rw [show M.trace cfg ls (n + 1) = M.follow (M.trace cfg ls n) l by
        simp [trace, List.take_add_one, hn]]
      rcases hs : M.step (M.trace cfg ls n) l with _ | cfg'
      · rw [follow, hs]
        exact ih
      · rw [follow, hs]
        exact step l (List.mem_of_getElem? hn) _ _ hs ih

/-- The run that follows a list of labels and then stands still. -/
def traceRun (allowed : Config C R ε Q A W → Q → Prop) (w : W) (ls : List (Label Q X))
    (hall : ∀ n i q, ls[n]? = some (.start i q) → allowed (M.trace ⟨w, fun _ => none⟩ ls n) q) :
    Run M allowed where
  state := M.trace ⟨w, fun _ => none⟩ ls
  empty := fun i => by simp [trace]
  next := fun n => by
    rcases hn : ls[n]? with _ | l
    · exact .inl (M.trace_still _ (List.getElem?_eq_none_iff.mp hn))
    · rw [show M.trace ⟨w, fun _ => none⟩ ls (n + 1)
        = M.follow (M.trace ⟨w, fun _ => none⟩ ls n) l by
          simp [trace, List.take_add_one, hn]]
      rcases hs : M.step (M.trace ⟨w, fun _ => none⟩ ls n) l with _ | cfg'
      · left
        simp [follow, hs]
      · right
        rw [follow, hs]
        refine M.step_sound ?_ hs
        cases l with
        | start i q => exact hall n i q hn
        | act i x => trivial
        | crash i => trivial

variable {M}

/-- A run along a list of labels stands still after them. -/
theorem still_of_trace {allowed : Config C R ε Q A W → Q → Prop} (run : Run M allowed)
    {cfg : Config C R ε Q A W} {ls : List (Label Q X)} (hrun : ∀ n, run.state n = M.trace cfg ls n)
    {n : ℕ} (h : ls.length ≤ n) : run.state (n + 1) = run.state n := by
  rw [hrun, hrun, M.trace_still cfg h]

end Machine

/-! ### Ghost states and invariants -/

/-- A process agrees with its ghost state: what is left of its program meets
the protocol from there. -/
def Process.Agrees (P : Protocol C R ε Γ) (Post : Q → Except ε A → Γ → Prop) (idle : Γ) :
    Option (Process C R ε Q A) → Γ → Prop
  | none, g => g = idle
  | some ⟨q, _, some p⟩, g => p.Meets P g (Post q)
  | some ⟨_, _, none⟩, _ => True

/-- The obligations of an invariant `J` of configurations and ghost states:
arrivals, allowed commands and crashes keep it, on every step that satisfies
`ok`. -/
structure Sound (M : Machine C R ε Q A W X) (allowed : Config C R ε Q A W → Q → Prop)
    (P : Protocol C R ε Γ) (idle : Γ) (Post : Q → Except ε A → Γ → Prop)
    (ok : Config C R ε Q A W → Config C R ε Q A W → Prop)
    (J : Config C R ε Q A W → (ℕ → Γ) → Prop) : Prop where
  start : ∀ {cfg g i q}, J cfg g → cfg.procs i = none → g i = idle → allowed cfg q →
    ∃ g₀, (M.code q).Meets P g₀ (Post q) ∧
      J (cfg.set i ⟨q, [], some (M.code q)⟩ cfg.world) (Function.update g i g₀)
  act : ∀ {cfg g i q calls c k x r w}, J cfg g →
    cfg.procs i = some ⟨q, calls, some (.call c k)⟩ → P.guard (g i) c →
    M.exec cfg.world i c x = some (r, w) →
    ok cfg (cfg.set i ⟨q, ⟨c, r⟩ :: calls, some (k r)⟩ w) →
    P.reply (g i) c r ∧ ∀ g', P.step (g i) c r g' →
      J (cfg.set i ⟨q, ⟨c, r⟩ :: calls, some (k r)⟩ w) (Function.update g i g')
  crash : ∀ {cfg g i q calls c k}, J cfg g →
    cfg.procs i = some ⟨q, calls, some (.call c k)⟩ →
    ∃ g', J (cfg.set i ⟨q, calls, none⟩ (M.abort cfg.world i)) (Function.update g i g')

namespace Sound

variable {M : Machine C R ε Q A W X} {allowed : Config C R ε Q A W → Q → Prop}
  {P : Protocol C R ε Γ} {idle : Γ} {Post : Q → Except ε A → Γ → Prop}
  {ok : Config C R ε Q A W → Config C R ε Q A W → Prop}
  {J : Config C R ε Q A W → (ℕ → Γ) → Prop}

/-- The invariant, with ghost states that every process agrees with. -/
def Holds (P : Protocol C R ε Γ) (idle : Γ) (Post : Q → Except ε A → Γ → Prop)
    (J : Config C R ε Q A W → (ℕ → Γ) → Prop) (cfg : Config C R ε Q A W) : Prop :=
  ∃ g : ℕ → Γ, J cfg g ∧ ∀ i, Process.Agrees P Post idle (cfg.procs i) (g i)

/-- Agreement after the process `i` alone has moved. -/
theorem agrees_update {cfg : Config C R ε Q A W} {g : ℕ → Γ} {i : ℕ} {g' : Γ}
    {p : Process C R ε Q A} {w : W}
    (hall : ∀ j, Process.Agrees P Post idle (cfg.procs j) (g j))
    (hi : Process.Agrees P Post idle (some p) g') (j : ℕ) :
    Process.Agrees P Post idle ((cfg.set i p w).procs j) (Function.update g i g' j) := by
  by_cases hj : j = i
  · subst hj
    simpa using hi
  · rw [Config.set_procs_of_ne _ hj, Function.update_of_ne hj]
    exact hall j

theorem step (S : Sound M allowed P idle Post ok J) {cfg cfg' : Config C R ε Q A W}
    (h : Holds P idle Post J cfg) (hs : M.Step allowed cfg cfg') (hok : ok cfg cfg') :
    Holds P idle Post J cfg' := by
  obtain ⟨g, hJ, hall⟩ := h
  cases hs with
  | @start i q free may =>
    have hidle : g i = idle := by simpa [free, Process.Agrees] using hall i
    obtain ⟨g₀, hm, hJ'⟩ := S.start hJ free hidle may
    exact ⟨_, hJ', agrees_update hall hm⟩
  | @act i q calls c k x r w runs does =>
    have hi : (Program.call c k).Meets P (g i) (Post q) := by
      simpa [runs, Process.Agrees] using hall i
    obtain ⟨hr, hJ'⟩ := S.act hJ runs hi.1 does hok
    obtain ⟨g', hg', hm⟩ := hi.2 r hr
    exact ⟨_, hJ' g' hg', agrees_update hall hm⟩
  | @crash i q calls c k runs =>
    obtain ⟨g', hJ'⟩ := S.crash hJ runs
    exact ⟨_, hJ', agrees_update hall trivial⟩

/-- A sound invariant holds as long as the steps of the run satisfy `ok`. -/
theorem run (S : Sound M allowed P idle Post ok J) (run : Run M allowed)
    (init : J (run.state 0) fun _ => idle) (n : ℕ)
    (hok : ∀ m < n, ok (run.state m) (run.state (m + 1))) :
    Holds P idle Post J (run.state n) := by
  induction n with
  | zero => exact ⟨_, init, fun i => by simp [run.empty i, Process.Agrees]⟩
  | succ n ih =>
    have hn := ih fun m hm => hok m (Nat.lt_succ_of_lt hm)
    rcases run.next n with h | h
    · rwa [h]
    · exact S.step hn h (hok n n.lt_succ_self)

end Sound

/-! ### Rely and guarantee

An invariant of the shared world, and one assertion about each process.  Every
step of process `i` stays within its guarantee `rel i`, and the assertions
about the other processes are stable under it. -/

/-- The obligations of a rely-guarantee argument. -/
structure RelyGuarantee (M : Machine C R ε Q A W X)
    (allowed : Config C R ε Q A W → Q → Prop) (P : Protocol C R ε Γ) (idle : Γ)
    (Post : Q → Except ε A → Γ → Prop)
    (ok : Config C R ε Q A W → Config C R ε Q A W → Prop) (inv : W → Prop)
    (rel : ℕ → W → W → Prop)
    (asserts : W → ℕ → Option (Process C R ε Q A) → Γ → Prop) : Prop where
  start : ∀ {cfg i q}, inv cfg.world → cfg.procs i = none → allowed cfg q →
    asserts cfg.world i none idle →
    ∃ g₀, (M.code q).Meets P g₀ (Post q) ∧
      asserts cfg.world i (some ⟨q, [], some (M.code q)⟩) g₀
  act : ∀ {cfg i q calls c k x r w g}, inv cfg.world →
    cfg.procs i = some ⟨q, calls, some (.call c k)⟩ →
    asserts cfg.world i (some ⟨q, calls, some (.call c k)⟩) g → P.guard g c →
    M.exec cfg.world i c x = some (r, w) →
    ok cfg (cfg.set i ⟨q, ⟨c, r⟩ :: calls, some (k r)⟩ w) →
    P.reply g c r ∧ inv w ∧ rel i cfg.world w ∧ ∀ g', P.step g c r g' →
      asserts w i (some ⟨q, ⟨c, r⟩ :: calls, some (k r)⟩) g'
  crash : ∀ {w i q calls c k g}, inv w → asserts w i (some ⟨q, calls, some (.call c k)⟩) g →
    inv (M.abort w i) ∧ rel i w (M.abort w i) ∧
      ∃ g', asserts (M.abort w i) i (some ⟨q, calls, none⟩) g'
  stable : ∀ {w w' i j p g}, j ≠ i → inv w → rel i w w' → asserts w j p g → asserts w' j p g

namespace RelyGuarantee

variable {M : Machine C R ε Q A W X} {allowed : Config C R ε Q A W → Q → Prop}
  {P : Protocol C R ε Γ} {idle : Γ} {Post : Q → Except ε A → Γ → Prop}
  {ok : Config C R ε Q A W → Config C R ε Q A W → Prop} {inv : W → Prop}
  {rel : ℕ → W → W → Prop}
  {asserts : W → ℕ → Option (Process C R ε Q A) → Γ → Prop}

/-- The invariant of configurations and ghost states. -/
def Invariant (inv : W → Prop) (asserts : W → ℕ → Option (Process C R ε Q A) → Γ → Prop)
    (cfg : Config C R ε Q A W) (g : ℕ → Γ) : Prop :=
  inv cfg.world ∧ ∀ i, asserts cfg.world i (cfg.procs i) (g i)

/-- The assertions after process `i` alone has moved. -/
theorem asserts_set (S : RelyGuarantee M allowed P idle Post ok inv rel asserts)
    {cfg : Config C R ε Q A W} {g : ℕ → Γ} {i : ℕ} {p : Process C R ε Q A} {w : W} {g' : Γ}
    (h : Invariant inv asserts cfg g) (hrel : rel i cfg.world w)
    (hi : asserts w i (some p) g') (j : ℕ) :
    asserts w j ((cfg.set i p w).procs j) (Function.update g i g' j) := by
  by_cases hj : j = i
  · subst hj
    simpa using hi
  · rw [Config.set_procs_of_ne _ hj, Function.update_of_ne hj]
    exact S.stable hj h.1 hrel (h.2 j)

theorem sound (S : RelyGuarantee M allowed P idle Post ok inv rel asserts) :
    Sound M allowed P idle Post ok (Invariant inv asserts) where
  start := by
    intro cfg g i q hJ hfree hidle hq
    have hi := hJ.2 i
    rw [hfree, hidle] at hi
    obtain ⟨g₀, hm, ha⟩ := S.start hJ.1 hfree hq hi
    refine ⟨g₀, hm, hJ.1, fun j => ?_⟩
    by_cases hj : j = i
    · subst hj
      simpa using ha
    · rw [Config.set_procs_of_ne _ hj, Function.update_of_ne hj]
      exact hJ.2 j
  act := by
    intro cfg g i q calls c k x r w hJ hp hg he hok
    have hi := hJ.2 i
    rw [hp] at hi
    obtain ⟨hr, hinv, hrel, ha⟩ := S.act hJ.1 hp hi hg he hok
    exact ⟨hr, fun g' hg' => ⟨hinv, S.asserts_set hJ hrel (ha g' hg')⟩⟩
  crash := by
    intro cfg g i q calls c k hJ hp
    have hi := hJ.2 i
    rw [hp] at hi
    obtain ⟨hinv, hrel, g', ha⟩ := S.crash hJ.1 hi
    exact ⟨g', hinv, S.asserts_set hJ hrel ha⟩

/-- Along a run the invariant holds, with ghost states that fit the processes. -/
theorem run (S : RelyGuarantee M allowed P idle Post ok inv rel asserts)
    (run : Run M allowed) (hinv : inv (run.state 0).world)
    (hidle : ∀ i, asserts (run.state 0).world i none idle) (n : ℕ)
    (hok : ∀ m < n, ok (run.state m) (run.state (m + 1))) :
    Sound.Holds P idle Post (Invariant inv asserts) (run.state n) :=
  S.sound.run run ⟨hinv, fun i => by rw [run.empty i]; exact hidle i⟩ n hok

end RelyGuarantee

end Concurrency
