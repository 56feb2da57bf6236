/-
One session amid others.

A run of a program records what each of its statements met and left (`Event`); between two
statements the others may change the world as `between` allows.

* `Program.Runs` — a program run amid others, with its rules for sequencing and exception
  handling, read backwards (`Runs.bind_cases`, `Runs.handle_cases`, `Runs.perform_cases`);
* `Interferes` — what other sessions may do to the rows a session has not locked;
* `Quiet`, `Writes` — what a stretch of a run does to the committed rows;
* **`Acts.update_cases`**, **`Acts.commit_cases`** — a locked write and its commit;
* `World.Owns`, `Acts.tryLock_cases`, `Acts.update_owned`, `Acts.commit_owned` — the same for any
  number of locks;
* `Program.Strict` — programs that raise wherever a statement does.
-/
import Lsstack.Sequential

namespace Concurrency

/-! ### Runs -/

/-- One statement within a run. -/
structure Event (W C : Type) (R : C → Type) (ε : Type) where
  before : W
  command : C
  reply : Except ε (R command)
  after : W

namespace Program

variable {W C : Type} {R : C → Type} {ε α β : Type}

/-- The program, run from the world `w`, ends with a result in the world `w'`; the others
act between its statements. -/
inductive Runs (between : W → W → Prop) (step : W → (c : C) → Except ε (R c) → W → Prop) :
    Program C R ε α → W → List (Event W C R ε) → Except ε α → W → Prop
  | ret (a : α) (w : W) : Runs between step (.ret a) w [] (.ok a) w
  | raise (e : ε) (w : W) : Runs between step (.raise e) w [] (.error e) w
  | call {c : C} {k : Except ε (R c) → Program C R ε α} {w w₁ w₂ w' : W} {r : Except ε (R c)}
      {events : List (Event W C R ε)} {a : Except ε α} (waits : between w w₁)
      (does : step w₁ c r w₂) (rest : Runs between step (k r) w₂ events a w') :
      Runs between step (.call c k) w (⟨w₁, c, r, w₂⟩ :: events) a w'

namespace Runs

variable {between : W → W → Prop} {step : W → (c : C) → Except ε (R c) → W → Prop} {w w' : W}
  {events : List (Event W C R ε)}

theorem ret_cases {b : α} {a : Except ε α} (h : Runs between step (.ret b) w events a w') :
    events = [] ∧ a = .ok b ∧ w' = w := by
  cases h
  exact ⟨rfl, rfl, rfl⟩

theorem raise_cases {e : ε} {a : Except ε α} (h : Runs between step (.raise e) w events a w') :
    events = [] ∧ a = .error e ∧ w' = w := by
  cases h
  exact ⟨rfl, rfl, rfl⟩

/-- The first part has raised, or the second part has run after it. -/
theorem bind_cases {p : Program C R ε α} {f : α → Program C R ε β} {a : Except ε β}
    (h : Runs between step (p.bind f) w events a w') :
    (∃ v e₁ e₂ w₁, events = e₁ ++ e₂ ∧ Runs between step p w e₁ (.ok v) w₁ ∧
      Runs between step (f v) w₁ e₂ a w') ∨
    ∃ e, a = .error e ∧ Runs between step p w events (.error e) w' := by
  induction p generalizing w events with
  | ret v => exact .inl ⟨v, [], events, w, rfl, .ret v w, h⟩
  | raise e =>
    obtain ⟨rfl, rfl, rfl⟩ := h.raise_cases
    exact .inr ⟨e, rfl, .raise e _⟩
  | call c k ih =>
    rw [bind] at h
    cases h with
    | call waits does rest =>
      obtain ⟨v, e₁, e₂, w₁, rfl, hfirst, hsecond⟩ | ⟨e, rfl, hraised⟩ := ih _ rest
      · exact .inl ⟨v, _, e₂, w₁, rfl, .call waits does hfirst, hsecond⟩
      · exact .inr ⟨e, rfl, .call waits does hraised⟩

/-- Both parts of a sequence that returns have returned. -/
theorem bind_ok {p : Program C R ε α} {f : α → Program C R ε β} {b : β}
    (h : Runs between step (p.bind f) w events (.ok b) w') :
    ∃ v e₁ e₂ w₁, events = e₁ ++ e₂ ∧ Runs between step p w e₁ (.ok v) w₁ ∧
      Runs between step (f v) w₁ e₂ (.ok b) w' := by
  obtain h | ⟨e, he, -⟩ := h.bind_cases
  · exact h
  · cases he

/-- The guarded part has returned, or the handler has run after it. -/
theorem handle_cases {p : Program C R ε α} {f : ε → Program C R ε α} {a : Except ε α}
    (h : Runs between step (p.handle f) w events a w') :
    (∃ v, a = .ok v ∧ Runs between step p w events (.ok v) w') ∨
    ∃ e e₁ e₂ w₁, events = e₁ ++ e₂ ∧ Runs between step p w e₁ (.error e) w₁ ∧
      Runs between step (f e) w₁ e₂ a w' := by
  induction p generalizing w events with
  | ret v =>
    obtain ⟨rfl, rfl, rfl⟩ := ret_cases h
    exact .inl ⟨v, rfl, .ret v _⟩
  | raise e => exact .inr ⟨e, [], events, w, rfl, .raise e w, h⟩
  | call c k ih =>
    rw [handle] at h
    cases h with
    | call waits does rest =>
      obtain ⟨v, rfl, hreturned⟩ | ⟨e, e₁, e₂, w₁, rfl, hraised, hhandled⟩ := ih _ rest
      · exact .inl ⟨v, rfl, .call waits does hreturned⟩
      · exact .inr ⟨e, _, e₂, w₁, rfl, .call waits does hraised, hhandled⟩

/-- One statement. -/
theorem perform_cases {c : C} {a : Except ε (R c)}
    (h : Runs between step (perform c) w events a w') :
    ∃ w₁, events = [⟨w₁, c, a, w'⟩] ∧ between w w₁ ∧ step w₁ c a w' := by
  rw [perform] at h
  cases h with
  | @call _ _ _ w₁ w₂ _ r events _ waits does rest =>
    cases r with
    | ok v =>
      obtain ⟨rfl, rfl, rfl⟩ := ret_cases rest
      exact ⟨w₁, rfl, waits, does⟩
    | error e =>
      obtain ⟨rfl, rfl, rfl⟩ := raise_cases rest
      exact ⟨w₁, rfl, waits, does⟩

end Runs

/-- A run alone is one amid others that do nothing. -/
theorem Performs.runs {between : W → W → Prop}
    {step : W → (c : C) → Except ε (R c) → W → Prop} {p : Program C R ε α} {a : Except ε α}
    {w w' : W} (h : Performs step p w a w') (hbetween : ∀ w, between w w) :
    ∃ events, Runs between step p w events a w' := by
  induction h with
  | ret a w => exact ⟨[], .ret a w⟩
  | raise e w => exact ⟨[], .raise e w⟩
  | call does rest ih =>
    obtain ⟨events, hrun⟩ := ih
    exact ⟨_, .call (hbetween _) does hrun⟩

/-- And the other way round. -/
theorem Runs.performs_alone {step : W → (c : C) → Except ε (R c) → W → Prop}
    {p : Program C R ε α} {a : Except ε α} {w w' : W} {events : List (Event W C R ε)}
    (h : Runs (fun w w' => w' = w) step p w events a w') : Performs step p w a w' := by
  induction h with
  | ret a w => exact .ret a w
  | raise e w => exact .raise e w
  | call waits does rest ih =>
    subst waits
    exact .call does ih

/-! Programs that stop where a command fails. -/

/-- A program that issues commands of the kind `kind` only, and raises wherever one does. -/
def Strict (kind : C → Prop) : Program C R ε α → Prop
  | .ret _ => True
  | .raise _ => True
  | .call c k => kind c ∧ (∀ e, ∃ e', k (.error e) = .raise e') ∧ ∀ v, Strict kind (k (.ok v))

section

variable {kind : C → Prop}

theorem strict_perform {c : C} (h : kind c) : Strict kind (perform c : Program C R ε (R c)) :=
  ⟨h, fun e => ⟨e, rfl⟩, fun _ => trivial⟩

theorem Strict.bind {p : Program C R ε α} {f : α → Program C R ε β} (h : Strict kind p)
    (hf : ∀ a, Strict kind (f a)) : Strict kind (p.bind f) := by
  induction p with
  | ret a => exact hf a
  | raise e => trivial
  | call c k ih =>
    obtain ⟨hc, herror, hok⟩ := h
    refine ⟨hc, fun e => ?_, fun v => ih _ (hok v)⟩
    obtain ⟨e', he'⟩ := herror e
    exact ⟨e', congrArg (·.bind f) he'⟩

theorem Strict.mono {kind' : C → Prop} {p : Program C R ε α} (h : Strict kind p)
    (hkind : ∀ c, kind c → kind' c) : Strict kind' p := by
  induction p with
  | ret a => trivial
  | raise e => trivial
  | call c k ih => exact ⟨hkind c h.1, h.2.1, fun v => ih _ (h.2.2 v)⟩

/-- The protocol that asks of the commands only that they are of a kind. -/
def only (kind : C → Prop) : Protocol C R ε Unit where
  guard := fun _ c => kind c
  reply := fun _ _ _ => True
  step := fun _ _ _ _ => True

theorem Strict.meets_only {p : Program C R ε α} (h : Strict kind p) :
    p.Meets (only kind) () fun _ _ => True := by
  induction p with
  | ret a => trivial
  | raise e => trivial
  | call c k ih =>
    obtain ⟨hc, herror, hok⟩ := h
    refine ⟨hc, fun r _ => ⟨(), trivial, ?_⟩⟩
    cases r with
    | ok v => exact ih _ (hok v)
    | error e =>
      obtain ⟨e', he'⟩ := herror e
      rw [he']
      trivial

/-- All its statements are of that kind. -/
theorem Runs.kinds {between : W → W → Prop} {step : W → (c : C) → Except ε (R c) → W → Prop}
    {p : Program C R ε α} {w w' : W} {events : List (Event W C R ε)} {a : Except ε α}
    (h : Runs between step p w events a w') (hp : Strict kind p) :
    ∀ event ∈ events, kind event.command := by
  induction h with
  | ret a w => exact nofun
  | raise e w => exact nofun
  | @call c k w w₁ w₂ w' r events a waits does rest ih =>
    obtain ⟨hc, herror, hok⟩ := hp
    refine List.forall_mem_cons.mpr ⟨hc, ?_⟩
    cases r with
    | ok v => exact ih (hok v)
    | error e =>
      obtain ⟨e', he'⟩ := herror e
      rw [he'] at rest
      obtain ⟨rfl, -⟩ := rest.raise_cases
      exact nofun

end

end Program

/-! ### Other sessions -/

variable {κ : Type} {ρ : κ → Type} {σ O E X Y F ε : Type} {XR : X → Type}

/-- What others may do: they leave what session `i` has locked, and lock nothing for it. -/
def Interferes (i : ℕ) (w w' : World κ ρ σ O E) : Prop :=
  ∀ k, (w.cell k).hold.owner = some i ∨ (w'.cell k).hold.owner = some i → w'.cell k = w.cell k

/-- Session `i` holds no lock. -/
def World.FreeOf (w : World κ ρ σ O E) (i : ℕ) : Prop := ∀ k, (w.cell k).hold.owner ≠ some i

/-- Session `i` has written `v` under the key `k`, and holds no other lock. -/
structure World.Holds (w : World κ ρ σ O E) (i : ℕ) (k : κ) (v : ρ k) : Prop where
  hold : (w.cell k).hold = .written i (some v)
  others : ∀ k', k' ≠ k → (w.cell k').hold.owner ≠ some i

theorem Interferes.freeOf {i : ℕ} {w w' : World κ ρ σ O E} (h : Interferes i w w')
    (hw : w.FreeOf i) : w'.FreeOf i := by
  intro k hk
  rw [h k (.inr hk)] at hk
  exact hw k hk

theorem Interferes.holds {i : ℕ} {w w' : World κ ρ σ O E} {k : κ} {v : ρ k}
    (h : Interferes i w w') (hw : w.Holds i k v) : w'.Holds i k v where
  hold := by
    rw [h k (.inl (by rw [hw.hold]; rfl))]
    exact hw.hold
  others := by
    intro k' hne hk'
    rw [h k' (.inr hk')] at hk'
    exact hw.others k' hne hk'

/-- While it holds the lock, the committed row stays. -/
theorem Interferes.row {i : ℕ} {w w' : World κ ρ σ O E} {k : κ} {v : ρ k}
    (h : Interferes i w w') (hw : w.Holds i k v) : w'.row k = w.row k := by
  rw [World.row, h k (.inl (by rw [hw.hold]; rfl)), World.row]

/-- Session `i` holds the locks of these cells, which are as listed, and no others. -/
structure World.Owns (w : World κ ρ σ O E) (i : ℕ) (cells : List ((k : κ) × Cell (ρ k))) :
    Prop where
  cell : ∀ x ∈ cells, w.cell x.1 = x.2
  owner : ∀ x ∈ cells, x.2.hold.owner = some i
  others : ∀ k, (∀ x ∈ cells, k ≠ x.1) → (w.cell k).hold.owner ≠ some i

theorem World.FreeOf.owns {i : ℕ} {w : World κ ρ σ O E} (h : w.FreeOf i) : w.Owns i [] :=
  ⟨nofun, nofun, fun k _ => h k⟩

theorem World.Owns.perm {i : ℕ} {w : World κ ρ σ O E} {cells cells' : List ((k : κ) × Cell (ρ k))}
    (h : w.Owns i cells) (hperm : cells.Perm cells') : w.Owns i cells' where
  cell := fun x hx => h.cell x (hperm.mem_iff.mpr hx)
  owner := fun x hx => h.owner x (hperm.mem_iff.mpr hx)
  others := fun k hk => h.others k fun x hx => hk x (hperm.mem_iff.mp hx)

theorem Interferes.owns {i : ℕ} {w w' : World κ ρ σ O E} {cells : List ((k : κ) × Cell (ρ k))}
    (h : Interferes i w w') (hw : w.Owns i cells) : w'.Owns i cells where
  cell := by
    intro x hx
    have hcell := hw.cell x hx
    rw [h x.1 (.inl (by rw [hcell]; exact hw.owner x hx)), hcell]
  owner := hw.owner
  others := by
    intro k hk howner
    rw [h k (.inr howner)] at howner
    exact hw.others k hk howner

/-- The row satisfies `p` and is locked by nobody. -/
def World.lockable (w : World κ ρ σ O E) (k : κ) (p : ρ k → Bool) : Bool :=
  ((w.row k).filter p).isSome && (w.cell k).hold.owner.isNone

/-! ### What a stretch of a run does -/

/-- The events of a run over a store. -/
abbrev StoreEvent (κ : Type) (ρ : κ → Type) (σ O E X : Type) (XR : X → Type) (ε : Type) :=
  Event (World κ ρ σ O E) (Statement κ ρ σ O X) (Statement.Reply XR) ε

/-- No statement changes a committed row. -/
def Quiet (events : List (StoreEvent κ ρ σ O E X XR ε)) : Prop :=
  ∀ event ∈ events, ∀ k, event.after.row k = event.before.row k

/-- One statement changes one committed row, and no other statement any. -/
def Writes (k : κ) (row row' : ρ k) (events : List (StoreEvent κ ρ σ O E X XR ε)) : Prop :=
  ∃ pre event post, events = pre ++ event :: post ∧ Quiet pre ∧ Quiet post ∧
    event.before.row k = some row ∧ event.after.row k = some row' ∧
    ∀ k', k' ≠ k → event.after.row k' = event.before.row k'

section

variable {k : κ} {row row' : ρ k} {e₁ e₂ : List (StoreEvent κ ρ σ O E X XR ε)}

theorem Quiet.nil : Quiet ([] : List (StoreEvent κ ρ σ O E X XR ε)) := nofun

theorem Quiet.single {event : StoreEvent κ ρ σ O E X XR ε}
    (h : ∀ k, event.after.row k = event.before.row k) : Quiet [event] := by
  intro event' hmem
  obtain rfl := List.mem_singleton.mp hmem
  exact h

theorem Quiet.append (h₁ : Quiet e₁) (h₂ : Quiet e₂) : Quiet (e₁ ++ e₂) := by
  intro event hmem
  rcases List.mem_append.mp hmem with hmem | hmem
  · exact h₁ event hmem
  · exact h₂ event hmem

theorem Writes.append_quiet (h : Writes k row row' e₁) (hquiet : Quiet e₂) :
    Writes k row row' (e₁ ++ e₂) := by
  obtain ⟨pre, event, post, rfl, hpre, hpost, hevent⟩ := h
  exact ⟨pre, event, post ++ e₂, by simp, hpre, hpost.append hquiet, hevent⟩

theorem Writes.quiet_append (h : Writes k row row' e₂) (hquiet : Quiet e₁) :
    Writes k row row' (e₁ ++ e₂) := by
  obtain ⟨pre, event, post, rfl, hpre, hpost, hevent⟩ := h
  exact ⟨e₁ ++ pre, event, post, by simp, hquiet.append hpre, hpost, hevent⟩

end

/-! ### The statements of a session -/

section

variable [DecidableEq κ] [DecidableEq σ] {fault : F → ε}
  {ext : E → (x : X) → Y → Option (Except ε (XR x) × E)} {i : ℕ} {w w' : World κ ρ σ O E}

/-- What a statement of session `i` may do. -/
def Acts (fault : F → ε) (ext : E → (x : X) → Y → Option (Except ε (XR x) × E)) (i : ℕ)
    (w : World κ ρ σ O E) (c : Statement κ ρ σ O X) (r : Except ε (c.Reply XR))
    (w' : World κ ρ σ O E) : Prop :=
  ∃ x : Choice F Y, exec fault ext w i c x = some (r, w')

/-- A write finds the row it looks for and holds its lock, or leaves everything. -/
theorem Acts.update_cases {k : κ} {p : ρ k → Bool} {f : ρ k → ρ k}
    {r : Except ε (Option (ρ k))} (h : Acts fault ext i w (.update k p f) r w')
    (hw : w.FreeOf i) :
    (w'.FreeOf i ∧ (∀ k, w'.row k = w.row k) ∧ ((∃ e, r = .error e) ∨
      r = .ok none ∧ ∀ row, w.row k = some row → p row = false)) ∨
    ∃ row, r = .ok (some (f row)) ∧ w.row k = some row ∧ p row = true ∧
      (∀ k, w'.row k = w.row k) ∧ w'.Holds i k (f row) := by
  obtain ⟨x, he⟩ := h
  have hview : (w.cell k).view i = w.row k := World.view_eq_row (hw k)
  obtain ⟨rfl, e, rfl⟩ | ⟨rfl, rfl, ha⟩ | ⟨row, rfl, rfl, ha⟩ := exec_update he
  · exact .inl ⟨hw, fun _ => rfl, .inl ⟨_, rfl⟩⟩
  · refine .inl ⟨hw, fun _ => rfl, .inr ⟨rfl, fun row hrow => ?_⟩⟩
    exact World.acquire_absent ha row (hview.trans hrow)
  · obtain ⟨hrow, hp, -⟩ := World.acquire_row ha
    refine .inr ⟨row, rfl, hview.symm.trans hrow, hp, fun k' => World.write_row _ _ _ k' _, ?_, ?_⟩
    · rw [World.write_cell_self, Cell.write_hold]
    · intro k' hne
      rw [World.write_cell_of_ne _ _ hne]
      exact hw k'

/-- A commit publishes the row that is held, or has no effect. -/
theorem Acts.commit_cases {k : κ} {v : ρ k} {out : O} {r : Except ε Unit}
    (h : Acts fault ext i w (.commit out) r w') (hw : w.Holds i k v) :
    (∃ e, r = .error e ∧ w' = w) ∨
    w'.FreeOf i ∧ w'.row k = some v ∧ ∀ k', k' ≠ k → w'.row k' = w.row k' := by
  obtain ⟨x, he⟩ := h
  obtain ⟨rfl, e, rfl⟩ | rfl := exec_commit he
  · exact .inl ⟨_, rfl, rfl⟩
  · refine .inr ⟨fun k' => Cell.publish_owner_ne _ _, ?_, fun k' hne => ?_⟩
    · rw [World.commit_row, Cell.view, hw.hold]
      exact if_pos rfl
    · rw [World.commit_row]
      exact World.view_eq_row (hw.others k' hne)

/-- A commit of a session that holds nothing changes no row. -/
theorem Acts.commit_free {out : O} {r : Except ε Unit}
    (h : Acts fault ext i w (.commit out) r w') (hw : w.FreeOf i) :
    w'.FreeOf i ∧ ∀ k, w'.row k = w.row k := by
  obtain ⟨x, he⟩ := h
  obtain ⟨rfl, e, rfl⟩ | rfl := exec_commit he
  · exact ⟨hw, fun _ => rfl⟩
  · refine ⟨fun k => Cell.publish_owner_ne _ _, fun k => ?_⟩
    rw [World.commit_row]
    exact World.view_eq_row (hw k)

section Owns

variable {cells : List ((k : κ) × Cell (ρ k))} {k : κ}

/-- A row is locked exactly if it is as wanted and locked by nobody, unless the statement fails. -/
theorem Acts.tryLock_cases {p : ρ k → Bool} {r : Except ε (Option (ρ k))}
    (h : Acts fault ext i w (.tryLock k p) r w') (hw : w.Owns i cells)
    (hk : ∀ x ∈ cells, k ≠ x.1) :
    (∀ k', w'.row k' = w.row k') ∧
    ((∃ e, r = .error e) ∨ r = .ok none ∧ w' = w ∧ w.lockable k p = false ∨
      ∃ a, r = .ok (some a) ∧ w.row k = some a ∧ w.lockable k p = true ∧
        w'.Owns i (⟨k, ⟨some a, .locked i⟩⟩ :: cells)) := by
  obtain ⟨x, he⟩ := h
  -- the row is in nobody's hands, or in another session's
  have hforeign := hw.others k hk
  have hview : (w.cell k).view i = w.row k := World.view_eq_row hforeign
  rcases x with _ | e | e | y
  · simp only [exec] at he
    rcases ha : w.acquire i k p with _ | _ | a <;> rw [ha] at he <;> cases he
    · refine ⟨fun _ => rfl, .inr (.inl ⟨rfl, rfl, ?_⟩)⟩
      have hnone : (w.row k).filter p = none := by
        refine Option.filter_eq_none_iff.mpr fun a hrow => ?_
        rw [World.acquire_absent ha a (hview.trans hrow)]
        exact Bool.false_ne_true
      rw [World.lockable, hnone]
      rfl
    · refine ⟨fun _ => rfl, .inr (.inl ⟨rfl, rfl, ?_⟩)⟩
      rw [World.lockable, Bool.and_eq_false_iff]
      refine .inr ?_
      -- a blocked row has an owner, who is another session
      rcases howner : (w.cell k).hold.owner with _ | j
      · exact absurd (.inl howner) (World.acquire_blocked ha)
      · rfl
    · obtain ⟨hrow, hp, hopen⟩ := World.acquire_row ha
      rw [hview] at hrow
      -- the lock is granted because the row was free
      have howner : (w.cell k).hold.owner = none := hopen.resolve_right hforeign
      refine ⟨fun k' => World.lock_row _ _ _ k', .inr (.inr ⟨a, rfl, hrow, ?_, ?_⟩)⟩
      · rw [World.lockable, hrow, howner, Option.filter_some, if_pos hp]
        rfl
      · refine ⟨?_, ?_, fun k' hk' => ?_⟩
        · refine List.forall_mem_cons.mpr ⟨?_, fun x hx => ?_⟩
          · rw [World.lock_cell_self, Cell.lock_of_free howner]
            exact congrArg (Cell.mk · _) hrow
          · rw [World.lock_cell_of_ne _ _ (hk x hx).symm]
            exact hw.cell x hx
        · exact List.forall_mem_cons.mpr ⟨rfl, hw.owner⟩
        · obtain ⟨hne, hrest⟩ := List.forall_mem_cons.mp hk'
          rw [World.lock_cell_of_ne _ _ hne]
          exact hw.others k' hrest
  · cases he
    exact ⟨fun _ => rfl, .inl ⟨_, rfl⟩⟩
  · cases he
  · cases he

/-- A row under its lock is written. -/
theorem Acts.update_owned {a : ρ k} {f : ρ k → ρ k} {v : Option (ρ k)}
    (h : Acts fault ext i w (.update k (fun _ => true) f) (.ok v) w')
    (hw : w.Owns i (⟨k, ⟨some a, .locked i⟩⟩ :: cells)) (hk : ∀ x ∈ cells, k ≠ x.1) :
    v = some (f a) ∧ (∀ k', w'.row k' = w.row k') ∧
      w'.Owns i (⟨k, ⟨some a, .written i (some (f a))⟩⟩ :: cells) := by
  obtain ⟨x, he⟩ := h
  have hcell : w.cell k = ⟨some a, .locked i⟩ := hw.cell _ List.mem_cons_self
  have hview : (w.cell k).view i = some a := by rw [hcell]; rfl
  obtain ⟨-, e, hr⟩ | ⟨-, hr, ha⟩ | ⟨b, rfl, hr, ha⟩ := exec_update he
  · cases hr
  · exact absurd (World.acquire_absent ha a hview) Bool.false_ne_true.symm
  · obtain ⟨hrow, -, -⟩ := World.acquire_row ha
    obtain rfl : a = b := Option.some_inj.mp (hview.symm.trans hrow)
    refine ⟨Except.ok.inj hr, fun k' => World.write_row _ _ _ k' _, ?_, ?_, fun k' hk' => ?_⟩
    · refine List.forall_mem_cons.mpr ⟨?_, fun x hx => ?_⟩
      · rw [World.write_cell_self, hcell]
        rfl
      · rw [World.write_cell_of_ne _ _ (hk x hx).symm]
        exact hw.cell x (List.mem_cons_of_mem _ hx)
    · exact List.forall_mem_cons.mpr ⟨rfl, fun x hx => hw.owner x (List.mem_cons_of_mem _ hx)⟩
    · obtain ⟨hne, hrest⟩ := List.forall_mem_cons.mp hk'
      rw [World.write_cell_of_ne _ _ hne]
      exact hw.others k' (List.forall_mem_cons.mpr ⟨hne, hrest⟩)

/-- A commit that returns publishes what is held. -/
theorem Acts.commit_owned {out : O} {u : Unit} (h : Acts fault ext i w (.commit out) (.ok u) w')
    (hw : w.Owns i cells) :
    w'.FreeOf i ∧ (∀ x ∈ cells, w'.row x.1 = x.2.view i) ∧
      ∀ k, (∀ x ∈ cells, k ≠ x.1) → w'.row k = w.row k := by
  obtain ⟨x, he⟩ := h
  obtain ⟨-, e, hr⟩ | rfl := exec_commit he
  · cases hr
  · refine ⟨fun k' => Cell.publish_owner_ne _ _, fun x hx => ?_, fun k hk => ?_⟩
    · rw [World.commit_row, hw.cell x hx]
    · rw [World.commit_row]
      exact World.view_eq_row (hw.others k hk)

end Owns

/-- A rollback frees the session and changes no row. -/
theorem Acts.rollback_cases {r : Except ε Unit} (h : Acts fault ext i w .rollback r w') :
    r = .ok () ∧ w'.FreeOf i ∧ ∀ k, w'.row k = w.row k := by
  obtain ⟨x, he⟩ := h
  obtain ⟨rfl, rfl⟩ := exec_rollback he
  exact ⟨rfl, fun k => Cell.release_owner_ne _ _, fun k => World.release_row _ _ k⟩

/-- A call outside the store leaves the rows and the locks. -/
theorem Acts.ext_cases {y : X} {r : Except ε (XR y)} (h : Acts fault ext i w (.ext y) r w') :
    ∀ k, w'.cell k = w.cell k := by
  obtain ⟨x, he⟩ := h
  obtain ⟨rfl, -⟩ | ⟨c, env, -, rfl⟩ := exec_ext he
  · exact fun _ => rfl
  · exact fun _ => rfl

end

end Concurrency
