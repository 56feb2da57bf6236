/-
One session alone.

While the other sessions stand still, what a session does to the store is a function of
the statement (`Session.next`), and what it is replied is settled by its rows and by the
locks of the others, up to the order in which a scan lists them and to what lies outside
the store (`Session.Replies`).

* `Program.Performs` — a program run from one world to another;
* `Performs.meets` — such a run reaches what the program reaches under a protocol
  that its steps follow;
* **`Alone.exec`** — every statement of a session alone follows `sequential`;
* `Alone.exists_performs` — and there is such a run.
-/
import Lsstack.ReadCommitted

namespace Concurrency

/-! ### Running a program -/

namespace Program

variable {C : Type} {R : C → Type} {ε α β W Γ : Type}

/-- The program, run by the steps of `step` from the world `w`, ends with a result in
the world `w'`. -/
inductive Performs (step : W → (c : C) → Except ε (R c) → W → Prop) :
    Program C R ε α → W → Except ε α → W → Prop
  | ret (a : α) (w : W) : Performs step (.ret a) w (.ok a) w
  | raise (e : ε) (w : W) : Performs step (.raise e) w (.error e) w
  | call {c : C} {k : Except ε (R c) → Program C R ε α} {w w' w'' : W} {r : Except ε (R c)}
      {a : Except ε α} (does : step w c r w') (rest : Performs step (k r) w' a w'') :
      Performs step (.call c k) w a w''

variable {step : W → (c : C) → Except ε (R c) → W → Prop} {p : Program C R ε α} {w w' : W}
  {a : Except ε α}

/-- A run ends as its program does under a protocol that its steps follow. -/
theorem Performs.meets {P : Protocol C R ε Γ} {S : W → Γ → Prop} {g : Γ}
    {Q : Except ε α → Γ → Prop} (h : Performs step p w a w')
    (hstep : ∀ {w g c r w'}, S w g → step w c r w' →
      P.reply g c r ∧ ∀ g', P.step g c r g' → S w' g')
    (hrel : S w g) (hmeets : p.Meets P g Q) : ∃ g', S w' g' ∧ Q a g' := by
  induction h generalizing g with
  | ret a w => exact ⟨g, hrel, hmeets⟩
  | raise e w => exact ⟨g, hrel, hmeets⟩
  | call does rest ih =>
    obtain ⟨hreply, hnext⟩ := hstep hrel does
    obtain ⟨g', hg', hmeets'⟩ := hmeets.2 _ hreply
    exact ih (hnext g' hg') hmeets'

/-- Where every command can be answered, every program can be run. -/
theorem exists_performs {I : W → Prop}
    (hstep : ∀ w, I w → ∀ c, ∃ r w', step w c r w' ∧ I w') (p : Program C R ε α) {w : W}
    (hw : I w) : ∃ a w', Performs step p w a w' ∧ I w' := by
  induction p generalizing w with
  | ret a => exact ⟨_, _, .ret a w, hw⟩
  | raise e => exact ⟨_, _, .raise e w, hw⟩
  | call c k ih =>
    obtain ⟨r, w', hdoes, hw'⟩ := hstep w hw c
    obtain ⟨a, w'', hrest, hw''⟩ := ih r hw'
    exact ⟨a, w'', .call hdoes hrest, hw''⟩

/-- The program, run on a list of decisions of the environment. -/
def replay {Y : Type} (step? : W → (c : C) → Y → Option (Except ε (R c) × W)) :
    List Y → Program C R ε α → W → Option (Except ε α × W)
  | _, .ret a, w => some (.ok a, w)
  | _, .raise e, w => some (.error e, w)
  | [], .call _ _, _ => none
  | y :: ys, .call c k, w =>
    match step? w c y with
    | none => none
    | some (r, w') => replay step? ys (k r) w'

/-- What is replayed is a run. -/
theorem performs_of_replay {Y : Type} {step? : W → (c : C) → Y → Option (Except ε (R c) × W)}
    (hstep : ∀ {w c y r w'}, step? w c y = some (r, w') → step w c r w') {ys : List Y}
    (h : replay step? ys p w = some (a, w')) : Performs step p w a w' := by
  induction p generalizing ys w with
  | ret b =>
    simp only [replay, Option.some.injEq, Prod.mk.injEq] at h
    obtain ⟨rfl, rfl⟩ := h
    exact .ret b w
  | raise e =>
    simp only [replay, Option.some.injEq, Prod.mk.injEq] at h
    obtain ⟨rfl, rfl⟩ := h
    exact .raise e w
  | call c k ih =>
    cases ys with
    | nil => cases h
    | cons y ys =>
      rw [replay] at h
      split at h
      · cases h
      · rename_i hdoes
        exact .call (hstep hdoes) (ih _ h)

end Program

/-! ### The rows of a session -/

variable {κ : Type} {ρ : κ → Type} {σ O E X Y F ε : Type} {XR : X → Type}

/-- The committed rows, the rows as the session sees them, the sequences, and the keys the
others have locked. -/
structure Session (κ : Type) (ρ : κ → Type) (σ : Type) where
  committed : (k : κ) → Option (ρ k)
  rows : (k : κ) → Option (ρ k)
  seq : σ → ℕ
  blocked : κ → Prop

namespace Session

/-- The rows that satisfy `p`, each once, in some order. -/
def Enumerates (s : Session κ ρ σ) (p : (k : κ) × ρ k → Bool)
    (l : List ((k : κ) × ρ k)) : Prop :=
  l.Nodup ∧ ∀ x, x ∈ l ↔ s.rows x.1 = some x.2 ∧ p x = true

/-- Where `le` compares the values of `f` in a linear order, a scan comes in that order. -/
theorem pairwise_map_insertionSort {γ : Type} [LinearOrder γ]
    {le : (k : κ) × ρ k → (k : κ) × ρ k → Bool}
    {l : List ((k : κ) × ρ k)} {f : (k : κ) × ρ k → γ}
    (h : ∀ a ∈ l, ∀ b ∈ l, le a b = true ↔ f a ≤ f b) :
    ((l.insertionSort fun a b => le a b = true).map f).Pairwise (· ≤ ·) := by
  rw [List.map_insertionSort _ (· ≤ ·) f l h]
  exact List.pairwise_insertionSort _ _

/-- What a statement may be replied; one that needs the lock of another is not. -/
def Replies (answers : (x : X) → XR x → Prop) (s : Session κ ρ σ) :
    (c : Statement κ ρ σ O X) → c.Reply XR → Prop
  | .select k p, v => v = (s.rows k).filter p
  | .scan p le, v => ∃ l, s.Enumerates p l ∧ v = l.insertionSort fun a b => le a b = true
  | .lock k p, v => v = (s.rows k).filter p ∧ (v ≠ none → ¬ s.blocked k)
  | .tryLock k p, v => (¬ s.blocked k → v = (s.rows k).filter p) ∧ (s.blocked k → v = none)
  | .update k p f, v => v = ((s.rows k).filter p).map f ∧ (v ≠ none → ¬ s.blocked k)
  | .insert k _, v => v = (s.rows k).isNone ∧ ¬ s.blocked k
  | .delete k p, v => v = (s.rows k).filter p ∧ (v ≠ none → ¬ s.blocked k)
  | .nextval q, v => v = s.seq q
  | .commit _, _ => True
  | .rollback, _ => True
  | .ext x, v => answers x v

variable [DecidableEq κ] [DecidableEq σ]

/-- Write or remove one row. -/
def put (s : Session κ ρ σ) (k : κ) (v : Option (ρ k)) : Session κ ρ σ :=
  { s with rows := Function.update s.rows k v }

omit [DecidableEq σ] in
@[simp] theorem put_rows_self (s : Session κ ρ σ) (k : κ) (v : Option (ρ k)) :
    (s.put k v).rows k = v := by
  simp [put]

omit [DecidableEq σ] in
theorem put_rows_of_ne (s : Session κ ρ σ) {k k' : κ} (h : k' ≠ k) (v : Option (ρ k)) :
    (s.put k v).rows k' = s.rows k' := by
  simp [put, h]

omit [DecidableEq σ] in
/-- Writing what is there changes nothing. -/
theorem put_rows_eq_self {s : Session κ ρ σ} {k : κ} {v : Option (ρ k)} (h : s.rows k = v) :
    s.put k v = s := by
  rw [put, ← h, Function.update_eq_self]

/-- What a statement does. -/
def next (s : Session κ ρ σ) : Statement κ ρ σ O X → Session κ ρ σ
  | .update k p f =>
    match (s.rows k).filter p with
    | none => s
    | some a => s.put k (some (f a))
  | .delete k p =>
    match (s.rows k).filter p with
    | none => s
    | some _ => s.put k none
  | .insert k v =>
    match s.rows k with
    | none => s.put k (some v)
    | some _ => s
  | .nextval q => { s with seq := Function.update s.seq q (s.seq q + 1) }
  | .commit _ => { s with committed := s.rows }
  | .rollback => { s with rows := s.committed }
  | _ => s

theorem next_update {s : Session κ ρ σ} {k : κ} {p : ρ k → Bool} {f : ρ k → ρ k} {a : ρ k}
    (h : (s.rows k).filter p = some a) :
    s.next (.update k p f : Statement κ ρ σ O X) = s.put k (some (f a)) := by
  rw [next, h]

theorem next_delete {s : Session κ ρ σ} {k : κ} {p : ρ k → Bool} {a : ρ k}
    (h : (s.rows k).filter p = some a) :
    s.next (.delete k p : Statement κ ρ σ O X) = s.put k none := by
  rw [next, h]

theorem next_insert {s : Session κ ρ σ} {k : κ} {v : ρ k} (h : s.rows k = none) :
    s.next (.insert k v : Statement κ ρ σ O X) = s.put k (some v) := by
  rw [next, h]

theorem next_blocked (s : Session κ ρ σ) (c : Statement κ ρ σ O X) :
    (s.next c).blocked = s.blocked := by
  cases c with
  | update k p f =>
    rw [next]
    split <;> rfl
  | delete k p =>
    rw [next]
    split <;> rfl
  | insert k v =>
    rw [next]
    split <;> rfl
  | _ => rfl

end Session

variable [DecidableEq κ] [DecidableEq σ]

/-- The protocol of a session alone; no statement fails. -/
def sequential (answers : (x : X) → XR x → Prop) :
    Protocol (Statement κ ρ σ O X) (Statement.Reply XR) ε (Session κ ρ σ) where
  guard := fun _ _ => True
  reply := fun s c r => ∃ v, r = .ok v ∧ s.Replies answers c v
  step := fun s c _ s' => s' = s.next c

theorem meets_perform_sequential {answers : (x : X) → XR x → Prop} {s : Session κ ρ σ}
    {c : Statement κ ρ σ O X} {Q : Except ε (c.Reply XR) → Session κ ρ σ → Prop} :
    (Program.perform c).Meets (sequential answers) s Q ↔
      ∀ v, s.Replies answers c v → Q (.ok v) (s.next c) := by
  rw [Program.meets_perform]
  constructor
  · rintro ⟨-, h⟩ v hv
    obtain ⟨_, rfl, hQ⟩ := h (.ok v) ⟨v, rfl, hv⟩
    exact hQ
  · intro h
    refine ⟨trivial, ?_⟩
    rintro _ ⟨v, rfl, hv⟩
    exact ⟨_, rfl, h v hv⟩

/-! ### A session alone in the store -/

/-- Session `i` sees what `s` says, and may take every lock but those of the others. -/
structure Alone (i : ℕ) (w : World κ ρ σ O E) (s : Session κ ρ σ) : Prop where
  unlocked : ∀ k, (w.cell k).Open i ↔ ¬ s.blocked k
  rows : ∀ k, (w.cell k).view i = s.rows k
  committed : ∀ k, w.row k = s.committed k
  seq : w.seq = s.seq

/-- The reply of a call outside the store is one of its answers. -/
def Answered (answers : (x : X) → XR x → Prop) :
    (c : Statement κ ρ σ O X) → c.Reply XR → Prop
  | .ext x, v => answers x v
  | _, _ => True

instance {answers : (x : X) → XR x → Prop} [∀ x v, Decidable (answers x v)] :
    (c : Statement κ ρ σ O X) → (v : c.Reply XR) → Decidable (Answered answers c v)
  | .ext x, v => inferInstanceAs (Decidable (answers x v))
  | .select _ _, _ => inferInstanceAs (Decidable True)
  | .scan _ _, _ => inferInstanceAs (Decidable True)
  | .lock _ _, _ => inferInstanceAs (Decidable True)
  | .tryLock _ _, _ => inferInstanceAs (Decidable True)
  | .update _ _ _, _ => inferInstanceAs (Decidable True)
  | .insert _ _, _ => inferInstanceAs (Decidable True)
  | .delete _ _, _ => inferInstanceAs (Decidable True)
  | .nextval _, _ => inferInstanceAs (Decidable True)
  | .commit _, _ => inferInstanceAs (Decidable True)
  | .rollback, _ => inferInstanceAs (Decidable True)

namespace Alone

variable {i : ℕ} {w w' : World κ ρ σ O E} {s : Session κ ρ σ}

omit [DecidableEq κ] [DecidableEq σ] in
/-- A session that holds no lock yet. -/
theorem of_free (h : ∀ k, (w.cell k).hold.owner ≠ some i) :
    Alone i w ⟨w.row, w.row, w.seq, fun k => (w.cell k).hold.owner ≠ none⟩ where
  unlocked := fun k =>
    ⟨fun ho => not_not.mpr (ho.resolve_right (h k)), fun ho => .inl (not_not.mp ho)⟩
  rows := fun k => World.view_eq_row (h k)
  committed := fun _ => rfl
  seq := rfl

omit [DecidableEq κ] [DecidableEq σ] in
/-- Nobody holds a lock. -/
theorem of_unlocked (h : ∀ k, (w.cell k).hold.owner = none) :
    Alone i w ⟨w.row, w.row, w.seq, fun _ => False⟩ where
  unlocked := fun k => ⟨fun _ => id, fun _ => .inl (h k)⟩
  rows := fun k => World.view_eq_row (by rw [h k]; exact nofun)
  committed := fun _ => rfl
  seq := rfl

omit [DecidableEq κ] [DecidableEq σ] in
/-- Asking for a lock finds what the session sees, unless another has it. -/
theorem acquire (h : Alone i w s) (k : κ) (p : ρ k → Bool) :
    (w.acquire i k p = .absent ∧ (s.rows k).filter p = none) ∨
    (w.acquire i k p = .blocked ∧ s.blocked k) ∨
    ∃ a, w.acquire i k p = .row a ∧ (s.rows k).filter p = some a ∧ ¬ s.blocked k := by
  rw [World.acquire, h.rows]
  cases (s.rows k).filter p with
  | none => exact .inl ⟨rfl, rfl⟩
  | some a =>
    by_cases ho : (w.cell k).Open i
    · exact .inr (.inr ⟨a, if_pos ho, rfl, (h.unlocked k).mp ho⟩)
    · exact .inr (.inl ⟨if_neg ho, not_not.mp fun hb => ho ((h.unlocked k).mpr hb)⟩)

omit [DecidableEq κ] [DecidableEq σ] in
theorem rows_of_absent (h : Alone i w s) {k : κ} {p : ρ k → Bool}
    (ha : w.acquire i k p = .absent) : (s.rows k).filter p = none := by
  obtain ⟨-, hnone⟩ | ⟨hb, -⟩ | ⟨a, hrow, -⟩ := h.acquire k p
  · exact hnone
  · cases ha.symm.trans hb
  · cases ha.symm.trans hrow

omit [DecidableEq κ] [DecidableEq σ] in
theorem rows_of_acquired (h : Alone i w s) {k : κ} {p : ρ k → Bool} {a : ρ k}
    (ha : w.acquire i k p = .row a) : (s.rows k).filter p = some a ∧ ¬ s.blocked k := by
  obtain ⟨hnone, -⟩ | ⟨hb, -⟩ | ⟨a', hrow, hsome, hk⟩ := h.acquire k p
  · cases ha.symm.trans hnone
  · cases ha.symm.trans hb
  · cases ha.symm.trans hrow
    exact ⟨hsome, hk⟩

omit [DecidableEq σ] in
theorem lock (h : Alone i w s) {k : κ} (hk : ¬ s.blocked k) : Alone i (w.lock i k) s where
  unlocked := by
    intro k'
    by_cases hk' : k' = k
    · subst hk'
      rw [World.lock_cell_self]
      exact ⟨fun _ => hk, fun _ => .inr (Cell.lock_owner ((h.unlocked k').mpr hk))⟩
    · rw [World.lock_cell_of_ne _ _ hk']
      exact h.unlocked k'
  rows := by
    intro k'
    by_cases hk' : k' = k
    · subst hk'
      rw [World.lock_cell_self, Cell.lock_view]
      exact h.rows k'
    · rw [World.lock_cell_of_ne _ _ hk']
      exact h.rows k'
  committed := by
    intro k'
    rw [World.lock_row]
    exact h.committed k'
  seq := h.seq

omit [DecidableEq σ] in
theorem write (h : Alone i w s) {k : κ} (hk : ¬ s.blocked k) (v : Option (ρ k)) :
    Alone i (w.write i k v) (s.put k v) where
  unlocked := by
    intro k'
    by_cases hk' : k' = k
    · subst hk'
      rw [World.write_cell_self]
      exact ⟨fun _ => hk, fun _ => .inr rfl⟩
    · rw [World.write_cell_of_ne _ _ hk']
      exact h.unlocked k'
  rows := by
    intro k'
    by_cases hk' : k' = k
    · subst hk'
      rw [World.write_cell_self, Cell.write_view, Session.put_rows_self]
    · rw [World.write_cell_of_ne _ _ hk', Session.put_rows_of_ne _ hk']
      exact h.rows k'
  committed := by
    intro k'
    rw [World.write_row]
    exact h.committed k'
  seq := h.seq

/-- A cell whose session lets go of it is as open to the session as before. -/
theorem open_of_let_go {γ : Type} {c c' : Cell γ}
    (hown : c.hold.owner = some i → c'.hold.owner = none)
    (hother : c.hold.owner ≠ some i → c' = c) : c'.Open i ↔ c.Open i := by
  by_cases ho : c.hold.owner = some i
  · exact ⟨fun _ => .inr ho, fun _ => .inl (hown ho)⟩
  · rw [hother ho]

omit [DecidableEq κ] [DecidableEq σ] in
theorem commit (h : Alone i w s) (out : O) :
    Alone i (w.commit i out) { s with committed := s.rows } where
  unlocked := by
    intro k
    rw [World.commit_cell, open_of_let_go (fun ho => by rw [Cell.publish_of_owner ho]; rfl)
      Cell.publish_of_ne]
    exact h.unlocked k
  rows := by
    intro k
    rw [World.commit_cell, Cell.view_of_owner_ne (Cell.publish_owner_ne _ _),
      Cell.publish_committed]
    exact h.rows k
  committed := by
    intro k
    rw [World.commit_row]
    exact h.rows k
  seq := h.seq

omit [DecidableEq κ] [DecidableEq σ] in
theorem release (h : Alone i w s) : Alone i (w.release i) { s with rows := s.committed } where
  unlocked := by
    intro k
    rw [World.release_cell, open_of_let_go (fun ho => by rw [Cell.release, if_pos ho]; rfl)
      Cell.release_of_ne]
    exact h.unlocked k
  rows := by
    intro k
    rw [World.release_cell, Cell.view_of_owner_ne (Cell.release_owner_ne _ _),
      Cell.release_committed]
    exact h.committed k
  committed := by
    intro k
    rw [World.release_row]
    exact h.committed k
  seq := h.seq

omit [DecidableEq κ] in
theorem nextval (h : Alone i w s) (q : σ) :
    Alone i (w.nextval q) { s with seq := Function.update s.seq q (s.seq q + 1) } where
  unlocked := h.unlocked
  rows := h.rows
  committed := h.committed
  seq := by
    rw [← h.seq]
    rfl

omit [DecidableEq κ] [DecidableEq σ] in
theorem setEnv (h : Alone i w s) (env : E) : Alone i { w with env := env } s where
  unlocked := h.unlocked
  rows := h.rows
  committed := h.committed
  seq := h.seq

omit [DecidableEq σ] in
/-- A scan lists the rows the session sees. -/
theorem scan (h : Alone i w s) (p : (k : κ) × ρ k → Bool)
    (le : (k : κ) × ρ k → (k : κ) × ρ k → Bool) :
    ∃ l, s.Enumerates p l ∧ w.scan i p le = l.insertionSort fun a b => le a b = true := by
  refine ⟨_, ⟨?_, ?_⟩, rfl⟩
  · refine List.Nodup.filterMap ?_ w.store.nodup
    intro k k' x hk hk'
    obtain ⟨hx, -⟩ := Option.filter_eq_some_iff.mp hk
    obtain ⟨hx', -⟩ := Option.filter_eq_some_iff.mp hk'
    obtain ⟨r, -, rfl⟩ := Option.map_eq_some_iff.mp hx
    obtain ⟨r', -, heq⟩ := Option.map_eq_some_iff.mp hx'
    exact (congrArg Sigma.fst heq).symm
  · rintro ⟨k, r⟩
    rw [List.mem_filterMap, ← h.rows]
    constructor
    · rintro ⟨k', -, hx⟩
      obtain ⟨hx, hp⟩ := Option.filter_eq_some_iff.mp hx
      obtain ⟨r', hr, heq⟩ := Option.map_eq_some_iff.mp hx
      cases heq
      exact ⟨hr, hp⟩
    · rintro ⟨hr, hp⟩
      refine ⟨k, ?_, ?_⟩
      · by_contra hk
        have hblank : w.cell k = .blank := w.store.complete k hk
        rw [hblank] at hr
        cases hr
      · rw [Option.filter_eq_some_iff]
        exact ⟨Option.map_eq_some_iff.mpr ⟨r, hr, rfl⟩, hp⟩

variable {fault : F → ε} {ext : E → (x : X) → Y → Option (Except ε (XR x) × E)}
  {answers : (x : X) → XR x → Prop}

/-- **What a statement of a session alone is replied, and what it does.** -/
theorem exec (h : Alone i w s) {c : Statement κ ρ σ O X} {x : Choice F Y} {v : c.Reply XR}
    (he : exec fault ext w i c x = some (.ok v, w')) (hv : Answered answers c v) :
    s.Replies answers c v ∧ Alone i w' (s.next c) := by
  cases c with
  | select k p =>
    obtain ⟨rfl, ⟨e, hr⟩ | hr⟩ := exec_select he
    · cases hr
    · rw [h.rows] at hr
      exact ⟨Except.ok.inj hr, h⟩
  | scan p le =>
    obtain ⟨rfl, ⟨e, hr⟩ | hr⟩ := exec_scan he
    · cases hr
    · obtain ⟨l, hl, hscan⟩ := h.scan p le
      exact ⟨⟨l, hl, (Except.ok.inj hr).trans hscan⟩, h⟩
  | lock k p =>
    obtain ⟨rfl, e, hr⟩ | ⟨rfl, hr, ha⟩ | ⟨a, rfl, hr, ha⟩ := exec_lock he
    · cases hr
    · cases hr
      exact ⟨⟨(h.rows_of_absent ha).symm, fun hne => absurd rfl hne⟩, h⟩
    · cases hr
      obtain ⟨hsome, hk⟩ := h.rows_of_acquired ha
      exact ⟨⟨hsome.symm, fun _ => hk⟩, h.lock hk⟩
  | tryLock k p =>
    -- a row that another session has locked is passed over
    rcases x with _ | e | e | y
    · simp only [Concurrency.exec] at he
      obtain ⟨ha, hnone⟩ | ⟨ha, hk⟩ | ⟨a, ha, hsome, hk⟩ := h.acquire k p
      all_goals
        rw [ha] at he
        cases he
      · exact ⟨⟨fun _ => hnone.symm, fun _ => rfl⟩, h⟩
      · exact ⟨⟨fun hfree => absurd hk hfree, fun _ => rfl⟩, h⟩
      · exact ⟨⟨fun _ => hsome.symm, fun hb => absurd hb hk⟩, h.lock hk⟩
    all_goals cases he
  | update k p f =>
    obtain ⟨rfl, e, hr⟩ | ⟨rfl, hr, ha⟩ | ⟨a, rfl, hr, ha⟩ := exec_update he
    · cases hr
    · cases hr
      have hnone := h.rows_of_absent ha
      refine ⟨⟨by rw [hnone]; rfl, fun hne => absurd rfl hne⟩, ?_⟩
      rw [Session.next, hnone]
      exact h
    · cases hr
      obtain ⟨hsome, hk⟩ := h.rows_of_acquired ha
      refine ⟨⟨by rw [hsome]; rfl, fun _ => hk⟩, ?_⟩
      rw [Session.next, hsome]
      exact h.write hk _
  | insert k r =>
    obtain ⟨rfl, e, hr⟩ | ⟨rfl, hr, ho, a, hview⟩ | ⟨rfl, hr, ho, hview⟩ := exec_insert he
    · cases hr
    · cases hr
      rw [h.rows] at hview
      refine ⟨⟨by rw [hview]; rfl, (h.unlocked k).mp ho⟩, ?_⟩
      rw [Session.next, hview]
      exact h
    · cases hr
      rw [h.rows] at hview
      refine ⟨⟨by rw [hview]; rfl, (h.unlocked k).mp ho⟩, ?_⟩
      rw [Session.next, hview]
      exact h.write ((h.unlocked k).mp ho) _
  | delete k p =>
    obtain ⟨rfl, e, hr⟩ | ⟨rfl, hr, ha⟩ | ⟨a, rfl, hr, ha⟩ := exec_delete he
    · cases hr
    · cases hr
      have hnone := h.rows_of_absent ha
      refine ⟨⟨hnone.symm, fun hne => absurd rfl hne⟩, ?_⟩
      rw [Session.next, hnone]
      exact h
    · cases hr
      obtain ⟨hsome, hk⟩ := h.rows_of_acquired ha
      refine ⟨⟨hsome.symm, fun _ => hk⟩, ?_⟩
      rw [Session.next, hsome]
      exact h.write hk _
  | nextval q =>
    obtain ⟨rfl, e, hr⟩ | ⟨rfl, hr⟩ := exec_nextval he
    · cases hr
    · exact ⟨(Except.ok.inj hr).trans (by rw [h.seq]), h.nextval q⟩
  | commit out =>
    obtain ⟨rfl, e, hr⟩ | rfl := exec_commit he
    · cases hr
    · exact ⟨trivial, h.commit out⟩
  | rollback =>
    obtain ⟨rfl, -⟩ := exec_rollback he
    exact ⟨trivial, h.release⟩
  | ext y =>
    obtain ⟨rfl, e, hr⟩ | ⟨d, env, -, rfl⟩ := exec_ext he
    · cases hr
    · exact ⟨hv, h.setEnv env⟩

/-- Where the others hold no lock, no statement has to wait. -/
theorem exists_exec (h : Alone i w s) (hfree : ∀ k, ¬ s.blocked k)
    (hext : ∀ env y, ∃ d v env', ext env y d = some (.ok v, env') ∧ answers y v)
    (c : Statement κ ρ σ O X) :
    ∃ (x : Choice F Y) (v : c.Reply XR) (w' : World κ ρ σ O E),
      Concurrency.exec fault ext w i c x = some (.ok v, w') ∧ Answered answers c v := by
  -- where nobody else has a lock every statement goes through
  have hacquire : ∀ k p, w.acquire i k p = .absent ∨ ∃ a, w.acquire i k p = .row a := by
    intro k p
    obtain ⟨ha, -⟩ | ⟨-, hk⟩ | ⟨a, ha, -⟩ := h.acquire k p
    · exact .inl ha
    · exact absurd hk (hfree k)
    · exact .inr ⟨a, ha⟩
  cases c with
  | select k p => exact ⟨.ok, _, _, rfl, trivial⟩
  | scan p le => exact ⟨.ok, _, _, rfl, trivial⟩
  | lock k p =>
    obtain ha | ⟨a, ha⟩ := hacquire k p
    · exact ⟨.ok, none, w, by simp only [Concurrency.exec, ha], trivial⟩
    · exact ⟨.ok, some a, w.lock i k, by simp only [Concurrency.exec, ha], trivial⟩
  | tryLock k p =>
    obtain ha | ⟨a, ha⟩ := hacquire k p
    · exact ⟨.ok, none, w, by simp only [Concurrency.exec, ha], trivial⟩
    · exact ⟨.ok, some a, w.lock i k, by simp only [Concurrency.exec, ha], trivial⟩
  | update k p f =>
    obtain ha | ⟨a, ha⟩ := hacquire k p
    · exact ⟨.ok, none, w, by simp only [Concurrency.exec, ha], trivial⟩
    · exact ⟨.ok, some (f a), w.write i k (some (f a)), by simp only [Concurrency.exec, ha],
        trivial⟩
  | insert k r =>
    refine ⟨.ok, (s.rows k).isNone, ?_⟩
    simp only [Concurrency.exec, if_pos ((h.unlocked k).mpr (hfree k)), h.rows]
    cases s.rows k <;> exact ⟨_, rfl, trivial⟩
  | delete k p =>
    obtain ha | ⟨a, ha⟩ := hacquire k p
    · exact ⟨.ok, none, w, by simp only [Concurrency.exec, ha], trivial⟩
    · exact ⟨.ok, some a, w.write i k none, by simp only [Concurrency.exec, ha], trivial⟩
  | nextval q => exact ⟨.ok, _, _, rfl, trivial⟩
  | commit out => exact ⟨.ok, _, _, rfl, trivial⟩
  | rollback => exact ⟨.ok, _, _, rfl, trivial⟩
  | ext y =>
    obtain ⟨d, v, env', hd, hv⟩ := hext w.env y
    refine ⟨.ext d, v, { w with env := env' }, ?_, hv⟩
    simp only [Concurrency.exec, hd, Option.map_some]

end Alone

/-! ### Runs -/

/-- A statement of session `i` that does not fail. -/
def Does (fault : F → ε) (ext : E → (x : X) → Y → Option (Except ε (XR x) × E))
    (answers : (x : X) → XR x → Prop) (i : ℕ) (w : World κ ρ σ O E) (c : Statement κ ρ σ O X)
    (r : Except ε (c.Reply XR)) (w' : World κ ρ σ O E) : Prop :=
  ∃ (x : Choice F Y) (v : c.Reply XR), r = .ok v ∧ exec fault ext w i c x = some (.ok v, w') ∧
    Answered answers c v

section

variable {fault : F → ε} {ext : E → (x : X) → Y → Option (Except ε (XR x) × E)}
  {answers : (x : X) → XR x → Prop} {i : ℕ} {w w' : World κ ρ σ O E} {s : Session κ ρ σ}
  {α : Type} {p : Program (Statement κ ρ σ O X) (Statement.Reply XR) ε α} {a : Except ε α}

/-- What a program reaches under `sequential`, it reaches when run by a session alone. -/
theorem Alone.performs (h : Alone i w s) (hrun : p.Performs (Does fault ext answers i) w a w')
    {Q : Except ε α → Session κ ρ σ → Prop} (hmeets : p.Meets (sequential answers) s Q) :
    ∃ s', Alone i w' s' ∧ Q a s' := by
  refine hrun.meets (S := Alone i) ?_ h hmeets
  rintro w s c r w' hrel ⟨x, v, rfl, he, hv⟩
  obtain ⟨hreply, hnext⟩ := hrel.exec he hv
  refine ⟨⟨v, rfl, hreply⟩, ?_⟩
  rintro s' rfl
  exact hnext

/-- And it can be run. -/
theorem Alone.exists_performs (h : Alone i w s) (hfree : ∀ k, ¬ s.blocked k)
    (hext : ∀ env y, ∃ d v env', ext env y d = some (.ok v, env') ∧ answers y v)
    (p : Program (Statement κ ρ σ O X) (Statement.Reply XR) ε α) :
    ∃ a w', p.Performs (Does fault ext answers i) w a w' := by
  have hstep : ∀ w : World κ ρ σ O E, (∃ s, Alone i w s ∧ ∀ k, ¬ s.blocked k) → ∀ c, ∃ r w',
      Does fault ext answers i w c r w' ∧ ∃ s, Alone i w' s ∧ ∀ k, ¬ s.blocked k := by
    rintro w ⟨s, hs, hfree⟩ c
    obtain ⟨x, v, w', he, hv⟩ := hs.exists_exec hfree hext c
    refine ⟨.ok v, w', ⟨x, v, rfl, he, hv⟩, s.next c, (hs.exec he hv).2, ?_⟩
    rw [Session.next_blocked]
    exact hfree
  obtain ⟨a, w', hrun, -⟩ := Program.exists_performs hstep p ⟨s, h, hfree⟩
  exact ⟨a, w', hrun⟩

/-- One statement, where it does not fail and is answered. -/
def attempt (fault : F → ε) (ext : E → (x : X) → Y → Option (Except ε (XR x) × E))
    (answers : (x : X) → XR x → Prop) [∀ x v, Decidable (answers x v)] (i : ℕ)
    (w : World κ ρ σ O E) (c : Statement κ ρ σ O X) (x : Choice F Y) :
    Option (Except ε (c.Reply XR) × World κ ρ σ O E) :=
  match exec fault ext w i c x with
  | some (.ok v, w') => if Answered answers c v then some (.ok v, w') else none
  | _ => none

theorem does_of_attempt [∀ x v, Decidable (answers x v)] {c : Statement κ ρ σ O X}
    {x : Choice F Y} {r : Except ε (c.Reply XR)}
    (h : attempt fault ext answers i w c x = some (r, w')) : Does fault ext answers i w c r w' := by
  unfold attempt at h
  split at h
  · rename_i v w'' he
    split at h
    · cases h
      exact ⟨x, v, rfl, he, by assumption⟩
    · cases h
  · cases h

/-! The locks a session leaves. -/

/-- The statement frees all locks of its session. -/
def Statement.frees : Statement κ ρ σ O X → Bool
  | .commit _ => true
  | .rollback => true
  | _ => false

/-- The protocol of a session's locks; the ghost state says that all are free. -/
def freeing : Protocol (Statement κ ρ σ O X) (Statement.Reply XR) ε Bool where
  guard := fun _ _ => True
  reply := fun _ _ _ => True
  step := fun _ c _ g' => g' = c.frees

omit [DecidableEq κ] [DecidableEq σ] in
theorem meets_freeing (p : Program (Statement κ ρ σ O X) (Statement.Reply XR) ε α) (g : Bool) :
    p.Meets freeing g fun _ _ => True := by
  induction p generalizing g with
  | ret a => trivial
  | raise e => trivial
  | call c k ih => exact ⟨trivial, fun r _ => ⟨_, rfl, ih r _⟩⟩

omit [DecidableEq κ] [DecidableEq σ] in
theorem meets_perform_freeing {c : Statement κ ρ σ O X} {g : Bool}
    {Q : Except ε (c.Reply XR) → Bool → Prop} (h : ∀ r, Q r c.frees) :
    (Program.perform c).Meets freeing g Q :=
  Program.meets_perform.mpr ⟨trivial, fun r _ => ⟨_, rfl, h r⟩⟩

/-- What a session may lock, it may lock afterwards. -/
theorem Cell.Moves.open {γ : Type} {c c' : Cell γ} (h : c.Moves i c') (ho : c.Open i) :
    c'.Open i := by
  rcases hj : c'.hold.owner with _ | j
  · exact .inl hj
  by_cases hij : j = i
  · exact .inr (hj.trans (congrArg some hij))
  · have hold := h.owner hj hij
    rcases ho with ho | ho
    · cases hold.symm.trans ho
    · exact absurd (Option.some_inj.mp (hold.symm.trans ho)) hij

/-- **A program that frees its locks at last leaves none.** -/
theorem Program.Performs.unlocks (hrun : p.Performs (Does fault ext answers i) w a w')
    (hmeets : p.Meets freeing false fun _ g => g = true) (hw : ∀ k, (w.cell k).hold.owner = none)
    (k : κ) : (w'.cell k).hold.owner = none := by
  have hnone : ∀ {c : Cell (ρ k)}, c.Open i → c.hold.owner ≠ some i → c.hold.owner = none :=
    fun ho hne => ho.resolve_right hne
  have hstep : ∀ {w : World κ ρ σ O E} {g : Bool} {c r w'},
      ((w.cell k).Open i ∧ (g = true → (w.cell k).hold.owner = none)) →
      Does fault ext answers i w c r w' →
      True ∧ ∀ g', g' = c.frees →
        (w'.cell k).Open i ∧ (g' = true → (w'.cell k).hold.owner = none) := by
    rintro w g c r w' ⟨hopen, -⟩ ⟨x, v, rfl, he, -⟩
    have hopen' := (exec_moves he k).open hopen
    refine ⟨trivial, ?_⟩
    rintro g' rfl
    refine ⟨hopen', fun hfrees => ?_⟩
    cases c with
    | commit out =>
      obtain ⟨rfl, e, hr⟩ | rfl := exec_commit he
      · cases hr
      · exact hnone hopen' (Cell.publish_owner_ne _ _)
    | rollback =>
      obtain ⟨rfl, -⟩ := exec_rollback he
      exact hnone hopen' (Cell.release_owner_ne _ _)
    | _ => cases hfrees
  obtain ⟨g, ⟨-, hfree⟩, hg⟩ := hrun.meets (P := freeing) hstep ⟨.inl (hw k), fun _ => hw k⟩ hmeets
  exact hfree hg

end

end Concurrency
