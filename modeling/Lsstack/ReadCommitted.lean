/-
A row store with READ COMMITTED transactions and row locks.

Every key has a cell: the committed row, and who holds the row lock with which
uncommitted value.  A statement of session `i` sees the latest committed rows
and its own uncommitted ones; a write or a locking read takes the row lock and
waits while another session holds it; `commit` publishes everything session `i`
has written and frees its locks, `rollback` only frees them.  A statement may
also fail, and a commit may fail without effect (`Choice.fail`) or take effect
and be reported as failed (`Choice.lost`).

The log lists the results of the committed transactions, newest first.

* `exec` — what one statement does;
* `exec_foreign` — a row locked by one session is not touched by another;
* `exec_row` — committed rows and the log change only at a commit, to what the
  committing session sees;
* `HeldBy.frame` — what holds of the rows a session has locked survives the
  statements of the others.
-/
import Lsstack.Interleaving

namespace Concurrency

/-- Who holds a row lock, and what it has written so far (`none` = deleted). -/
inductive Hold (α : Type) where
  | free
  | locked (i : ℕ)
  | written (i : ℕ) (v : Option α)

/-- The session that holds the lock. -/
def Hold.owner {α : Type} : Hold α → Option ℕ
  | .free => none
  | .locked i => some i
  | .written i _ => some i

@[simp] theorem Hold.owner_free {α : Type} : (Hold.free : Hold α).owner = none := rfl

@[simp] theorem Hold.owner_locked {α : Type} (i : ℕ) :
    (Hold.locked i : Hold α).owner = some i := rfl

@[simp] theorem Hold.owner_written {α : Type} (i : ℕ) (v : Option α) :
    (Hold.written i v).owner = some i := rfl

/-- A row slot: the committed row and the lock on it. -/
structure Cell (α : Type) where
  committed : Option α
  hold : Hold α

namespace Cell

variable {α : Type}

/-- No row and no lock. -/
def blank : Cell α := ⟨none, .free⟩

/-- The row as session `i` sees it: its own uncommitted value, or the latest
committed one. -/
def view (c : Cell α) (i : ℕ) : Option α :=
  match c.hold with
  | .written j v => if j = i then v else c.committed
  | _ => c.committed

/-- Session `i` may take the lock. -/
def Open (c : Cell α) (i : ℕ) : Prop := c.hold.owner = none ∨ c.hold.owner = some i

instance (c : Cell α) (i : ℕ) : Decidable (c.Open i) :=
  inferInstanceAs (Decidable (_ ∨ _))

/-- Take the lock, keeping what was already written under it. -/
def lock (c : Cell α) (i : ℕ) : Cell α :=
  match c.hold with
  | .free => ⟨c.committed, .locked i⟩
  | _ => c

/-- Take the lock and write. -/
def write (c : Cell α) (i : ℕ) (v : Option α) : Cell α := ⟨c.committed, .written i v⟩

/-- The cell after session `i` has committed. -/
def publish (c : Cell α) (i : ℕ) : Cell α :=
  if c.hold.owner = some i then ⟨c.view i, .free⟩ else c

/-- The cell after session `i` has rolled back. -/
def release (c : Cell α) (i : ℕ) : Cell α :=
  if c.hold.owner = some i then ⟨c.committed, .free⟩ else c

theorem view_of_owner_ne {c : Cell α} {i : ℕ} (h : c.hold.owner ≠ some i) :
    c.view i = c.committed := by
  unfold view
  split
  · rename_i j v hc
    rw [hc] at h
    rw [if_neg fun hji => h (by rw [Hold.owner_written, hji])]
  · rfl

@[simp] theorem write_committed (c : Cell α) (i : ℕ) (v : Option α) :
    (c.write i v).committed = c.committed := rfl

@[simp] theorem write_hold (c : Cell α) (i : ℕ) (v : Option α) :
    (c.write i v).hold = .written i v := rfl

@[simp] theorem write_view (c : Cell α) (i : ℕ) (v : Option α) : (c.write i v).view i = v := by
  simp [view]

@[simp] theorem lock_committed (c : Cell α) (i : ℕ) : (c.lock i).committed = c.committed := by
  unfold lock
  split <;> rfl

theorem lock_view (c : Cell α) (i j : ℕ) : (c.lock i).view j = c.view j := by
  cases hc : c.hold <;> simp [lock, view, hc]

theorem lock_owner {c : Cell α} {i : ℕ} (h : c.Open i) : (c.lock i).hold.owner = some i := by
  unfold lock
  rcases h with h | h <;> cases hc : c.hold <;> simp_all

theorem lock_of_free {c : Cell α} {i : ℕ} (h : c.hold.owner = none) :
    c.lock i = ⟨c.committed, .locked i⟩ := by
  unfold lock
  split
  · rfl
  · rename_i hne
    cases hc : c.hold with
    | free => exact absurd hc hne
    | locked j =>
      rw [hc] at h
      cases h
    | written j v =>
      rw [hc] at h
      cases h

@[simp] theorem blank_publish (i : ℕ) : (blank : Cell α).publish i = blank := rfl

@[simp] theorem blank_release (i : ℕ) : (blank : Cell α).release i = blank := rfl

theorem publish_of_owner {c : Cell α} {i : ℕ} (h : c.hold.owner = some i) :
    c.publish i = ⟨c.view i, .free⟩ := if_pos h

theorem publish_of_ne {c : Cell α} {i : ℕ} (h : c.hold.owner ≠ some i) : c.publish i = c :=
  if_neg h

theorem release_of_ne {c : Cell α} {i : ℕ} (h : c.hold.owner ≠ some i) : c.release i = c :=
  if_neg h

/-- After its commit a session sees what it saw before, and so does everyone. -/
theorem publish_committed (c : Cell α) (i : ℕ) : (c.publish i).committed = c.view i := by
  by_cases h : c.hold.owner = some i
  · rw [publish_of_owner h]
  · rw [publish_of_ne h, view_of_owner_ne h]

@[simp] theorem release_committed (c : Cell α) (i : ℕ) :
    (c.release i).committed = c.committed := by
  unfold release
  split <;> rfl

theorem publish_owner_ne (c : Cell α) (i : ℕ) : (c.publish i).hold.owner ≠ some i := by
  by_cases h : c.hold.owner = some i
  · simp [publish_of_owner h]
  · rwa [publish_of_ne h]

theorem release_owner_ne (c : Cell α) (i : ℕ) : (c.release i).hold.owner ≠ some i := by
  unfold release
  split
  · simp
  · assumption

/-- A lock another session holds survives. -/
theorem publish_foreign {c : Cell α} {i j : ℕ} (h : c.hold.owner = some j) (hij : j ≠ i) :
    c.publish i = c :=
  publish_of_ne fun hi => hij (Option.some_inj.mp (h.symm.trans hi))

theorem release_foreign {c : Cell α} {i j : ℕ} (h : c.hold.owner = some j) (hij : j ≠ i) :
    c.release i = c :=
  release_of_ne fun hi => hij (Option.some_inj.mp (h.symm.trans hi))

end Cell

/-- The cells, and a finite list of the keys that may hold a row. -/
structure Store (κ : Type) (ρ : κ → Type) where
  cell : (k : κ) → Cell (ρ k)
  keys : List κ
  nodup : keys.Nodup
  complete : ∀ k, k ∉ keys → cell k = .blank

namespace Store

variable {κ : Type} {ρ : κ → Type}

/-- No rows at all. -/
def empty : Store κ ρ where
  cell := fun _ => .blank
  keys := []
  nodup := List.nodup_nil
  complete := fun _ _ => rfl

/-- Replace one cell. -/
def set [DecidableEq κ] (s : Store κ ρ) (k : κ) (c : Cell (ρ k)) : Store κ ρ where
  cell := Function.update s.cell k c
  keys := if k ∈ s.keys then s.keys else k :: s.keys
  nodup := by
    split
    · exact s.nodup
    · exact List.nodup_cons.mpr ⟨‹_›, s.nodup⟩
  complete := fun k' hk' => by
    have hne : k' ≠ k := by
      rintro rfl
      split at hk' <;> simp_all
    rw [Function.update_of_ne hne]
    refine s.complete k' fun hmem => hk' ?_
    split
    · exact hmem
    · exact List.mem_cons_of_mem _ hmem

/-- Change every cell, blank ones excepted. -/
def mapCells (s : Store κ ρ) (f : (k : κ) → Cell (ρ k) → Cell (ρ k))
    (hf : ∀ k, f k .blank = .blank) : Store κ ρ where
  cell := fun k => f k (s.cell k)
  keys := s.keys
  nodup := s.nodup
  complete := fun k hk => by rw [s.complete k hk, hf]

@[simp] theorem set_cell_self [DecidableEq κ] (s : Store κ ρ) (k : κ) (c : Cell (ρ k)) :
    (s.set k c).cell k = c := by
  simp [set]

theorem set_cell_of_ne [DecidableEq κ] (s : Store κ ρ) {k k' : κ} (h : k' ≠ k)
    (c : Cell (ρ k)) : (s.set k c).cell k' = s.cell k' := by
  simp [set, h]

end Store

/-- The statements of a session.  `p` is the rest of a WHERE clause that fixes
the primary key, `f` the SET clause; `out` is recorded in the log. -/
inductive Statement (κ : Type) (ρ : κ → Type) (σ O X : Type) where
  | select (k : κ) (p : ρ k → Bool)
  | scan (p : (k : κ) × ρ k → Bool) (le : (k : κ) × ρ k → (k : κ) × ρ k → Bool)
  | lock (k : κ) (p : ρ k → Bool)
  | tryLock (k : κ) (p : ρ k → Bool)
  | update (k : κ) (p : ρ k → Bool) (f : ρ k → ρ k)
  | insert (k : κ) (v : ρ k)
  | delete (k : κ) (p : ρ k → Bool)
  | nextval (s : σ)
  | commit (out : O)
  | rollback
  | ext (x : X)

/-- The type of a statement's reply.  `insert` replies `false` where the key is
taken; the other writes reply the row they touched. -/
@[reducible] def Statement.Reply {κ : Type} {ρ : κ → Type} {σ O X : Type} (XR : X → Type) :
    Statement κ ρ σ O X → Type
  | .select k _ => Option (ρ k)
  | .scan _ _ => List ((k : κ) × ρ k)
  | .lock k _ => Option (ρ k)
  | .tryLock k _ => Option (ρ k)
  | .update k _ _ => Option (ρ k)
  | .insert _ _ => Bool
  | .delete k _ => Option (ρ k)
  | .nextval _ => ℕ
  | .commit _ => Unit
  | .rollback => Unit
  | .ext x => XR x

/-- What the environment decides about one statement; `F` are the faults of the
connection. -/
inductive Choice (F Y : Type) where
  | ok
  | fail (e : F)
  | lost (e : F)
  | ext (y : Y)

/-- The shared state: rows, sequences, the log of committed results (newest
first) and whatever lies outside the store. -/
structure World (κ : Type) (ρ : κ → Type) (σ O E : Type) where
  store : Store κ ρ
  seq : σ → ℕ
  log : List (ℕ × O)
  env : E

/-- The outcome of asking for a row lock. -/
inductive Acquired (α : Type) where
  | absent
  | blocked
  | row (a : α)

namespace World

variable {κ : Type} {ρ : κ → Type} {σ O E : Type}

/-- The cell of a key. -/
def cell (w : World κ ρ σ O E) (k : κ) : Cell (ρ k) := w.store.cell k

/-- The committed row of a key. -/
def row (w : World κ ρ σ O E) (k : κ) : Option (ρ k) := (w.cell k).committed

/-- The row session `i` finds under the key if it satisfies `p`; `blocked` if
another session holds its lock. -/
def acquire (w : World κ ρ σ O E) (i : ℕ) (k : κ) (p : ρ k → Bool) : Acquired (ρ k) :=
  match ((w.cell k).view i).filter p with
  | none => .absent
  | some a => if (w.cell k).Open i then .row a else .blocked

/-- The rows session `i` sees that satisfy `p`, ordered by `le`. -/
def scan (w : World κ ρ σ O E) (i : ℕ) (p : (k : κ) × ρ k → Bool)
    (le : (k : κ) × ρ k → (k : κ) × ρ k → Bool) : List ((k : κ) × ρ k) :=
  (w.store.keys.filterMap fun k =>
    (((w.cell k).view i).map fun r => (⟨k, r⟩ : (k : κ) × ρ k)).filter p).insertionSort
      fun a b => le a b = true

/-- Take a row lock. -/
def lock [DecidableEq κ] (w : World κ ρ σ O E) (i : ℕ) (k : κ) : World κ ρ σ O E :=
  { w with store := w.store.set k ((w.cell k).lock i) }

/-- Write a row under its lock. -/
def write [DecidableEq κ] (w : World κ ρ σ O E) (i : ℕ) (k : κ) (v : Option (ρ k)) :
    World κ ρ σ O E :=
  { w with store := w.store.set k ((w.cell k).write i v) }

/-- Publish the writes of session `i`, free its locks and log the result. -/
def commit (w : World κ ρ σ O E) (i : ℕ) (out : O) : World κ ρ σ O E :=
  { w with
    store := w.store.mapCells (fun _ c => c.publish i) fun _ => rfl
    log := (i, out) :: w.log }

/-- Free the locks of session `i` and forget its writes. -/
def release (w : World κ ρ σ O E) (i : ℕ) : World κ ρ σ O E :=
  { w with store := w.store.mapCells (fun _ c => c.release i) fun _ => rfl }

/-- Draw the next value of a sequence; this is never undone. -/
def nextval [DecidableEq σ] (w : World κ ρ σ O E) (s : σ) : World κ ρ σ O E :=
  { w with seq := Function.update w.seq s (w.seq s + 1) }

@[simp] theorem commit_cell (w : World κ ρ σ O E) (i : ℕ) (out : O) (k : κ) :
    (w.commit i out).cell k = (w.cell k).publish i := rfl

@[simp] theorem commit_log (w : World κ ρ σ O E) (i : ℕ) (out : O) :
    (w.commit i out).log = (i, out) :: w.log := rfl

@[simp] theorem release_cell (w : World κ ρ σ O E) (i : ℕ) (k : κ) :
    (w.release i).cell k = (w.cell k).release i := rfl

@[simp] theorem release_log (w : World κ ρ σ O E) (i : ℕ) : (w.release i).log = w.log := rfl

@[simp] theorem release_row (w : World κ ρ σ O E) (i : ℕ) (k : κ) :
    (w.release i).row k = w.row k :=
  Cell.release_committed _ _

theorem commit_row (w : World κ ρ σ O E) (i : ℕ) (out : O) (k : κ) :
    (w.commit i out).row k = (w.cell k).view i :=
  Cell.publish_committed _ _

@[simp] theorem nextval_cell [DecidableEq σ] (w : World κ ρ σ O E) (s : σ) (k : κ) :
    (w.nextval s).cell k = w.cell k := rfl

@[simp] theorem nextval_row [DecidableEq σ] (w : World κ ρ σ O E) (s : σ) (k : κ) :
    (w.nextval s).row k = w.row k := rfl

@[simp] theorem nextval_log [DecidableEq σ] (w : World κ ρ σ O E) (s : σ) :
    (w.nextval s).log = w.log := rfl

section

variable [DecidableEq κ]

@[simp] theorem lock_cell_self (w : World κ ρ σ O E) (i : ℕ) (k : κ) :
    (w.lock i k).cell k = (w.cell k).lock i :=
  Store.set_cell_self _ _ _

theorem lock_cell_of_ne (w : World κ ρ σ O E) (i : ℕ) {k k' : κ} (h : k' ≠ k) :
    (w.lock i k).cell k' = w.cell k' :=
  Store.set_cell_of_ne _ h _

@[simp] theorem write_cell_self (w : World κ ρ σ O E) (i : ℕ) (k : κ) (v : Option (ρ k)) :
    (w.write i k v).cell k = (w.cell k).write i v :=
  Store.set_cell_self _ _ _

theorem write_cell_of_ne (w : World κ ρ σ O E) (i : ℕ) {k k' : κ} (h : k' ≠ k)
    (v : Option (ρ k)) : (w.write i k v).cell k' = w.cell k' :=
  Store.set_cell_of_ne _ h _

@[simp] theorem lock_log (w : World κ ρ σ O E) (i : ℕ) (k : κ) : (w.lock i k).log = w.log := rfl

@[simp] theorem write_log (w : World κ ρ σ O E) (i : ℕ) (k : κ) (v : Option (ρ k)) :
    (w.write i k v).log = w.log := rfl

@[simp] theorem lock_row (w : World κ ρ σ O E) (i : ℕ) (k k' : κ) :
    (w.lock i k).row k' = w.row k' := by
  by_cases h : k' = k
  · subst h
    simp [row]
  · rw [row, lock_cell_of_ne _ _ h, row]

@[simp] theorem write_row (w : World κ ρ σ O E) (i : ℕ) (k k' : κ) (v : Option (ρ k)) :
    (w.write i k v).row k' = w.row k' := by
  by_cases h : k' = k
  · subst h
    simp [row]
  · rw [row, write_cell_of_ne _ _ h, row]

end

theorem acquire_row {w : World κ ρ σ O E} {i : ℕ} {k : κ} {p : ρ k → Bool} {a : ρ k}
    (h : w.acquire i k p = .row a) :
    (w.cell k).view i = some a ∧ p a = true ∧ (w.cell k).Open i := by
  unfold acquire at h
  split at h
  · cases h
  · rename_i b hb
    split at h
    · cases h
      obtain ⟨hv, hp⟩ := Option.filter_eq_some_iff.mp hb
      exact ⟨hv, hp, ‹_›⟩
    · cases h

theorem acquire_absent {w : World κ ρ σ O E} {i : ℕ} {k : κ} {p : ρ k → Bool}
    (h : w.acquire i k p = .absent) : ∀ a, (w.cell k).view i = some a → p a = false := by
  unfold acquire at h
  split at h
  · rename_i hb
    intro a ha
    simpa [ha] using hb
  · split at h <;> cases h

theorem acquire_blocked {w : World κ ρ σ O E} {i : ℕ} {k : κ} {p : ρ k → Bool}
    (h : w.acquire i k p = .blocked) : ¬ (w.cell k).Open i := by
  rw [acquire] at h
  split at h
  · cases h
  · split at h
    · cases h
    · assumption

end World

/-! ### Execution -/

variable {κ : Type} {ρ : κ → Type} {σ O E X Y F ε : Type} {XR : X → Type}
  [DecidableEq κ] [DecidableEq σ]

/-- What a statement of session `i` does; `none` while it must wait.  `ext` is
the behaviour of everything outside the store, `fault` the exception by which
a fault shows. -/
def exec (fault : F → ε) (ext : E → (x : X) → Y → Option (Except ε (XR x) × E))
    (w : World κ ρ σ O E) (i : ℕ) (c : Statement κ ρ σ O X) :
    Choice F Y → Option (Except ε (c.Reply XR) × World κ ρ σ O E)
  | .fail e =>
    match c with
    | .rollback => none
    | _ => some (.error (fault e), w)
  | .lost e =>
    match c with
    | .commit out => some (.error (fault e), w.commit i out)
    | _ => none
  | .ext y =>
    match c with
    | .ext x => (ext w.env x y).map fun re => (re.1, { w with env := re.2 })
    | _ => none
  | .ok =>
    match c with
    | .select k p => some (.ok (((w.cell k).view i).filter p), w)
    | .scan p le => some (.ok (w.scan i p le), w)
    | .lock k p =>
      match w.acquire i k p with
      | .absent => some (.ok none, w)
      | .blocked => none
      | .row a => some (.ok (some a), w.lock i k)
    | .tryLock k p =>
      match w.acquire i k p with
      | .absent => some (.ok none, w)
      | .blocked => some (.ok none, w)
      | .row a => some (.ok (some a), w.lock i k)
    | .update k p f =>
      match w.acquire i k p with
      | .absent => some (.ok none, w)
      | .blocked => none
      | .row a => some (.ok (some (f a)), w.write i k (some (f a)))
    | .delete k p =>
      match w.acquire i k p with
      | .absent => some (.ok none, w)
      | .blocked => none
      | .row a => some (.ok (some a), w.write i k none)
    | .insert k v =>
      if (w.cell k).Open i then
        match (w.cell k).view i with
        | none => some (.ok true, w.write i k (some v))
        | some _ => some (.ok false, w)
      else none
    | .nextval s => some (.ok (w.seq s), w.nextval s)
    | .commit out => some (.ok (), w.commit i out)
    | .rollback => some (.ok (), w.release i)
    | .ext _ => none

variable {fault : F → ε} {ext : E → (x : X) → Y → Option (Except ε (XR x) × E)}
  {w w' : World κ ρ σ O E} {i : ℕ} {x : Choice F Y}

/-! ### What each statement can do -/

theorem exec_select {k : κ} {p : ρ k → Bool} {r : Except ε (Option (ρ k))}
    (h : exec fault ext w i (.select k p) x = some (r, w')) :
    w' = w ∧ ((∃ e, r = .error (fault e)) ∨ r = .ok (((w.cell k).view i).filter p)) := by
  rcases x with _ | e | e | y <;> cases h
  · exact ⟨rfl, .inr rfl⟩
  · exact ⟨rfl, .inl ⟨e, rfl⟩⟩

theorem exec_scan {p : (k : κ) × ρ k → Bool} {le : (k : κ) × ρ k → (k : κ) × ρ k → Bool}
    {r : Except ε (List ((k : κ) × ρ k))}
    (h : exec fault ext w i (.scan p le) x = some (r, w')) :
    w' = w ∧ ((∃ e, r = .error (fault e)) ∨ r = .ok (w.scan i p le)) := by
  rcases x with _ | e | e | y <;> cases h
  · exact ⟨rfl, .inr rfl⟩
  · exact ⟨rfl, .inl ⟨e, rfl⟩⟩

theorem exec_lock {k : κ} {p : ρ k → Bool} {r : Except ε (Option (ρ k))}
    (h : exec fault ext w i (.lock k p) x = some (r, w')) :
    (w' = w ∧ ∃ e, r = .error (fault e)) ∨
    (w' = w ∧ r = .ok none ∧ w.acquire i k p = .absent) ∨
    ∃ a, w' = w.lock i k ∧ r = .ok (some a) ∧ w.acquire i k p = .row a := by
  rcases x with _ | e | e | y
  · simp only [exec] at h
    rcases ha : w.acquire i k p with _ | _ | a <;> rw [ha] at h <;> cases h
    · exact .inr (.inl ⟨rfl, rfl, rfl⟩)
    · exact .inr (.inr ⟨a, rfl, rfl, rfl⟩)
  all_goals cases h
  exact .inl ⟨rfl, e, rfl⟩

theorem exec_tryLock {k : κ} {p : ρ k → Bool} {r : Except ε (Option (ρ k))}
    (h : exec fault ext w i (.tryLock k p) x = some (r, w')) :
    (w' = w ∧ ∃ e, r = .error (fault e)) ∨ (w' = w ∧ r = .ok none) ∨
    ∃ a, w' = w.lock i k ∧ r = .ok (some a) ∧ w.acquire i k p = .row a := by
  rcases x with _ | e | e | y
  · simp only [exec] at h
    rcases ha : w.acquire i k p with _ | _ | a <;> rw [ha] at h <;> cases h
    · exact .inr (.inl ⟨rfl, rfl⟩)
    · exact .inr (.inl ⟨rfl, rfl⟩)
    · exact .inr (.inr ⟨a, rfl, rfl, rfl⟩)
  all_goals cases h
  exact .inl ⟨rfl, e, rfl⟩

theorem exec_update {k : κ} {p : ρ k → Bool} {f : ρ k → ρ k}
    {r : Except ε (Option (ρ k))}
    (h : exec fault ext w i (.update k p f) x = some (r, w')) :
    (w' = w ∧ ∃ e, r = .error (fault e)) ∨
    (w' = w ∧ r = .ok none ∧ w.acquire i k p = .absent) ∨
    ∃ a, w' = w.write i k (some (f a)) ∧ r = .ok (some (f a)) ∧ w.acquire i k p = .row a := by
  rcases x with _ | e | e | y
  · simp only [exec] at h
    rcases ha : w.acquire i k p with _ | _ | a <;> rw [ha] at h <;> cases h
    · exact .inr (.inl ⟨rfl, rfl, rfl⟩)
    · exact .inr (.inr ⟨a, rfl, rfl, rfl⟩)
  all_goals cases h
  exact .inl ⟨rfl, e, rfl⟩

theorem exec_delete {k : κ} {p : ρ k → Bool} {r : Except ε (Option (ρ k))}
    (h : exec fault ext w i (.delete k p) x = some (r, w')) :
    (w' = w ∧ ∃ e, r = .error (fault e)) ∨
    (w' = w ∧ r = .ok none ∧ w.acquire i k p = .absent) ∨
    ∃ a, w' = w.write i k none ∧ r = .ok (some a) ∧ w.acquire i k p = .row a := by
  rcases x with _ | e | e | y
  · simp only [exec] at h
    rcases ha : w.acquire i k p with _ | _ | a <;> rw [ha] at h <;> cases h
    · exact .inr (.inl ⟨rfl, rfl, rfl⟩)
    · exact .inr (.inr ⟨a, rfl, rfl, rfl⟩)
  all_goals cases h
  exact .inl ⟨rfl, e, rfl⟩

theorem exec_insert {k : κ} {v : ρ k} {r : Except ε Bool}
    (h : exec fault ext w i (.insert k v) x = some (r, w')) :
    (w' = w ∧ ∃ e, r = .error (fault e)) ∨
    (w' = w ∧ r = .ok false ∧ (w.cell k).Open i ∧ ∃ a, (w.cell k).view i = some a) ∨
    (w' = w.write i k (some v) ∧ r = .ok true ∧ (w.cell k).Open i ∧
      (w.cell k).view i = none) := by
  rcases x with _ | e | e | y
  · simp only [exec] at h
    by_cases ho : (w.cell k).Open i
    · rw [if_pos ho] at h
      rcases hv : (w.cell k).view i with _ | a <;> rw [hv] at h <;> cases h
      · exact .inr (.inr ⟨rfl, rfl, ho, rfl⟩)
      · exact .inr (.inl ⟨rfl, rfl, ho, a, rfl⟩)
    · rw [if_neg ho] at h
      cases h
  all_goals cases h
  exact .inl ⟨rfl, e, rfl⟩

theorem exec_nextval {s : σ} {r : Except ε ℕ}
    (h : exec fault ext w i (.nextval s) x = some (r, w')) :
    (w' = w ∧ ∃ e, r = .error (fault e)) ∨ (w' = w.nextval s ∧ r = .ok (w.seq s)) := by
  rcases x with _ | e | e | y <;> cases h
  · exact .inr ⟨rfl, rfl⟩
  · exact .inl ⟨rfl, e, rfl⟩

theorem exec_commit {out : O} {r : Except ε Unit}
    (h : exec fault ext w i (.commit out) x = some (r, w')) :
    (w' = w ∧ ∃ e, r = .error (fault e)) ∨ w' = w.commit i out := by
  rcases x with _ | e | e | y <;> cases h
  · exact .inr rfl
  · exact .inl ⟨rfl, e, rfl⟩
  · exact .inr rfl

theorem exec_rollback {r : Except ε Unit}
    (h : exec fault ext w i .rollback x = some (r, w')) : w' = w.release i ∧ r = .ok () := by
  rcases x with _ | e | e | y <;> cases h
  exact ⟨rfl, rfl⟩

theorem exec_ext {y : X} {r : Except ε (XR y)}
    (h : exec fault ext w i (.ext y) x = some (r, w')) :
    (w' = w ∧ ∃ e, r = .error (fault e)) ∨
    ∃ c env, ext w.env y c = some (r, env) ∧ w' = { w with env := env } := by
  rcases x with _ | e | e | c
  · cases h
  · cases h
    exact .inl ⟨rfl, e, rfl⟩
  · cases h
  · obtain ⟨⟨r', env⟩, he, heq⟩ := Option.map_eq_some_iff.mp h
    cases heq
    exact .inr ⟨c, env, he, rfl⟩

/-! ### Frame rules -/

/-- How a statement of session `i` may change one cell. -/
inductive Cell.Moves {α : Type} (i : ℕ) (c : Cell α) : Cell α → Prop
  | stay : Cell.Moves i c c
  | lock (o : c.Open i) : Cell.Moves i c (c.lock i)
  | write (o : c.Open i) (v : Option α) : Cell.Moves i c (c.write i v)
  | publish : Cell.Moves i c (c.publish i)
  | release : Cell.Moves i c (c.release i)

omit [DecidableEq σ] in
theorem lock_moves {k : κ} (o : (w.cell k).Open i) (k' : κ) :
    (w.cell k').Moves i ((w.lock i k).cell k') := by
  by_cases hk : k' = k
  · subst hk
    rw [World.lock_cell_self]
    exact .lock o
  · rw [World.lock_cell_of_ne _ _ hk]
    exact .stay

omit [DecidableEq σ] in
theorem write_moves {k : κ} (o : (w.cell k).Open i) (v : Option (ρ k)) (k' : κ) :
    (w.cell k').Moves i ((w.write i k v).cell k') := by
  by_cases hk : k' = k
  · subst hk
    rw [World.write_cell_self]
    exact .write o v
  · rw [World.write_cell_of_ne _ _ hk]
    exact .stay

/-- Every statement moves every cell in one of five ways. -/
theorem exec_moves {c : Statement κ ρ σ O X} {r : Except ε (c.Reply XR)}
    (h : exec fault ext w i c x = some (r, w')) (k : κ) : (w.cell k).Moves i (w'.cell k) := by
  -- a statement that finds nothing or fails leaves every cell
  cases c with
  | select k' p =>
    obtain ⟨rfl, -⟩ := exec_select h
    exact .stay
  | scan p le =>
    obtain ⟨rfl, -⟩ := exec_scan h
    exact .stay
  | lock k' p =>
    obtain ⟨rfl, -⟩ | ⟨rfl, -⟩ | ⟨a, rfl, -, ha⟩ := exec_lock h
    · exact .stay
    · exact .stay
    · exact lock_moves (World.acquire_row ha).2.2 k
  | tryLock k' p =>
    obtain ⟨rfl, -⟩ | ⟨rfl, -⟩ | ⟨a, rfl, -, ha⟩ := exec_tryLock h
    · exact .stay
    · exact .stay
    · exact lock_moves (World.acquire_row ha).2.2 k
  | update k' p f =>
    obtain ⟨rfl, -⟩ | ⟨rfl, -⟩ | ⟨a, rfl, -, ha⟩ := exec_update h
    · exact .stay
    · exact .stay
    · exact write_moves (World.acquire_row ha).2.2 _ k
  | insert k' v =>
    obtain ⟨rfl, -⟩ | ⟨rfl, -⟩ | ⟨rfl, -, ho, -⟩ := exec_insert h
    · exact .stay
    · exact .stay
    · exact write_moves ho _ k
  | delete k' p =>
    obtain ⟨rfl, -⟩ | ⟨rfl, -⟩ | ⟨a, rfl, -, ha⟩ := exec_delete h
    · exact .stay
    · exact .stay
    · exact write_moves (World.acquire_row ha).2.2 _ k
  | nextval s =>
    obtain ⟨rfl, -⟩ | ⟨rfl, -⟩ := exec_nextval h
    · exact .stay
    · exact .stay
  | commit out =>
    obtain ⟨rfl, -⟩ | rfl := exec_commit h
    · exact .stay
    · exact .publish
  | rollback =>
    obtain ⟨rfl, -⟩ := exec_rollback h
    exact .release
  | ext y =>
    obtain ⟨rfl, -⟩ | ⟨c, env, -, rfl⟩ := exec_ext h
    · exact .stay
    · exact .stay

/-- A cell another session has locked stays as it is. -/
theorem Cell.Moves.foreign {α : Type} {c c' : Cell α} {j : ℕ} (h : c.Moves i c')
    (hj : c.hold.owner = some j) (hij : j ≠ i) : c' = c := by
  have hclosed : ¬ c.Open i := by
    rintro (ho | ho) <;> rw [hj] at ho
    · cases ho
    · exact hij (Option.some_inj.mp ho)
  cases h with
  | stay => rfl
  | lock o => exact absurd o hclosed
  | write o v => exact absurd o hclosed
  | publish => exact Cell.publish_foreign hj hij
  | release => exact Cell.release_foreign hj hij

theorem exec_foreign {c : Statement κ ρ σ O X} {r : Except ε (c.Reply XR)}
    (h : exec fault ext w i c x = some (r, w')) {k : κ} {j : ℕ}
    (hj : (w.cell k).hold.owner = some j) (hij : j ≠ i) : w'.cell k = w.cell k :=
  (exec_moves h k).foreign hj hij

/-- Whoever holds a lock after a statement of session `i` is `i` or held it
before. -/
theorem Cell.Moves.owner {α : Type} {c c' : Cell α} {j : ℕ} (h : c.Moves i c')
    (hj : c'.hold.owner = some j) (hij : j ≠ i) : c.hold.owner = some j := by
  cases h with
  | stay => exact hj
  | lock o =>
    rw [Cell.lock_owner o] at hj
    exact absurd (Option.some_inj.mp hj).symm hij
  | write o v =>
    rw [Cell.write_hold, Hold.owner_written] at hj
    exact absurd (Option.some_inj.mp hj).symm hij
  | publish =>
    by_cases ho : c.hold.owner = some i
    · simp [Cell.publish_of_owner ho] at hj
    · rwa [Cell.publish_of_ne ho] at hj
  | release =>
    by_cases ho : c.hold.owner = some i
    · simp [Cell.release, ho] at hj
    · rwa [Cell.release_of_ne ho] at hj

/-- Only a commit changes a committed row, to what its session sees. -/
theorem exec_row {c : Statement κ ρ σ O X} {r : Except ε (c.Reply XR)}
    (h : exec fault ext w i c x = some (r, w')) :
    (∀ k, w'.row k = w.row k) ∧ w'.log = w.log ∨
    ∃ out, c = .commit out ∧ w' = w.commit i out := by
  -- writes show in the committed rows at the commit, and not before
  cases c with
  | select k' p =>
    obtain ⟨rfl, -⟩ := exec_select h
    exact .inl ⟨fun _ => rfl, rfl⟩
  | scan p le =>
    obtain ⟨rfl, -⟩ := exec_scan h
    exact .inl ⟨fun _ => rfl, rfl⟩
  | lock k' p =>
    obtain ⟨rfl, -⟩ | ⟨rfl, -⟩ | ⟨a, rfl, -, -⟩ := exec_lock h
    · exact .inl ⟨fun _ => rfl, rfl⟩
    · exact .inl ⟨fun _ => rfl, rfl⟩
    · exact .inl ⟨fun k => World.lock_row _ _ _ k, rfl⟩
  | tryLock k' p =>
    obtain ⟨rfl, -⟩ | ⟨rfl, -⟩ | ⟨a, rfl, -, -⟩ := exec_tryLock h
    · exact .inl ⟨fun _ => rfl, rfl⟩
    · exact .inl ⟨fun _ => rfl, rfl⟩
    · exact .inl ⟨fun k => World.lock_row _ _ _ k, rfl⟩
  | update k' p f =>
    obtain ⟨rfl, -⟩ | ⟨rfl, -⟩ | ⟨a, rfl, -, -⟩ := exec_update h
    · exact .inl ⟨fun _ => rfl, rfl⟩
    · exact .inl ⟨fun _ => rfl, rfl⟩
    · exact .inl ⟨fun k => World.write_row _ _ _ k _, rfl⟩
  | insert k' v =>
    obtain ⟨rfl, -⟩ | ⟨rfl, -⟩ | ⟨rfl, -⟩ := exec_insert h
    · exact .inl ⟨fun _ => rfl, rfl⟩
    · exact .inl ⟨fun _ => rfl, rfl⟩
    · exact .inl ⟨fun k => World.write_row _ _ _ k _, rfl⟩
  | delete k' p =>
    obtain ⟨rfl, -⟩ | ⟨rfl, -⟩ | ⟨a, rfl, -, -⟩ := exec_delete h
    · exact .inl ⟨fun _ => rfl, rfl⟩
    · exact .inl ⟨fun _ => rfl, rfl⟩
    · exact .inl ⟨fun k => World.write_row _ _ _ k _, rfl⟩
  | nextval s =>
    obtain ⟨rfl, -⟩ | ⟨rfl, -⟩ := exec_nextval h
    · exact .inl ⟨fun _ => rfl, rfl⟩
    · exact .inl ⟨fun _ => rfl, rfl⟩
  | commit out =>
    obtain ⟨rfl, -⟩ | rfl := exec_commit h
    · exact .inl ⟨fun _ => rfl, rfl⟩
    · exact .inr ⟨out, rfl, rfl⟩
  | rollback =>
    obtain ⟨rfl, -⟩ := exec_rollback h
    exact .inl ⟨fun k => World.release_row _ _ k, rfl⟩
  | ext y =>
    obtain ⟨rfl, -⟩ | ⟨c, env, -, rfl⟩ := exec_ext h
    · exact .inl ⟨fun _ => rfl, rfl⟩
    · exact .inl ⟨fun _ => rfl, rfl⟩

/-- Sequences only grow, and only a call outside changes what lies outside. -/
theorem exec_seq_env {c : Statement κ ρ σ O X} {r : Except ε (c.Reply XR)}
    (h : exec fault ext w i c x = some (r, w')) :
    (∀ s, w.seq s ≤ w'.seq s) ∧ (w'.env = w.env ∨ ∃ y, c = .ext y) := by
  -- only `nextval` moves a sequence, and only a call outside changes the environment
  have hsame : ∀ {w'' : World κ ρ σ O E}, w''.seq = w.seq → w''.env = w.env →
      (∀ s, w.seq s ≤ w''.seq s) ∧ (w''.env = w.env ∨ ∃ y, c = .ext y) := by
    intro w'' hseq henv
    exact ⟨fun s => by rw [hseq], .inl henv⟩
  cases c with
  | select k' p =>
    obtain ⟨rfl, -⟩ := exec_select h
    exact hsame rfl rfl
  | scan p le =>
    obtain ⟨rfl, -⟩ := exec_scan h
    exact hsame rfl rfl
  | lock k' p =>
    obtain ⟨rfl, -⟩ | ⟨rfl, -⟩ | ⟨a, rfl, -, -⟩ := exec_lock h <;> exact hsame rfl rfl
  | tryLock k' p =>
    obtain ⟨rfl, -⟩ | ⟨rfl, -⟩ | ⟨a, rfl, -, -⟩ := exec_tryLock h <;> exact hsame rfl rfl
  | update k' p f =>
    obtain ⟨rfl, -⟩ | ⟨rfl, -⟩ | ⟨a, rfl, -, -⟩ := exec_update h <;> exact hsame rfl rfl
  | insert k' v =>
    obtain ⟨rfl, -⟩ | ⟨rfl, -⟩ | ⟨rfl, -⟩ := exec_insert h <;> exact hsame rfl rfl
  | delete k' p =>
    obtain ⟨rfl, -⟩ | ⟨rfl, -⟩ | ⟨a, rfl, -, -⟩ := exec_delete h <;> exact hsame rfl rfl
  | nextval s =>
    obtain ⟨rfl, -⟩ | ⟨rfl, -⟩ := exec_nextval h
    · exact hsame rfl rfl
    · refine ⟨fun s' => ?_, .inl rfl⟩
      by_cases hs : s' = s
      · subst hs
        simp [World.nextval]
      · simp [World.nextval, hs]
  | commit out =>
    obtain ⟨rfl, -⟩ | rfl := exec_commit h <;> exact hsame rfl rfl
  | rollback =>
    obtain ⟨rfl, -⟩ := exec_rollback h
    exact hsame rfl rfl
  | ext y =>
    obtain ⟨rfl, -⟩ | ⟨c, env, -, rfl⟩ := exec_ext h
    · exact hsame rfl rfl
    · exact ⟨fun _ => Nat.le_refl _, .inr ⟨y, rfl⟩⟩

omit [DecidableEq κ] [DecidableEq σ] in
theorem release_moves (k : κ) : (w.cell k).Moves i ((w.release i).cell k) := .release

/-- What `L` says of the cells session `i` has locked. -/
def World.HeldBy (w : World κ ρ σ O E) (i : ℕ) (L : (k : κ) → Cell (ρ k) → Prop) : Prop :=
  ∀ k, (w.cell k).hold.owner = some i → L k (w.cell k)

omit [DecidableEq κ] [DecidableEq σ] in
/-- It survives what other sessions do to the cells. -/
theorem World.HeldBy.frame {L : (k : κ) → Cell (ρ k) → Prop} {j : ℕ} (h : w.HeldBy j L)
    (hm : ∀ k, (w.cell k).Moves i (w'.cell k)) (hij : j ≠ i) : w'.HeldBy j L := by
  intro k hk
  have ho := (hm k).owner hk hij
  rw [(hm k).foreign ho hij]
  exact h k ho

omit [DecidableEq κ] [DecidableEq σ] in
theorem World.heldBy_commit {L : (k : κ) → Cell (ρ k) → Prop} {out : O} :
    (w.commit i out).HeldBy i L :=
  fun _ hk => absurd hk (Cell.publish_owner_ne _ _)

omit [DecidableEq κ] [DecidableEq σ] in
theorem World.heldBy_release {L : (k : κ) → Cell (ρ k) → Prop} : (w.release i).HeldBy i L :=
  fun _ hk => absurd hk (Cell.release_owner_ne _ _)

omit [DecidableEq σ] in
/-- After a lock has been taken, one more cell is held. -/
theorem World.heldBy_lock {L L' : (k : κ) → Cell (ρ k) → Prop} {k : κ} (h : w.HeldBy i L)
    (hL : ∀ k' c, k' ≠ k → L k' c → L' k' c) (hk : L' k ((w.cell k).lock i)) :
    (w.lock i k).HeldBy i L' := by
  intro k' hk'
  by_cases hne : k' = k
  · subst hne
    rw [lock_cell_self]
    exact hk
  · rw [lock_cell_of_ne _ _ hne] at hk' ⊢
    exact hL k' _ hne (h k' hk')

omit [DecidableEq σ] in
/-- After a write, one more cell is held, or one is held with another value. -/
theorem World.heldBy_write {L L' : (k : κ) → Cell (ρ k) → Prop} {k : κ} {v : Option (ρ k)}
    (h : w.HeldBy i L) (hL : ∀ k' c, k' ≠ k → L k' c → L' k' c)
    (hk : L' k ((w.cell k).write i v)) : (w.write i k v).HeldBy i L' := by
  intro k' hk'
  by_cases hne : k' = k
  · subst hne
    rw [write_cell_self]
    exact hk
  · rw [write_cell_of_ne _ _ hne] at hk' ⊢
    exact hL k' _ hne (h k' hk')

omit [DecidableEq κ] [DecidableEq σ] in
/-- A session sees the committed row under a key it has not locked. -/
theorem World.view_eq_row {k : κ} (h : (w.cell k).hold.owner ≠ some i) :
    (w.cell k).view i = w.row k :=
  Cell.view_of_owner_ne h

end Concurrency
